import Hoist.Lowering.Unit
import Hoist.Proofs.Lowering.Acceptance

/-!
# The entry of a unit

A unit lowers one function in a root scope of its own. Nothing is visible around that function but its
name, so it captures nothing: its lambda has the function's parameters and is defined last.
-/

namespace Hoist.Lowering

open Hoist.Flat (Symbol Node Location Space Source Table Lambda)
open Hoist.Surface (Expr Stmt Params Module blockReads blockAssigns blockReturns blockDeclares
  blockAccepts blockEnds)

/-- A state at the root of a unit, over an empty table. -/
structure Root (s : State) : Prop where
  valid : Valid s
  topLevel : s.body.topLevel = true
  sees : ∀ x, s.sees x = none
  table : s.table = .empty

section Units

variable {opts : Options} {m : Module} {source : Source} {log : String}

/-- The state in which the entry of a unit is lowered. -/
def rootState (opts : Options) (log : String) : State where
  issued := opts.issued + 1
  scopes := Scopes.empty.root.2
  table := opts.table
  commits := true
  log := log
  body := ⟨0, Flat.fresh opts.issued "lambda" .global_, false, true, none, false, [], []⟩

theorem rootState_own (i : Nat) (x : String) : (rootState opts log).scopes.own i x = none := by
  change (([⟨none, []⟩] : List Frame)[i]?.bind fun f => f.get? x) = none
  cases i <;> simp [Frame.get?]

/-- The root state is valid when the lambdas of the table were named by symbols issued before. -/
theorem rootState_valid (log : String) (hle : ∀ l ∈ opts.table.lambdas, l.ref.token ≤ opts.issued)
    (hne : opts.table.lambdas.Pairwise fun l m => l.ref.same m.ref = false) :
    Valid (rootState opts log) where
  frame_lt := Nat.zero_lt_one
  bound_le i x a ha := by rw [rootState_own] at ha; cases ha
  refs_le l hl := le_trans (hle l hl) (Nat.le_succ _)
  refs_ne := hne
  free_le p hp := by cases hp
  free_own _ p hp := by cases hp
  free_outer _ p hp := by cases hp
  free_nodup := .nil
  free_ne _ := .nil
  free_refs _ p hp := by cases hp
  assigned_nodup := .nil
  assigned_own x hx := by cases hx

theorem rootState_root (log : String) (h : opts.table = .empty) : Root (rootState opts log) where
  valid := rootState_valid log (by rw [h]; simp [Table.empty]) (by rw [h]; exact .nil)
  topLevel := rfl
  sees x := by
    rw [State.sees_eq, State.own, rootState_own]
    rfl
  table := h

/-- A module ends as its entry does in the root state, and leaves behind what that leaves behind. -/
theorem lowerModule_cases (m : Module) (source : Source) (opts : Options) (log : String) :
    (∃ entry t, Lower.lowerEntry ⟨source, opts.expansions, opts.verbose⟩ m (rootState opts log) =
        .ok entry t ∧ lowerModule m source opts log = ⟨.ok entry, t.issued, t.table, t.log⟩) ∨
      ∃ e t, Lower.lowerEntry ⟨source, opts.expansions, opts.verbose⟩ m (rootState opts log) =
        .error e t ∧
        lowerModule m source opts log = ⟨.error (.failed e), t.issued, t.table, t.log⟩ := by
  have hstep : (do Lower.enter (← Lower.rootBody none true false true none)
                   Lower.lowerEntry ⟨source, opts.expansions, opts.verbose⟩ m : Lower Symbol)
      (State.initial opts true log) =
      Lower.lowerEntry ⟨source, opts.expansions, opts.verbose⟩ m (rootState opts log) := rfl
  unfold lowerModule
  simp only [hstep]
  cases Lower.lowerEntry ⟨source, opts.expansions, opts.verbose⟩ m (rootState opts log) with
  | ok entry t => exact .inl ⟨entry, t, rfl, rfl⟩
  | error e t => exact .inr ⟨e, t, rfl, rfl⟩

/-- A module is lowered as its entry is in the root state. -/
theorem lowerModule_iff {entry : Symbol} {T : Table} :
    ((lowerModule m source opts log).result = .ok entry ∧
        (lowerModule m source opts log).table = T) ↔
      ∃ t, Yields (Lower.lowerEntry ⟨source, opts.expansions, opts.verbose⟩ m) (rootState opts log)
        entry t ∧ t.table = T := by
  unfold Yields
  obtain ⟨entry', t, hy, hm⟩ | ⟨e, t, he, hm⟩ := lowerModule_cases m source opts log
  · simp [hy, hm]
  · simp [he, hm]

end Units

section Entries

variable {s t : State} {env : Env} {loc : Option Location} {f : String} {ps : Params Expr}
  {ds : List Expr} {b : List Stmt} {items : List Item}

/-- At the root a function keeps its name. -/
theorem lowerFunction_root_iff {statements : Lower (List Item)} (htop : s.body.topLevel = true) :
    Yields (Lower.lowerFunction env loc f ps ds true statements) s items t ↔
      ps.isPositional = true ∧ ∃ a u n, Yields (Lower.bindFresh f) s a u ∧
        Yields (Lower.lowerClosure env ps (Lower.functionBody statements loc) loc (some f)
          (some (.global f))) u n t ∧ items = [.assign ⟨a, n, loc⟩] := by
  unfold Lower.lowerFunction
  simp only [Yields.bind_iff, requirePositional_iff, Bool.not_true, Bool.false_and,
    Bool.false_eq_true, if_false, Yields.body_iff]
  constructor
  · rintro ⟨_, _, ⟨hps, rfl⟩, _, _, ⟨rfl, rfl⟩, h⟩
    rw [htop] at h
    simp only [if_true, Yields.bind_iff, Yields.pure_iff] at h
    obtain ⟨_, _, ⟨rfl, rfl⟩, a, u, hb, n, _, hc, rfl, rfl⟩ := h
    exact ⟨hps, a, u, n, hb, hc, rfl⟩
  · rintro ⟨hps, a, u, n, hb, hc, rfl⟩
    refine ⟨⟨⟩, s, ⟨hps, rfl⟩, _, s, ⟨rfl, rfl⟩, ?_⟩
    rw [htop]
    simp only [if_true, Yields.bind_iff, Yields.pure_iff]
    exact ⟨_, _, ⟨rfl, rfl⟩, a, u, hb, n, t, hc, rfl, rfl⟩

/-- Lifting a body that captures nothing defines its lambda, if the name of that is not taken. -/
theorem lift_nil_iff {child : Body} {formals : List Symbol} {code n : Node} (h : child.free = []) :
    Yields (Lower.lift env child formals code loc) s n t ↔
      s.table.contains child.dest = false ∧ Node.ref loc child.dest = n ∧
        s.defining env ⟨child.dest, formals, code, loc⟩ = t := by
  rw [lift_iff, Body.lambda, h]
  constructor
  · rintro ⟨_, _, hr, hc, rfl, rfl⟩
    obtain ⟨rfl, rfl⟩ := Yields.pure_iff.1 hr
    exact ⟨hc, rfl, rfl⟩
  · rintro ⟨hc, rfl, rfl⟩
    exact ⟨[], s, Yields.pure_iff.2 ⟨rfl, rfl⟩, hc, rfl, rfl⟩

theorem not_contains_global {T : Table} (h : ∀ l ∈ T.lambdas, 0 < l.ref.token) :
    T.contains (.global f) = false := by
  rw [Table.contains, List.any_eq_false]
  intro l hl
  have hg : l.ref.isGenerated = true := by
    have := h l hl
    simp [Symbol.isGenerated]
    omega
  rw [Symbol.same_comm, Symbol.not_same_of_plain hg rfl]
  exact Bool.false_ne_true

/-- The only name around the entry is its own one, which its body sees as its own: the body captures
nothing, and what is defined on the way does not take its name. -/
theorem Root.captures_nothing (hx : env.expansions = []) (hs : Root s) {a : Symbol} {u v w z : State}
    {formals : List Symbol} {c : Node} (hu : Yields (Lower.bindFresh f) s a u)
    (ho : Opens (ownName (some f) (.global f)) (.global f) true none u v)
    (hw : Yields (Lower.bindFreshAll ps.names) v formals w)
    (hz : Yields (Lower.functionBody (Lower.lowerBlock env b) loc) w c z) :
    z.body.free = [] ∧ z.body.dest = .global f ∧
      (z.resume u.body).table.contains (.global f) = false := by
  have eu := bindFresh_effect hs.valid hu
  have htable : u.table = .empty := by
    obtain ⟨-, sc, -, rfl⟩ := bindFresh_iff.1 hu
    exact hs.table
  have hv := ho.valid eu.valid
  have ew := bindFreshAll_effect hv hw
  have htop : w.body.topLevel = false := by rw [ew.advances.body.topLevel, ho.body]
  have ez := functionBody_acts loc (lowerBlock_acts hx b) ew.valid htop hz
  have e := ew.trans hv ez
  refine ⟨List.map_eq_nil_iff.1 (?_ : z.freeNames = []), by rw [e.advances.body.dest, ho.body], ?_⟩
  · rw [e.free, ho.freeNames, List.filter_eq_nil_iff.2]
    · rfl
    · intro x _ hfree
      rw [ho.isFree eu.valid, Bool.and_eq_true] at hfree
      have := (eu.visible hs.valid (x := x)).1 hfree.2
      simp [State.visible, hs.sees] at this
      simp [ownName, this] at hfree
  · refine not_contains_global fun l hl => ?_
    obtain ⟨new, hn, hlt⟩ := e.advances.lambdas
    simp only [State.resume, hn, ho.table, htable, Table.empty, List.nil_append] at hl
    have := hlt l hl
    omega

/-- The body of the entry starts with its parameters and its own name, and nothing is seen around it
but that name. What it yields becomes the last lambda of the table. -/
theorem entry_iff (hx : env.expansions = []) (hs : Root s) (f : String) (ps : Params Expr)
    (ds : List Expr) (b : List Stmt) (loc : Option Location) : ∃ a u v,
      Valid u ∧ Opens (ownName (some f) (.global f)) (.global f) true none u v ∧
      (∀ x, u.visible x = true ↔ x = f) ∧ u.table = .empty ∧
      (∀ formals w c z, Yields (Lower.bindFreshAll ps.names) v formals w →
        Yields (Lower.functionBody (Lower.lowerBlock env b) loc) w c z → z.body.free = []) ∧
      ∀ items t, Yields (Lower.lowerFunction env loc f ps ds true (Lower.lowerBlock env b)) s items t ↔
        ps.isPositional = true ∧ ∃ formals w c z, Yields (Lower.bindFreshAll ps.names) v formals w ∧
          Yields (Lower.functionBody (Lower.lowerBlock env b) loc) w c z ∧
          items = [.assign ⟨a, .ref loc (.global f), loc⟩] ∧
          (z.resume u.body).defining env ⟨.global f, formals, c, loc⟩ = t := by
  obtain ⟨a, u, hu⟩ := bindFresh_ok hs.valid f
  have eu := bindFresh_effect hs.valid hu
  have hvis : ∀ x, u.visible x = true ↔ x = f := by
    intro x
    rw [eu.visible hs.valid]
    simp [State.visible, hs.sees]
  have htable : u.table = .empty := by
    obtain ⟨-, sc, -, rfl⟩ := bindFresh_iff.1 hu
    exact hs.table
  obtain ⟨v, ho, hiff⟩ := lowerClosure_iff eu.valid (.global f) (Nat.zero_le _) env ps
    (Lower.functionBody (Lower.lowerBlock env b) loc) loc (some f)
  refine ⟨a, u, v, eu.valid, ho, hvis, htable,
    fun _ _ _ _ hw hz => (hs.captures_nothing hx hu ho hw hz).1, fun items t => ?_⟩
  rw [lowerFunction_root_iff hs.topLevel]
  refine and_congr_right fun _ => ?_
  constructor
  · rintro ⟨a', u', n, hb, hc, rfl⟩
    obtain ⟨rfl, rfl⟩ := hu.unique hb
    obtain ⟨formals, w, c, z, hw, hz, hlift⟩ := (hiff n t).1 hc
    obtain ⟨hf, hd, -⟩ := hs.captures_nothing hx hu ho hw hz
    obtain ⟨-, rfl, rfl⟩ := (lift_nil_iff hf).1 hlift
    rw [hd]
    exact ⟨formals, w, c, z, hw, hz, rfl, rfl⟩
  · rintro ⟨formals, w, c, z, hw, hz, rfl, rfl⟩
    obtain ⟨hf, hd, hc⟩ := hs.captures_nothing hx hu ho hw hz
    exact ⟨a, u, .ref loc (.global f), hu, (hiff _ _).2 ⟨formals, w, c, z, hw, hz,
      (lift_nil_iff hf).2 ⟨by rw [hd]; exact hc, by rw [hd], by rw [hd]⟩⟩, rfl⟩

theorem lowerEntry_iff {m : Module} {entry : Symbol} :
    Yields (Lower.lowerEntry env m) s entry t ↔ ∃ sp f ps b ds items,
      m.body = [.functionDef sp f ps b ds] ∧ entry = .global f ∧
      Yields (Lower.lowerFunction env (env.locate sp) f ps ds true (Lower.lowerBlock env b)) s items t := by
  unfold Lower.lowerEntry
  split
  · rename_i st hm
    split
    · rename_i sp f ps b ds
      simp only [Yields.bind_iff, Yields.pure_iff, Lower.lowerStmt, Stmt.span]
      constructor
      · rintro ⟨items, _, h, rfl, rfl⟩
        exact ⟨sp, f, ps, b, ds, items, hm, rfl, h⟩
      · rintro ⟨sp', f', ps', b', ds', items, hm', rfl, h⟩
        rw [hm] at hm'
        cases hm'
        exact ⟨items, t, h, rfl, rfl⟩
    · rename_i hne
      constructor
      · intro h; simp at h
      · rintro ⟨sp, f, ps, b, ds, items, hm', -, -⟩
        rw [hm] at hm'
        cases hm'
        exact absurd rfl (hne _ _ _ _ _)
  · rename_i hne
    constructor
    · intro h; simp at h
    · rintro ⟨sp, f, ps, b, ds, items, hm', -, -⟩
      exact absurd hm' (hne _)

/-- An entry is lowered when its module is accepted. -/
theorem lowerEntry_succeeds (hx : env.expansions = []) (hs : Root s) (m : Module) :
    Succeeds (Lower.lowerEntry env m) s ↔ m.accepts blockAssigns = true := by
  unfold Succeeds
  simp only [lowerEntry_iff]
  unfold Module.accepts
  split
  · rename_i sp f ps b ds hm
    obtain ⟨a, u, v, hu, ho, hvis, -, -, hiff⟩ := entry_iff hx hs f ps ds b (env.locate sp)
    have hv := ho.valid hu
    obtain ⟨formals, w, hw⟩ := bindFreshAll_ok hv ps.names
    have ew := bindFreshAll_effect hv hw
    have hstart := ho.starts hu _ (ownName_isSome (some f) (.global f)) ew
    have hwithin : Within none (ps.names ++ [f]) w :=
      { valid := ew.valid
        topLevel := hstart.topLevel
        returnError := hstart.returnError
        hasReturned := hstart.hasReturned
        visible := fun x => by rw [hstart.visible, hvis]; simp }
    have hbody := functionBody_succeeds hx (env.locate sp)
      (fun st (_ : st ∈ b) => lowerStmt_succeeds hx st) hwithin
    simp only [Bool.and_eq_true, and_assoc]
    rw [← hbody]
    constructor
    · rintro ⟨entry, t, sp', f', ps', b', ds', items, hm', -, h⟩
      rw [hm] at hm'
      cases hm'
      obtain ⟨hps, formals', w', c, z, hw', hz, -⟩ := (hiff items t).1 h
      obtain ⟨rfl, rfl⟩ := hw.unique hw'
      exact ⟨hps, c, z, hz⟩
    · rintro ⟨hps, c, z, hz⟩
      exact ⟨_, _, sp, f, ps, b, ds, _, hm, rfl,
        (hiff _ _).2 ⟨hps, formals, w, c, z, hw, hz, rfl, rfl⟩⟩
  · rename_i hne
    simp only [Bool.false_eq_true, iff_false]
    rintro ⟨entry, t, sp, f, ps, b, ds, items, hm, -⟩
    exact hne _ _ _ _ _ hm

end Entries

/-- Lowering accepts exactly the modules that the check of their trees accepts: no accepted module
fails in any other way. -/
theorem lowerModule_succeeds {opts : Options} (ht : opts.table = .empty) (hx : opts.expansions = [])
    (m : Module) (source : Source) (log : String) :
    (∃ entry, (lowerModule m source opts log).result = .ok entry) ↔
      m.accepts blockAssigns = true := by
  rw [← lowerEntry_succeeds (show Env.expansions ⟨source, opts.expansions, opts.verbose⟩ = [] from hx)
    (rootState_root log ht) m]
  constructor
  · rintro ⟨entry, h⟩
    obtain ⟨t, hy, -⟩ := lowerModule_iff.1 ⟨h, rfl⟩
    exact ⟨entry, t, hy⟩
  · rintro ⟨entry, t, hy⟩
    exact ⟨entry, (lowerModule_iff.2 ⟨t, hy, rfl⟩).1⟩

end Hoist.Lowering
