import Hoist.Proofs.Lowering.Reached
import Hoist.Proofs.Lowering.Statements

/-!
# Dry runs of loops

A dry run leaves no trace in the body it is taken from, and finds the same names when it is taken again.
The real pass over the loop meets just these names: the parameters of its frame are the names taken, it
assigns the names given in their order, and nothing is free in it, so that both lambdas of the loop are
closed over their parameters.
-/

namespace Hoist.Lowering

open Hoist.Flat (Symbol Node Location Table Lambda)
open Hoist.Surface (Expr Stmt blockReads blockAssigns blockReturns blockDeclares blockAccepts)

section Visible

/-- What a frame sees, some frame binds. -/
theorem Scopes.exists_own {s : Scopes} {frame : Nat} {x : String} {a : Symbol}
    (h : s.sees frame x = some a) : ∃ i, s.own i x = some a := by
  induction frame using Nat.strongRecOn with
  | ind frame ih =>
    rw [Scopes.sees_eq] at h
    cases ho : s.own frame x with
    | some b =>
      rw [ho, Option.some_or] at h
      exact ⟨frame, by rw [ho, h]⟩
    | none =>
      rw [ho, Option.none_or] at h
      unfold Scopes.outside at h
      cases hp : s.around frame with
      | none =>
        rw [hp] at h
        cases h
      | some p =>
        rw [hp] at h
        exact ih p (s.around_lt hp) h

/-- Of the finitely many names that frames bind, those that a body sees are declared in it. -/
theorem State.exists_declared (s : State) :
    ∃ declared : List String, ∀ x, s.visible x = true ↔ x ∈ declared := by
  refine ⟨(s.scopes.frames.flatMap fun f => f.bindings.map (·.1)).filter s.visible, fun x => ?_⟩
  rw [List.mem_filter, List.mem_flatMap]
  constructor
  · intro hx
    refine ⟨?_, hx⟩
    obtain ⟨a, ha⟩ := Option.isSome_iff_exists.1 hx
    obtain ⟨i, hi⟩ := Scopes.exists_own ha
    unfold Scopes.own at hi
    cases hf : s.scopes.frames[i]? with
    | none =>
      rw [hf] at hi
      cases hi
    | some f =>
      rw [hf, Option.bind_some] at hi
      obtain ⟨l₁, l₂, hl, -⟩ := List.lookup_eq_some_iff.1 hi
      refine ⟨f, List.mem_of_getElem? hf, ?_⟩
      rw [hl]
      simp
  · exact fun hx => hx.2

end Visible

section Untouched

variable {s t : State}

theorem Untouched.own (h : Untouched s t) (hs : Valid s) (x : String) : t.own x = s.own x := by
  simp [State.own, Scopes.own, h.body, h.frames _ hs.frame_lt]

theorem Untouched.outer (h : Untouched s t) (hs : Valid s) (x : String) : t.outer x = s.outer x := by
  have hlt := hs.frame_lt
  unfold State.outer
  rw [h.body]
  refine Scopes.outside_congr ?_ (fun i hi => h.frames i (by omega)) x
  simp [Scopes.around, h.frames _ hlt]

theorem Untouched.visible (h : Untouched s t) (hs : Valid s) : t.visible = s.visible := by
  funext x
  unfold State.visible
  rw [State.sees_eq, State.sees_eq, h.own hs, h.outer hs]

/-- A state that is as good as untouched is as good as before. -/
theorem Untouched.valid (h : Untouched s t) (hs : Valid s) : Valid t where
  frame_lt := by
    rw [h.body]
    exact lt_of_lt_of_le hs.frame_lt h.size
  bound_le := h.bounds hs.bound_le
  refs_le l hl := le_trans (hs.refs_le l (h.table ▸ hl)) h.issued
  refs_ne := by rw [h.table]; exact hs.refs_ne
  free_le p hp := le_trans (hs.free_le p (h.body ▸ hp)) h.issued
  free_own hp p hm := by
    rw [h.own hs]
    exact hs.free_own (h.body ▸ hp) p (h.body ▸ hm)
  free_outer hp p hm := by
    rw [h.outer hs]
    exact hs.free_outer (h.body ▸ hp) p (h.body ▸ hm)
  free_nodup := by
    unfold State.freeNames
    rw [h.body]
    exact hs.free_nodup
  free_ne hp := by
    rw [h.body] at hp ⊢
    exact hs.free_ne hp
  free_refs hp p hm := by
    rw [h.body] at hp hm
    rw [h.table]
    exact hs.free_refs hp p hm
  assigned_nodup := by rw [h.body]; exact hs.assigned_nodup
  assigned_own x hx := by
    rw [h.own hs]
    exact hs.assigned_own x (h.body ▸ hx)

end Untouched

section Exploring

variable {env : Env} {s t : State} {c : Expr} {b : List Stmt} {vars : LoopVariables}

/-- The dry run of a loop. -/
def Lower.explore (env : Env) (c : Expr) (b : List Stmt) : Lower LoopVariables :=
  dryRun (lowerExpr env c) (lowerBlock env b)

theorem explore_untouched (env : Env) (c : Expr) (b : List Stmt) (s : State) :
    Untouched s ((Lower.explore env c b).after s) :=
  dryRun_untouched (lowerExpr_tame env c).inside (lowerBlock_tame env b) s

/-- Whether a dry run succeeds depends on the names that are visible, and on nothing else. -/
theorem explore_succeeds (hx : env.expansions = []) (hs : Valid s) {declared : List String}
    (hd : ∀ x, s.visible x = true ↔ x ∈ declared) :
    Succeeds (Lower.explore env c b) s ↔
      c.isSupported = true ∧ blockAccepts blockAssigns false declared b = true := by
  obtain ⟨u, hu, hiff⟩ := dryRun_starts hs (Lower.lowerExpr env c) (Lower.lowerBlock env b)
  have hw : Within (some returnInLoop) declared u :=
    { valid := hu.valid
      topLevel := hu.topLevel
      returnError := hu.returnError
      hasReturned := hu.hasReturned
      visible := fun x => by rw [hu.visible, ← hd]; simp }
  have hsteps := Succeeds.bind_iff (x := Lower.lowerExpr env c) (s := u)
    (f := fun _ => Lower.lowerBlock env b)
    (P := blockAccepts blockAssigns false declared b = true) fun n v hn =>
      lowerBlock_succeeds hx (fun st _ => lowerStmt_succeeds hx st)
        (hw.effect (lowerExpr_reads hx c hw.valid hn).toEffect)
  rw [← lowerExpr_succeeds hx c hu.valid, ← hsteps]
  refine hiff.trans ?_
  unfold Succeeds
  simp only [Yields.bind_iff]
  constructor
  · rintro ⟨n, v, items, w, hn, hi⟩
    exact ⟨items, w, n, v, hn, hi⟩
  · rintro ⟨items, w, n, v, hn, hi⟩
    exact ⟨n, v, items, w, hn, hi⟩

/-- A second dry run succeeds when the first one does, with the same variables. -/
theorem explore_again (hx : env.expansions = []) (hs : Valid s) :
    (Succeeds (Lower.explore env c b) ((Lower.explore env c b).after s) ↔
      Succeeds (Lower.explore env c b) s) ∧
    ∀ {vars vars' t t'}, Yields (Lower.explore env c b) s vars t →
      Yields (Lower.explore env c b) t vars' t' → vars' = vars := by
  have hu := explore_untouched env c b s
  obtain ⟨declared, hd⟩ := s.exists_declared
  refine ⟨?_, fun {vars vars' t t'} h h' => ?_⟩
  · rw [explore_succeeds hx hs hd, explore_succeeds hx (hu.valid hs) (hu.visible hs ▸ hd)]
  · rw [h.after] at hu
    have h₁ := dryRun_reads hs (lowerExpr_acts hx c) (lowerBlock_acts hx b) h
    have h₂ := dryRun_reads (hu.valid hs) (lowerExpr_acts hx c) (lowerBlock_acts hx b) h'
    rw [h₁.2, h₂.2, hu.visible hs]

end Exploring

section RealPass

variable {env : Env} {loc : Option Location} {s t : State} {c : Expr} {b : List Stmt}
  {items : List Item}

/-- The states of a loop that is lowered from one state to another: the dry run finds the variables,
their initial values are read, and the real pass goes through the inside of the loop in a child of its
own. -/
structure LoopPass (env : Env) (loc : Option Location) (c : Expr) (b : List Stmt) (s t : State) where
  vars : LoopVariables
  explored : State
  initial : List Node
  entered : State
  child : Body
  opened : State
  parts : Lower.LoopParts
  left : State
  explores : Yields (Lower.explore env c b) s vars explored
  reads : Yields (Lower.readNames loc vars.taken) explored initial entered
  opens : Yields (Lower.childBody (some (loopRef entered)) false (some returnInLoop))
    entered.issuing.issuing child opened
  inside : Yields (Lower.lowerInside (loopRef entered) vars (Lower.lowerExpr env c)
    (Lower.lowerBlock env b) loc) (opened.resume child) parts left
  defines : t.table.lambdas = left.table.lambdas ++
    [continueLambda entered parts loc, loopLambda entered parts loc]

/-- What the dry run foretold of the real pass. -/
structure LoopPass.Foretold (p : LoopPass env loc c b s t) : Prop where
  /-- The frame of the child binds exactly the names taken, each to its parameter. -/
  frame : ∃ formed, Yields (Lower.bindFreshAll p.vars.taken) (p.opened.resume p.child)
      p.parts.formals formed ∧ p.vars.taken.Nodup ∧
      ∀ x, formed.own x = (p.vars.taken.zip p.parts.formals).lookup x
  fresh : ∀ a ∈ p.parts.formals, s.issued < a.token
  assigned : p.left.body.assigned = p.vars.given
  free : p.left.body.free = []
  next_closed : (continueLambda p.entered p.parts loc).isClosed t.table = true
  loop_closed : (loopLambda p.entered p.parts loc).isClosed t.table = true

/-- The parameters of names that differ are found in whatever order. -/
theorem lookup_reverse_of_nodup {l : List (String × Symbol)} (h : (l.map (·.1)).Nodup) (x : String) :
    l.reverse.lookup x = l.lookup x := by
  induction l with
  | nil => rfl
  | cons p l ih =>
    obtain ⟨y, a⟩ := p
    rw [List.map_cons, List.nodup_cons] at h
    rw [List.reverse_cons, List.lookup_append, ih h.2]
    by_cases hx : x = y
    · subst hx
      have : l.lookup x = none := List.lookup_eq_none_iff.2 fun q hq => by
        have : q.1 ≠ x := fun e => h.1 (List.mem_map.2 ⟨q, hq, e⟩)
        simpa using Ne.symm this
      simp [this]
    · have : (x == y) = false := by simpa using hx
      simp [List.lookup_cons, this]

theorem lowerInside_assigned {u w : State} {ref : Symbol} {vars : LoopVariables}
    {parts : Lower.LoopParts} (hx : env.expansions = []) (hs : Valid s)
    (ho : Opens (fun _ => none) ref false (some returnInLoop) s u)
    (h : Yields (Lower.lowerInside ref vars (Lower.lowerExpr env c) (Lower.lowerBlock env b) loc) u
      parts w) : w.body.assigned = noteAll [] (blockAssigns b) := by
  obtain ⟨v, v', x, y, items, updated, hf, hc, htest, hi, hup, -⟩ := lowerInside_iff.1 h
  have hu := ho.valid hs
  have e₁ := bindFreshAll_effect hu hf
  obtain ⟨-, rfl⟩ := (currents_iff e₁.valid).1 hc
  have htop : v.body.topLevel = false := by rw [e₁.advances.body.topLevel, ho.body]
  have e₂ := lowerExpr_acts hx c e₁.valid htop htest
  have e₃ := lowerBlock_acts hx b e₂.valid (e₂.advances.body.topLevel.trans htop) hi
  have e₄ := readNames_reads e₃.valid hup
  rw [e₄.assigned, e₃.assigned, e₂.assigned, e₁.assigned, ho.body]
  rfl

/-- A loop that is lowered goes through a dry run and a real pass, which the dry run foretells. -/
theorem lowerLoop_foretold (hx : env.expansions = []) (hs : Valid s)
    (h : Yields (Lower.lowerLoop env loc (Lower.lowerExpr env c) (Lower.lowerBlock env b)) s items
      t) : ∃ p : LoopPass env loc c b s t, p.Foretold := by
  obtain ⟨p, hp⟩ := lowerLoop_runs hs (lowerExpr_acts hx c) (lowerBlock_acts hx b) h
  have hassign := assignAll_effect hp.defined.valid p.gives
  have htable : t.table.lambdas = p.left.table.lambdas ++
      [continueLambda p.entered p.parts loc, loopLambda p.entered p.parts loc] := by
    rw [assignAll_table p.gives]
    exact p.defined_lambdas
  -- Both lambdas were named before the child was opened, so the table behind the loop is final for it.
  have hle₁ := hp.entered.advances.issued
  have hle₂ : p.entered.issued + 2 ≤ p.opened.issued := p.opens.issued
  have hfinal : Final t.table p.opened p.left := by
    refine ⟨fun l hl => ?_, fun l hl hlt hle => ?_, hassign.valid.refs_ne⟩
    · rw [htable]
      exact List.mem_append_left _ hl
    · rw [htable] at hl
      rcases List.mem_append.1 hl with hl | hl
      · exact hl
      · simp only [List.mem_cons, List.not_mem_nil, or_false] at hl
        rcases hl with rfl | rfl
        · simp only [continueLambda, continueRef, Flat.derived] at hlt
          omega
        · simp only [loopLambda, loopRef, Flat.derived] at hlt
          omega
  obtain ⟨L, R, Δ, -, hturn⟩ := lowerInside_code (F := []) (B := []) hp.opening (lowerExpr_renders hx c)
    (lowerBlock_acts hx b) (lowerBlock_emits hx b)
    (by rw [hp.vars]; simp [loopVariables]; tauto) p.opens p.inside hp.free hfinal
  have hfound : ∀ m ∈ [nextMade p.entered p.parts loc, loopMade p.entered p.parts loc],
      t.table.find? m.lambda.ref = some m.lambda := fun m hm => by
    refine find_of_mem hassign.valid.refs_ne ?_
    rw [htable]
    exact List.mem_append_right _ (List.mem_map_of_mem (f := Made.lambda) hm)
  obtain ⟨hclosed₁, hclosed₂⟩ := (hturn.code hfound).closed
  obtain ⟨v, -, -, -, -, -, hf, -⟩ := lowerInside_iff.1 p.inside
  have binds := bindFreshAll_code hf
  have hnodup : p.vars.taken.Nodup := by
    rw [hp.vars]
    exact nodup_noteAll .nil
  refine ⟨⟨p.vars, p.explored, p.initial, p.entered, p.opened.body, p.opened.resume p.entered.body,
    p.parts, p.left, p.explores, p.takes, p.child, p.inside, htable⟩, ?_⟩
  exact
    { frame := by
        refine ⟨v, hf, hnodup, fun x => ?_⟩
        rw [binds.own, p.opens.own, Option.or_none]
        refine lookup_reverse_of_nodup ?_ x
        rw [List.map_fst_zip (Nat.le_of_eq binds.length)]
        exact hnodup
      fresh := fun a ha => by
        have := (binds.named a ha).1
        omega
      assigned := by
        change p.left.body.assigned = p.vars.given
        rw [lowerInside_assigned hx hp.opening p.opens p.inside, hp.vars]
        rfl
      free := hp.free
      next_closed := hclosed₁
      loop_closed := hclosed₂ }

/-- Wherever lowering comes to and whatever the loop, a dry run leaves no trace, whether it succeeds or
not, and has the same outcome when it is taken again. If the loop is accepted, the real pass over it is
as the dry run foretold. -/
theorem explored_loop (hx : env.expansions = []) (hs : Reached env s) (c : Expr) (b : List Stmt) :
    Untouched s ((Lower.explore env c b).after s) ∧
    (Succeeds (Lower.explore env c b) ((Lower.explore env c b).after s) ↔
      Succeeds (Lower.explore env c b) s) ∧
    (∀ vars vars' t t', Yields (Lower.explore env c b) s vars t →
      Yields (Lower.explore env c b) t vars' t' → vars' = vars) ∧
    ∀ sp orelse allow items t,
      Yields (Lower.lowerStmt env (.whileLoop sp c b orelse) allow) s items t →
        ∃ p : LoopPass env (env.locate sp) c b s t, p.Foretold := by
  have hvalid := hs.valid hx
  obtain ⟨hsucceeds, hvars⟩ := explore_again (c := c) (b := b) hx hvalid
  refine ⟨explore_untouched env c b s, hsucceeds, fun _ _ _ _ h h' => hvars h h',
    fun sp orelse allow items t h => ?_⟩
  simp only [Lower.lowerStmt] at h
  split at h
  · simp at h
  · exact lowerLoop_foretold hx hvalid h

end RealPass

section Counting

/-- The root of a unit once two names are bound. -/
def twoNames : State :=
  (Lower.bindFresh "y").after ((Lower.bindFresh "x").after (rootState {} ""))

theorem bindFresh_reached {env : Env} {s : State} (hx : env.expansions = []) (hs : Reached env s)
    (x : String) : Reached env ((Lower.bindFresh x).after s) := by
  obtain ⟨a, t, h⟩ := bindFresh_ok (hs.valid hx) x
  rw [h.after]
  exact .bind hs h

theorem twoNames_reached : Reached plainEnv twoNames :=
  bindFresh_reached rfl (bindFresh_reached rfl (.unit (by simp [Flat.Table.empty]) .nil) "x") "y"

/-- The test of a loop that counts one name up to another. -/
def below : Expr := .compare ⟨0, 0⟩ (.name ⟨0, 0⟩ "x") [(.lt, .name ⟨0, 0⟩ "y")]

/-- The body of that loop. -/
def increment : Stmt := .augAssign ⟨0, 0⟩ (.name ⟨0, 0⟩ "x") .add (.constant ⟨0, 0⟩ (.int 1))

/-- The loop takes both names and gives one of them, in the real pass too. -/
theorem countUp_explored : ∃ t,
    ∃ p : LoopPass plainEnv (plainEnv.locate ⟨0, 0⟩) below [increment] twoNames t,
    p.Foretold ∧ p.vars = ⟨["x", "y"], ["x"]⟩ := by
  have hloop : (match Lower.lowerStmt plainEnv (.whileLoop ⟨0, 0⟩ below [increment] []) false twoNames with
    | .ok _ _ => true
    | .error _ _ => false) = true := by decide +kernel
  have hvars : (match Lower.explore plainEnv below [increment] twoNames with
    | .ok vars _ => decide (vars = ⟨["x", "y"], ["x"]⟩)
    | .error _ _ => false) = true := by decide +kernel
  split at hloop
  · rename_i items t h
    obtain ⟨-, -, -, hforetold⟩ := explored_loop rfl twoNames_reached below [increment]
    obtain ⟨p, hp⟩ := hforetold ⟨0, 0⟩ [] false items t h
    have hexplores := p.explores
    unfold Yields at hexplores
    rw [hexplores] at hvars
    exact ⟨t, p, hp, of_decide_eq_true hvars⟩
  · cases hloop

end Counting

end Hoist.Lowering
