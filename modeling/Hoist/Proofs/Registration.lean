import Hoist.Registry
import Hoist.Proofs.Flat.SymbolTexts
import Hoist.Proofs.Lowering.Holdings
import Hoist.Proofs.Surface.PlacedTrees

/-!
# What a registration binds

All lambdas of one table have names of their own: a generated symbol ends in its number behind a hash,
and a plain name has no hash. So a unit that is registered binds each lambda of its table, overwrites
nothing else, and yields what its function is bound to; a unit that fails leaves the namespaces alone.
-/

namespace Hoist

open Hoist.Flat (Symbol Node Lambda Table Source Location)
open Hoist.Surface (Module Expr Params)
open Hoist.Lowering

namespace Lowering

variable {env : Env} {s t : State} {m : Module} {source : Source} {opts : Options} {entry : Symbol}

/-- A function is defined under the symbol that it was given, whatever its table held before. -/
theorem lowerClosure_defines {code : Lower Node} (hcode : TameInside code) {params : Params Expr}
    {loc : Option Location} {name : Option String} {ref : Symbol} {n : Node}
    (h : Yields (Lower.lowerClosure env params code loc name (some ref)) s n t) :
    ∃ l ∈ t.table.lambdas, l.ref = ref := by
  simp only [Lower.lowerClosure, Yields.bind_iff, within_iff, Yields.pure_iff] at h
  obtain ⟨child, u, hc, ⟨⟨formals, c⟩, inner⟩, _, ⟨_, ⟨_, v, hf, _, w, hbody, he, rfl⟩, rfl, rfl⟩,
    hlift⟩ := h
  have hblank := closureBody_blank hc
  have hv := (hf.after ▸ bindFreshAll_tame _ _ : Leaves _ v).body
  have hw := (hbody.after ▸ hcode v (hv.topLevel.trans hblank.topLevel) : Leaves v w).body
  obtain ⟨captured, z, -, -, -, rfl⟩ := lift_iff.1 hlift
  refine ⟨_, List.mem_append_right _ (List.mem_singleton_self _), ?_⟩
  exact hw.dest.trans (hv.dest.trans hblank.dest)

theorem lowerEntry_defines (htop : s.body.topLevel = true)
    (h : Yields (Lower.lowerEntry env m) s entry t) :
    ∃ f ∈ entryName? m, entry = .global f ∧ ∃ l ∈ t.table.lambdas, l.ref = .global f := by
  obtain ⟨sp, f, ps, b, ds, items, hm, rfl, hf⟩ := lowerEntry_iff.1 h
  obtain ⟨-, a, u, n, -, hc, -⟩ := (lowerFunction_root_iff htop).1 hf
  exact ⟨f, by simp [entryName?, hm], rfl,
    lowerClosure_defines (functionBody_tame (lowerBlock_tame env b) _) hc⟩

/-- A unit that is lowered has its function in its table, under the name it has in the text. -/
theorem lowerSource_defines (h : (lowerSource source opts).result = .ok entry) :
    ∃ m f, Surface.readModule source.text = .ok m ∧ f ∈ entryName? m ∧ entry = .global f ∧
      ∃ l ∈ (lowerSource source opts).table.lambdas, l.ref = .global f := by
  unfold lowerSource at h ⊢
  cases hm : Surface.readModule source.text with
  | error fault => simp [hm] at h
  | ok m =>
    simp only [hm] at h ⊢
    obtain ⟨t, hy, htable⟩ := lowerModule_iff.1 ⟨h, rfl⟩
    obtain ⟨f, hf, rfl, hdefined⟩ := lowerEntry_defines rfl hy
    exact ⟨m, f, rfl, hf, rfl, htable ▸ hdefined⟩

/-- A name that is read from a text has no hash. -/
theorem hash_not_mem_entryName {text : List Char} {f : String}
    (h : Surface.readModule text = .ok m) (hf : f ∈ entryName? m) : '#' ∉ f.toList := by
  obtain ⟨-, hbody⟩ := (Surface.readModule_settles text).ok m h
  unfold entryName? at hf
  split at hf
  · rename_i sp g ps b ds hm
    cases hf
    cases hbody _ (by rw [hm]; exact List.mem_singleton_self _) with
    | functionDef _ hname _ => exact fun hmem => absurd (hname _ hmem) (by decide)
    | foreign _ hforeign => cases hforeign
  · cases hf

end Lowering

section Names

/-- Lambdas that are told apart by their symbols, the plain ones of which have names without a hash. -/
structure Nameable (ls : List Lambda) : Prop where
  unlike : Unlike ls
  plain : ∀ l ∈ ls, l.ref.isGenerated = false → ∃ f : String, '#' ∉ f.toList ∧ l.ref = .global f

variable {a b : Symbol} {l m : Lambda} {ls : List Lambda} {opts : Options}

theorem Nameable.nil : Nameable [] where
  unlike := .nil
  plain l hl := by cases hl

/-- However a unit ends, the lambdas in its table stay nameable, whatever supplies it was given. -/
theorem Nameable.afterUnit (h : Nameable opts.table.lambdas) (hx : opts.expansions = [])
    (source : Source) : Nameable (lowerSource source opts).table.lambdas := by
  obtain ⟨L, S, hc⟩ := lowerSource_contributes opts hx source
  refine ⟨hc.unlike h.unlike, fun l hl hg => ?_⟩
  rw [hc.lambdas, List.mem_append] at hl
  rcases hl with hl | hl
  · exact h.plain l hl hg
  · obtain ⟨m, f, hm, hf, href⟩ := hc.plain l hl hg
    exact ⟨f, hash_not_mem_entryName hm hf, href⟩

/-- No two lambdas of one table compete for a name. -/
theorem Nameable.boundName_inj (h : Nameable ls) (hl : l ∈ ls) (hm : m ∈ ls)
    (hname : boundName l = boundName m) : l.ref.same m.ref = true := by
  have hhash : ∀ {x}, x.ref.isGenerated = true → '#' ∈ (boundName x).toList := fun {x} hx => by
    rw [boundName, if_pos hx, toList_write hx]
    simp
  have hplain : ∀ {x}, x ∈ ls → x.ref.isGenerated = false →
      '#' ∉ (boundName x).toList ∧ x.ref = .global (boundName x) := fun {x} hx hg => by
    obtain ⟨f, hf, href⟩ := h.plain x hx hg
    have hbound : boundName x = f := by
      rw [boundName, hg, href]
      rfl
    rw [hbound]
    exact ⟨hf, href⟩
  cases hgl : l.ref.isGenerated with
  | true =>
    cases hgm : m.ref.isGenerated with
    | true => exact same_of_write hgl hgm (by simpa [boundName, hgl, hgm] using hname)
    | false => exact absurd (hname ▸ hhash hgl) (hplain hm hgm).1
  | false =>
    cases hgm : m.ref.isGenerated with
    | true => exact absurd (hname ▸ hhash hgm) (hplain hl hgl).1
    | false =>
      rw [(hplain hl hgl).2, (hplain hm hgm).2, hname]
      exact Symbol.same_self _

theorem Nameable.global_of_same (h : Nameable ls) (hl : l ∈ ls) {f : String}
    (hsame : l.ref.same (.global f) = true) : l.ref = .global f := by
  cases hg : l.ref.isGenerated with
  | true =>
    rw [Symbol.same_comm, Symbol.not_same_of_plain hg rfl] at hsame
    cases hsame
  | false =>
    obtain ⟨g, -, href⟩ := h.plain l hl hg
    rw [href] at hsame ⊢
    simpa [Symbol.same, Symbol.isGenerated, Symbol.global] using hsame

theorem Nameable.names_nodup (h : Nameable ls) : (ls.map boundName).Nodup :=
  List.pairwise_map.2 <| List.Pairwise.imp_of_mem (fun hl hm hunlike hname => by
    rw [h.boundName_inj hl hm hname] at hunlike
    cases hunlike) h.unlike

end Names

section Bindings

variable {ns : Namespace} {x : Sentinel} {xs : List Sentinel} {s : Session}

theorem lookup_filter_ne (bs : List (String × Sentinel)) (name n : String) :
    (bs.filter (·.1 != name)).lookup n = if n = name then none else bs.lookup n := by
  induction bs with
  | nil => simp
  | cons b bs ih =>
    obtain ⟨k, x⟩ := b
    by_cases hk : k = name
    · rw [List.filter_cons_of_neg (by simp [hk]), ih, List.lookup_cons]
      by_cases hn : n = name
      · rw [if_pos hn, if_pos hn]
      · rw [if_neg hn, if_neg hn, beq_false_of_ne fun he => hn (he.trans hk)]
    · rw [List.filter_cons_of_pos (by simpa using hk), List.lookup_cons, List.lookup_cons, ih]
      by_cases hn : n = name
      · rw [if_pos hn, if_pos hn, beq_false_of_ne fun he => hk (he.symm.trans hn)]
      · rw [if_neg hn, if_neg hn]

/-- A name is bound to what it was bound to last. -/
theorem find?_bind (ns : Namespace) (name n : String) (x : Sentinel) :
    (ns.bind name x).find? n = if n = name then some x else ns.find? n := by
  unfold Namespace.bind Namespace.find?
  rw [List.lookup_append, lookup_filter_ne, List.lookup_cons]
  by_cases hn : n = name
  · simp [hn]
  · simp [hn, beq_false_of_ne hn]

theorem find?_bindAll (ns : Namespace) (n : String) :
    (ns.bindAll xs).find? n = (xs.reverse.find? (·.name == n)).or (ns.find? n) := by
  induction xs generalizing ns with
  | nil => rfl
  | cons x xs ih =>
    change ((ns.bind x.name x).bindAll xs).find? n = _
    rw [ih, find?_bind, List.reverse_cons, List.find?_append, List.find?_singleton]
    by_cases hn : n = x.name
    · simp [hn]
    · simp [hn, Ne.symm hn]

theorem bindAll_name : (ns.bindAll xs).name = ns.name := by
  induction xs generalizing ns with
  | nil => rfl
  | cons x xs ih => exact ih

/-- Sentinels whose names differ are all bound. -/
theorem find?_bindAll_of_mem (h : (xs.map (·.name)).Nodup) (hx : x ∈ xs) :
    (ns.bindAll xs).find? x.name = some x := by
  rw [find?_bindAll]
  cases hfind : xs.reverse.find? (·.name == x.name) with
  | none => exact absurd (List.find?_eq_none.1 hfind x (List.mem_reverse.2 hx)) (by simp)
  | some y =>
    have hname : y.name = x.name := by simpa using List.find?_some hfind
    have hy := List.mem_reverse.1 (List.mem_of_find?_eq_some hfind)
    rw [List.inj_on_of_nodup_map h hy hx hname]
    rfl

/-- What no sentinel is called is bound as before. -/
theorem find?_bindAll_of_not_mem {n : String} (h : n ∉ xs.map (·.name)) :
    (ns.bindAll xs).find? n = ns.find? n := by
  have hnone : xs.reverse.find? (·.name == n) = none := List.find?_eq_none.2 fun x hx => by
    rw [beq_iff_eq]
    rintro rfl
    exact h (List.mem_map_of_mem (List.mem_reverse.1 hx))
  rw [find?_bindAll, hnone]
  rfl

theorem namespaceOf_name (s : Session) (name : String) : (s.namespaceOf name).name = name := by
  unfold Session.namespaceOf
  cases h : s.namespaces.find? (·.name == name) with
  | none => rfl
  | some ns => simpa using List.find?_some h

theorem namespaceOf_setNamespace (s : Session) (ns : Namespace) (name : String) :
    (s.setNamespace ns).namespaceOf name = if name = ns.name then ns else s.namespaceOf name := by
  unfold Session.setNamespace Session.namespaceOf
  have hfilter : (s.namespaces.filter (·.name != ns.name)).find? (·.name == name) =
      if name = ns.name then none else s.namespaces.find? (·.name == name) := by
    rw [List.find?_filter]
    split
    · exact List.find?_eq_none.2 fun m _ => by simp_all
    · refine congrArg (List.find? · s.namespaces) (funext fun m => ?_)
      by_cases hm : m.name = name
      · simp_all
      · simp [hm]
  rw [List.find?_append, hfilter, List.find?_singleton]
  by_cases hn : name = ns.name
  · simp [hn]
  · simp [hn, Ne.symm hn]

end Bindings

section Sentinels

variable {first number : Nat} {origin : String} {ls : List Lambda} {x : Sentinel}

theorem sentinelsFor_fns :
    (Session.sentinelsFor first number origin ls).map (·.fn) = ls := by
  induction ls generalizing first with
  | nil => rfl
  | cons l ls ih => simp [Session.sentinelsFor, ih]

theorem sentinelsFor_spec (h : x ∈ Session.sentinelsFor first number origin ls) :
    x.name = boundName x.fn ∧ x.table = number ∧ x.origin = origin := by
  induction ls generalizing first with
  | nil => cases h
  | cons l ls ih =>
    rcases List.mem_cons.1 h with rfl | h
    · exact ⟨rfl, rfl, rfl⟩
    · exact ih h

theorem sentinelsFor_names :
    (Session.sentinelsFor first number origin ls).map (·.name) = ls.map boundName := by
  conv_rhs => rw [← @sentinelsFor_fns first number origin ls]
  rw [List.map_map]
  exact List.map_congr_left fun x hx => (sentinelsFor_spec hx).1

end Sentinels

section Places

variable {α : Type} {xs : List α} {i : Nat} {x y : α}

theorem mem_place (h : y ∈ place xs i x) : y = x ∨ y ∈ xs := by
  rcases List.mem_append.1 h with h | h
  · exact .inr (List.mem_of_mem_take h)
  · exact (List.mem_cons.1 h).imp_right List.mem_of_mem_drop

theorem getElem?_place (xs : List α) (i : Nat) (x : α) :
    (place xs i x)[min i xs.length]? = some x := by
  unfold place
  rw [List.getElem?_append_right (by simp)]
  simp

end Places

/-- A call that registers a source in a namespace, with some supplies and no expansions. -/
structure Call where
  origin : String
  source : Source
  supplies : Supplies

namespace Session

/-- A session that starts with some namespaces. -/
def start (sharesSymbols sharesTable : Bool) (spaces : List Namespace) : Session :=
  { sharesSymbols := sharesSymbols, sharesTable := sharesTable, namespaces := spaces }

/-- What a call yields, and the session after it. -/
def call (s : Session) (c : Call) : Except UnitError Sentinel × Session :=
  s.registerWith c.supplies c.origin c.source []

/-- The unit of a call. -/
def unitOf (s : Session) (c : Call) : Outcome := s.unit c.supplies c.source []

/-- What a session registers with its own generators and tables is registered by a call. -/
theorem register_eq_call (s : Session) (origin : String) (source : Source) :
    s.register origin source [] = s.call ⟨origin, source, s.supplies⟩ := rfl

/-- The session after some calls, whatever became of them. -/
def calls (s : Session) (cs : List Call) : Session := cs.foldl (fun s c => (s.call c).2) s

/-- In the session `t` after it, a call has bound the lambdas of a table, and nothing else, and has
yielded `x`. -/
structure BindsTable (s t : Session) (c : Call) (T : Table) (x : Sentinel) : Prop where
  table : t.table x.table = T
  /-- Each lambda of the table is bound to a sentinel that carries it. -/
  each : ∀ l ∈ T.lambdas, ∃ y, (t.namespaceOf c.origin).find? (boundName l) = some y ∧
    y.fn = l ∧ y.table = x.table ∧ y.origin = c.origin
  names : (T.lambdas.map boundName).Nodup
  /-- Any other name is bound to what it was bound to. -/
  kept : ∀ n, n ∉ T.lambdas.map boundName →
    (t.namespaceOf c.origin).find? n = (s.namespaceOf c.origin).find? n
  others : ∀ origin, origin ≠ c.origin → t.namespaceOf origin = s.namespaceOf origin
  /-- The function of the unit is bound to what the call yields. -/
  yields : ∃ m f, Surface.readModule c.source.text = .ok m ∧ f ∈ entryName? m ∧
    x.fn.ref = .global f ∧ (t.namespaceOf c.origin).find? f = some x

/-- What a call does: it fails with its unit and binds nothing, or binds the table of its unit. -/
inductive Registered (s : Session) (c : Call) : Except UnitError Sentinel × Session → Prop
  | failed {e : UnitError} {t : Session} (unit : (s.unitOf c).result = .error e)
      (kept : t.namespaces = s.namespaces) : Registered s c (.error e, t)
  | bound {x : Sentinel} {t : Session} (binds : BindsTable s t c (s.unitOf c).table x) :
      Registered s c (.ok x, t)

/-- The lambdas of every table are told apart by their names. -/
def Bindable (s : Session) : Prop := ∀ T ∈ s.tables, Nameable T.lambdas

variable {s : Session} {c : Call}

theorem Bindable.start (sharesSymbols sharesTable : Bool) (spaces : List Namespace) :
    (start sharesSymbols sharesTable spaces).Bindable := fun T hT => by
  rw [List.mem_singleton.1 hT]
  exact .nil

theorem Bindable.table (h : s.Bindable) (i : Nat) : Nameable (s.table i).lambdas := by
  unfold Session.table
  cases hi : s.tables[i]? with
  | none => exact .nil
  | some T => exact h T (List.mem_of_getElem? hi)

theorem Bindable.unitOf (h : s.Bindable) (c : Call) : Nameable (s.unitOf c).table.lambdas :=
  .afterUnit (h.table c.supplies.table) rfl c.source

/-- The session once the unit of a call was lowered, or was not. -/
def lowered (s : Session) (c : Call) : Session := (s.lowerWith c.supplies c.source []).2

/-- The sentinels that a call makes if its unit is lowered. -/
def made (s : Session) (c : Call) : List Sentinel :=
  sentinelsFor s.sentinels (min c.supplies.table s.tables.length) c.origin (s.unitOf c).table.lambdas

/-- The session with these sentinels bound. -/
def bound (s : Session) (c : Call) : Session :=
  { (s.lowered c).setNamespace ((s.namespaceOf c.origin).bindAll (s.made c)) with
    sentinels := s.sentinels + (s.made c).length }

theorem lowerWith_eq : s.lowerWith c.supplies c.source [] =
    ((s.unitOf c).result.map (·, min c.supplies.table s.tables.length), s.lowered c) := rfl

theorem lowered_table :
    (s.lowered c).table (min c.supplies.table s.tables.length) = (s.unitOf c).table := by
  change (place s.tables c.supplies.table (s.unitOf c).table)[_]?.getD _ = _
  rw [getElem?_place]
  rfl

theorem namespaceOf_bound (name : String) : (s.bound c).namespaceOf name =
    if name = c.origin then (s.namespaceOf c.origin).bindAll (s.made c) else s.namespaceOf name := by
  change ((s.lowered c).setNamespace _).namespaceOf name = _
  rw [namespaceOf_setNamespace, bindAll_name, namespaceOf_name]
  rfl

/-- A call whose unit fails only keeps what is left of its generator and its table. -/
theorem call_of_error {e : UnitError} (h : (s.unitOf c).result = .error e) :
    s.call c = (.error e, s.lowered c) := by
  unfold call registerWith
  rw [lowerWith_eq, h]
  rfl

/-- A call whose unit is lowered binds the sentinels of its table and looks for the one of its function
among them. -/
theorem call_of_ok {entry : Symbol} {x : Sentinel} (h : (s.unitOf c).result = .ok entry)
    (hx : (s.made c).reverse.find? (·.fn.ref.same entry) = some x) :
    s.call c = (.ok x, s.bound c) := by
  unfold call registerWith
  rw [lowerWith_eq, h]
  simp only [Except.map, lowered_table]
  rw [show sentinelsFor (s.lowered c).sentinels _ c.origin _ = s.made c from rfl, hx]
  rfl

theorem exists_made {l : Lambda} (hl : l ∈ (s.unitOf c).table.lambdas) :
    ∃ x ∈ s.made c, x.fn = l := by
  have hfns : (s.made c).map (·.fn) = (s.unitOf c).table.lambdas := sentinelsFor_fns
  rw [← hfns] at hl
  exact List.mem_map.1 hl

theorem made_spec {x : Sentinel} (hx : x ∈ s.made c) :
    x.fn ∈ (s.unitOf c).table.lambdas ∧ x.name = boundName x.fn ∧
      x.table = min c.supplies.table s.tables.length ∧ x.origin = c.origin := by
  refine ⟨?_, sentinelsFor_spec hx⟩
  have hfn := List.mem_map_of_mem (f := (·.fn)) hx
  rwa [made, sentinelsFor_fns] at hfn

/-- A unit that is lowered is always found in its table: a call fails with its unit only. -/
theorem Bindable.call_cases (h : s.Bindable) (c : Call) :
    (∃ e, (s.unitOf c).result = .error e ∧ s.call c = (.error e, s.lowered c)) ∨
      ∃ m f x, Surface.readModule c.source.text = .ok m ∧ f ∈ entryName? m ∧ x ∈ s.made c ∧
        x.fn.ref = .global f ∧ s.call c = (.ok x, s.bound c) := by
  cases hresult : (s.unitOf c).result with
  | error e => exact .inl ⟨e, rfl, call_of_error hresult⟩
  | ok entry =>
    obtain ⟨m, f, hm, hf, rfl, l, hl, href⟩ := lowerSource_defines hresult
    obtain ⟨y, hy, rfl⟩ := exists_made hl
    cases hfind : (s.made c).reverse.find? (·.fn.ref.same (.global f)) with
    | none =>
      have := List.find?_eq_none.1 hfind y (List.mem_reverse.2 hy)
      rw [href, Symbol.same_self] at this
      exact absurd rfl this
    | some x =>
      have hx := List.mem_reverse.1 (List.mem_of_find?_eq_some hfind)
      have hsame : x.fn.ref.same (.global f) = true := by simpa using List.find?_some hfind
      exact .inr ⟨m, f, x, hm, hf, hx, (h.unitOf c).global_of_same (made_spec hx).1 hsame,
        call_of_ok hresult hfind⟩

theorem Bindable.call (h : s.Bindable) (c : Call) : (s.call c).2.Bindable := by
  have hplace : ∀ T ∈ place s.tables c.supplies.table (s.unitOf c).table,
      Nameable T.lambdas := fun T hT => by
    rcases mem_place hT with rfl | hT
    · exact h.unitOf c
    · exact h T hT
  obtain ⟨e, -, hcall⟩ | ⟨m, f, x, -, -, -, -, hcall⟩ := h.call_cases c
  · rw [hcall]
    exact hplace
  · rw [hcall]
    exact hplace

theorem Bindable.calls (h : s.Bindable) (cs : List Call) : (s.calls cs).Bindable := by
  induction cs generalizing s with
  | nil => exact h
  | cons c cs ih => exact ih (h.call c)

/-- One call, in a session whose tables can be bound. -/
theorem Bindable.registered (h : s.Bindable) (c : Call) : Registered s c (s.call c) := by
  obtain ⟨e, hresult, hcall⟩ | ⟨m, f, x, hm, hf, hx, href, hcall⟩ := h.call_cases c
  · rw [hcall]
    exact .failed hresult rfl
  · rw [hcall]
    have hnodup := (h.unitOf c).names_nodup
    have hnames : (s.made c).map (·.name) = (s.unitOf c).table.lambdas.map boundName :=
      sentinelsFor_names
    have hhere : (s.bound c).namespaceOf c.origin = (s.namespaceOf c.origin).bindAll (s.made c) := by
      rw [namespaceOf_bound, if_pos rfl]
    have hfound : ∀ y ∈ s.made c,
        ((s.bound c).namespaceOf c.origin).find? (boundName y.fn) = some y := fun y hy => by
      rw [hhere, ← (made_spec hy).2.1]
      exact find?_bindAll_of_mem (hnames ▸ hnodup) hy
    obtain ⟨-, -, htable, -⟩ := made_spec hx
    refine .bound ⟨?_, fun l hl => ?_, hnodup, fun n hn => ?_, fun origin ho => ?_,
      ⟨m, f, hm, hf, href, ?_⟩⟩
    · rw [htable]
      exact lowered_table
    · obtain ⟨y, hy, rfl⟩ := exists_made hl
      obtain ⟨-, -, hytable, hyorigin⟩ := made_spec hy
      exact ⟨y, hfound y hy, rfl, hytable.trans htable.symm, hyorigin⟩
    · rw [hhere, find?_bindAll_of_not_mem (hnames ▸ hn)]
    · rw [namespaceOf_bound, if_neg ho]
    · have hbound : boundName x.fn = f := by
        rw [boundName, href]
        rfl
      rw [← hbound]
      exact hfound x hx

/-- Whatever calls came before it, with whichever generators and tables, and whatever became of them:
a call binds the lambdas of its table, each to a name of its own, or it binds nothing. -/
theorem calls_registered (sharesSymbols sharesTable : Bool) (spaces : List Namespace)
    (cs : List Call) (c : Call) :
    Registered ((start sharesSymbols sharesTable spaces).calls cs) c
      (((start sharesSymbols sharesTable spaces).calls cs).call c) :=
  ((Bindable.start sharesSymbols sharesTable spaces).calls cs).registered c

end Session

end Hoist
