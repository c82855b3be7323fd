import Hoist.Proofs.Lowering.Lifting

/-!
# Effects of closures

The body of a closure starts with its parameters, its own name and what is seen from outside. For the
names around it, a closure is a read of what its body reads, but for its parameters and its own name.
-/

namespace Hoist.Lowering

open Hoist.Flat (Symbol Node Location Space Table Lambda)

namespace State

/-- Whether a body sees a name. -/
def visible (s : State) (x : String) : Bool := (s.sees x).isSome

theorem visible_of_isFree {s : State} {x : String} (h : s.isFree x = true) :
    s.visible x = true := by
  unfold visible
  rw [sees_eq]
  unfold isFree at h
  cases ho : s.own x <;> simp_all

end State

/-- What a step declared is visible behind it, and nothing else that was not before. -/
theorem Effect.visible {r d a : List String} {b : Bool} {s t : State} (hs : Valid s)
    (h : Effect r d a b s t) (x : String) :
    t.visible x = true ↔ s.visible x = true ∨ x ∈ d := by
  have hfree : s.body.pulling = true → x ∈ t.freeNames → s.visible x = true := by
    intro hp hx
    rw [h.free, mem_noteAll] at hx
    rcases hx with hx | hx
    · obtain ⟨p, hm, rfl⟩ := List.mem_map.1 hx
      have := hs.free_own hp p hm
      rw [State.visible, State.sees_eq]
      cases ho : s.own p.1 <;> simp_all
    · exact State.visible_of_isFree (List.mem_filter.1 hx).2
  have hown := h.own x
  unfold State.visible at hfree ⊢
  rw [State.sees_eq] at hfree ⊢
  rw [State.sees_eq, h.advances.outer hs]
  cases ho : t.own x with
  | none =>
    have hn : s.own x = none ∧ x ∉ d := by
      rw [ho] at hown
      constructor
      · cases hs' : s.own x <;> simp_all
      · intro hd; simp_all
    simp [hn.1, hn.2]
  | some c =>
    rw [ho] at hown
    simp only [Option.isSome_some, true_iff, Option.some_or] at hown ⊢
    rcases hown with hown | hown | ⟨hp, hm⟩
    · cases hs' : s.own x <;> simp_all
    · exact .inr hown
    · exact .inl (hfree hp hm)

/-- A state at the start of an inner body: besides the names given, it sees what is seen outside. -/
structure Starts (names : List String) (err : Option String) (s v : State) : Prop where
  valid : Valid v
  visible : ∀ x, v.visible x = true ↔ x ∈ names ∨ s.visible x = true
  topLevel : v.body.topLevel = false
  returnError : v.body.returnError = err
  hasReturned : v.body.hasReturned = false
  assigned : v.body.assigned = []

section Params

variable {s t : State} {xs : List String} {syms : List Symbol}

theorem bindFreshAll_effect (hs : Valid s) (h : Yields (Lower.bindFreshAll xs) s syms t) :
    Effect [] xs [] false s t := by
  induction xs generalizing s syms with
  | nil =>
    obtain ⟨-, rfl⟩ := Yields.pure_iff.1 h
    exact .nil hs
  | cons x xs ih =>
    simp only [Lower.bindFreshAll, Yields.bind_iff, Yields.pure_iff] at h
    obtain ⟨a, u, hx, as, v, hxs, -, rfl⟩ := h
    have h₁ := bindFresh_effect hs hx
    exact h₁.trans hs (ih h₁.valid hxs)

theorem bindFreshAll_ok (hs : Valid s) (xs : List String) :
    ∃ syms t, Yields (Lower.bindFreshAll xs) s syms t := by
  induction xs generalizing s with
  | nil => exact ⟨[], s, Yields.pure_iff.2 ⟨rfl, rfl⟩⟩
  | cons x xs ih =>
    obtain ⟨a, u, hx⟩ := bindFresh_ok hs x
    obtain ⟨as, t, hxs⟩ := ih (bindFresh_effect hs hx).valid
    refine ⟨a :: as, t, ?_⟩
    simp only [Lower.bindFreshAll, Yields.bind_iff, Yields.pure_iff]
    exact ⟨a, u, hx, as, t, hxs, rfl, rfl⟩

end Params

section Inner

variable {start : String → Option Symbol} {dest : Symbol} {pulling : Bool} {err : Option String}
  {s u v : State} {xs : List String}

/-- A body starts when its parameters are bound in it. -/
theorem Opens.starts (h : Opens start dest pulling err s u) (hs : Valid s) (own : List String)
    (hown : ∀ x, (start x).isSome ↔ x ∈ own) (hv : Effect [] xs [] false u v) :
    Starts (xs ++ own) err s v where
  valid := hv.valid
  visible x := by
    have hu : u.visible x = true ↔ x ∈ own ∨ s.visible x = true := by
      unfold State.visible
      rw [State.sees_eq, h.own, h.outer hs, ← hown]
      cases start x <;> simp
    rw [hv.visible (h.valid hs), hu, List.mem_append]
    tauto
  topLevel := by rw [hv.advances.body.topLevel, h.body]
  returnError := by rw [hv.advances.body.returnError, h.body]
  hasReturned := by rw [hv.returned, h.body]; rfl
  assigned := by rw [hv.assigned, h.body]; rfl

end Inner

section Closures

variable {s t : State} {env : Env} {params : Surface.Params Surface.Expr} {code : Lower Node}
  {loc : Option Location} {name : Option String} {ref : Symbol} {n : Node} {reads d a : List String}
  {b : Bool}

/-- The names that a closure's body binds before it begins. -/
def closureNames (params : Surface.Params Surface.Expr) (name : Option String) : List String :=
  params.names ++ name.toList

theorem ownName_isSome (name : Option String) (ref : Symbol) (x : String) :
    (ownName name ref x).isSome ↔ x ∈ name.toList := by
  unfold ownName
  cases name with
  | none => simp
  | some n =>
    by_cases h : n = x
    · simp [h]
    · simp only [Option.some.injEq, h, if_false, Option.isSome_none, Bool.false_eq_true,
        Option.toList_some, List.mem_singleton, false_iff]
      exact Ne.symm h

/-- Up to the definition of its lambda, a closure reads what its body reads. -/
theorem lowerClosure_reads (hs : Valid s) (hr : Reserved ref s)
    (hcode : Acts reads d a b code)
    (h : Yields (Lower.lowerClosure env params code loc name (some ref)) s n t) :
    ∃ u l, Reads (reads.filter (!(closureNames params name).contains ·)) s u ∧ l.ref = ref ∧
      Reserved ref u ∧ u.defining env l = t := by
  obtain ⟨u, ho, hiff⟩ := lowerClosure_iff hs ref hr.le env params code loc name
  obtain ⟨formals, v, c, w, hf, hc, hlift⟩ := (hiff n t).1 h
  have hv := bindFreshAll_effect (ho.valid hs) hf
  have hw := hcode hv.valid (ho.starts hs _ (ownName_isSome name ref) hv).topLevel hc
  have he := hv.trans (ho.valid hs) hw
  have hback := ho.back hs he.valid he.advances
  have hdest : w.body.dest = ref := by rw [he.advances.body.dest, ho.body]
  have hres : Reserved w.body.dest (w.resume s.body) := hdest ▸ hr.advance hback.advances
  obtain ⟨z, hz, hres', rfl⟩ := lift_reads hback.valid hres hlift
  refine ⟨z, _, ?_, hdest, hdest ▸ hres', rfl⟩
  -- What the body met as free is seen around it, and it is neither a parameter nor its own name.
  refine hback.trans hs (hz.of_inner (p := s.visible) ?_ fun x hx => ?_)
  · change w.freeNames = _
    rw [he.free, ho.freeNames, List.nil_append, List.filter_filter, List.filter_filter]
    congr 1
    apply List.filter_congr
    intro x _
    rw [ho.isFree hs]
    have := ownName_isSome name ref x
    unfold closureNames State.visible
    cases ho : ownName name ref x <;> cases hp : params.names.contains x <;>
      simp_all
  · refine State.visible_of_isFree ?_
    rw [← hx]
    unfold State.isFree
    rw [ho.own_back hs he.advances, ho.outer_back hs he.advances]

/-- A closure is lowered when its body is. -/
theorem lowerClosure_ok (hs : Valid s) (hr : Reserved ref s) (env : Env)
    (params : Surface.Params Surface.Expr) (code : Lower Node) (loc : Option Location)
    (name : Option String) (hcode : Acts reads d a b code) :
    ∃ v, Starts (closureNames params name) none s v ∧
      ((∃ n t, Yields (Lower.lowerClosure env params code loc name (some ref)) s n t) ↔
        ∃ c w, Yields code v c w) := by
  obtain ⟨u, ho, hiff⟩ := lowerClosure_iff hs ref hr.le env params code loc name
  obtain ⟨formals, v, hf⟩ := bindFreshAll_ok (ho.valid hs) params.names
  have hv := bindFreshAll_effect (ho.valid hs) hf
  have hstarts := ho.starts hs _ (ownName_isSome name ref) hv
  refine ⟨v, hstarts, ?_⟩
  constructor
  · rintro ⟨n, t, h⟩
    obtain ⟨formals', v', c, w, hf', hc, -⟩ := (hiff n t).1 h
    obtain ⟨rfl, rfl⟩ := hf.unique hf'
    exact ⟨c, w, hc⟩
  · rintro ⟨c, w, hc⟩
    have hw := hcode hv.valid hstarts.topLevel hc
    have hadv := hv.advances.trans hw.advances
    have hback := ho.back hs hw.valid hadv
    have hdest : w.body.dest = ref := by rw [hadv.body.dest, ho.body]
    have hres : Reserved w.body.dest (w.resume s.body) := hdest ▸ hr.advance hback.advances
    obtain ⟨n, t, hlift⟩ := lift_ok hback.valid hres env formals c loc
    exact ⟨n, t, (hiff n t).2 ⟨formals, v, c, w, hf, hc, hlift⟩⟩

end Closures

end Hoist.Lowering
