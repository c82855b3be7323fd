import Hoist.Proofs.Flat.Closed
import Hoist.Proofs.Lowering.Opening

/-!
# Lambdas that are defined

A symbol issued for a lambda stays reserved until the lambda is defined: nothing else is called by
it, so the definition cannot fail. To lift a body is to read what it captures and to define its
lambda; for the names of the body around it, only the reads count.
-/

namespace Hoist.Lowering

open Hoist.Flat (Symbol Node Location Space Table Lambda)

/-- A symbol issued for a lambda to come. -/
structure Reserved (ref : Symbol) (s : State) : Prop where
  generated : ref.isGenerated = true
  le : ref.token ≤ s.issued
  lambdas : ∀ l ∈ s.table.lambdas, l.ref.token ≠ ref.token
  free : s.body.pulling = true → ∀ p ∈ s.body.free, p.2.token ≠ ref.token

namespace Reserved

variable {s t : State} {ref : Symbol}

theorem issue (hs : Valid s) (ref : Symbol) (h : ref.token = s.issued + 1) :
    Reserved ref s.issuing where
  generated := by simp [Symbol.isGenerated, h]
  le := Nat.le_of_eq h
  lambdas l hl := by
    have := hs.refs_le l hl
    omega
  free _ p hp := by
    have := hs.free_le p hp
    omega

theorem advance (h : Reserved ref s) (ht : Advances s t) : Reserved ref t where
  generated := h.generated
  le := le_trans h.le ht.issued
  lambdas l hl := by
    obtain ⟨new, hn, hlt⟩ := ht.lambdas
    rw [hn] at hl
    have hle := h.le
    rcases List.mem_append.1 hl with hl | hl
    · exact h.lambdas l hl
    · have := hlt l hl
      omega
  free hp p hm := by
    obtain ⟨new, hn, hlt⟩ := ht.free
    rw [ht.body.pulling] at hp
    rw [hn] at hm
    have hle := h.le
    rcases List.mem_append.1 hm with hm | hm
    · exact h.free hp p hm
    · have := hlt hp p hm
      omega

theorem not_contains (h : Reserved ref s) : s.table.contains ref = false := by
  rw [Table.contains, List.any_eq_false]
  intro l hl hc
  rw [Symbol.same_of_generated h.generated] at hc
  exact h.lambdas l hl (by simpa using hc)

end Reserved

/-- A state with one more lambda. -/
def State.defining (s : State) (env : Env) (l : Lambda) : State :=
  { s with
    table := ⟨s.table.lambdas ++ [l]⟩
    log := if env.verbose then
        s.log ++ Report.styled .note ((if s.commits then "defined" else "explored") ++ " " ++ l.ref.write)
      else s.log }

theorem define_iff {s t : State} {env : Env} {ref : Symbol} {params : List Symbol} {code : Node}
    {loc : Option Location} {a : Unit} : Yields (Lower.define env ref params code loc) s a t ↔
      s.table.contains ref = false ∧ s.defining env ⟨ref, params, code, loc⟩ = t := by
  simp only [Lower.define, Yields.bind_iff, Yields.get_iff, Table.define?]
  constructor
  · rintro ⟨_, _, ⟨rfl, rfl⟩, h⟩
    cases hc : s.table.contains ref with
    | true => simp [hc] at h
    | false =>
      simp only [hc, Bool.false_eq_true, if_false, Yields.bind_iff, Yields.set_iff,
        Lower.logDefinition, Yields.ite_iff, Yields.modify_iff, Yields.pure_iff] at h
      obtain ⟨_, _, rfl, h₁, h₂⟩ := h
      refine ⟨rfl, ?_⟩
      unfold State.defining
      split
      · exact h₁ ‹_›
      · exact (h₂ ‹_›).2
  · rintro ⟨hc, rfl⟩
    refine ⟨s, s, ⟨rfl, rfl⟩, ?_⟩
    simp only [hc, Bool.false_eq_true, if_false, Yields.bind_iff, Yields.set_iff,
      Lower.logDefinition, Yields.ite_iff, Yields.modify_iff, Yields.pure_iff]
    refine ⟨⟨⟩, _, rfl, fun hv => ?_, fun hv => ⟨trivial, ?_⟩⟩ <;> simp [State.defining, hv]

section Defining

variable {s₀ s : State} {l : Lambda} {r d a : List String} {b : Bool}

theorem Valid.defining (hs : Valid s) (env : Env) (hr : Reserved l.ref s) : Valid (s.defining env l) :=
  { hs with
    refs_le := by
      intro m hm
      rcases List.mem_append.1 hm with hm | hm
      · exact hs.refs_le m hm
      · obtain rfl := List.mem_singleton.1 hm; exact hr.le
    refs_ne := by
      refine List.pairwise_append.2 ⟨hs.refs_ne, by simp, fun m hm k hk => ?_⟩
      obtain rfl := List.mem_singleton.1 hk
      rw [Symbol.same_of_generated hr.generated]
      simpa using hr.lambdas m hm
    free_refs := by
      intro hp p hm
      refine ⟨(hs.free_refs hp p hm).1, fun m hm' => ?_⟩
      rcases List.mem_append.1 hm' with hm' | hm'
      · exact (hs.free_refs hp p hm).2 m hm'
      · obtain rfl := List.mem_singleton.1 hm'; exact (hr.free hp p hm).symm }

theorem Advances.defining (h : Advances s₀ s) (env : Env) (hlt : s₀.issued < l.ref.token) :
    Advances s₀ (s.defining env l) :=
  { h with
    body := h.body
    lambdas := by
      obtain ⟨new, hn, hnew⟩ := h.lambdas
      refine ⟨new ++ [l], by simp [State.defining, hn], fun m hm => ?_⟩
      rcases List.mem_append.1 hm with hm | hm
      · exact hnew m hm
      · obtain rfl := List.mem_singleton.1 hm; exact hlt }

/-- A definition makes no difference to the names of a body. -/
theorem Effect.defining (h : Effect r d a b s₀ s) (env : Env) (hr : Reserved l.ref s)
    (hlt : s₀.issued < l.ref.token) : Effect r d a b s₀ (s.defining env l) :=
  { h with
    valid := h.valid.defining env hr
    advances := h.advances.defining env hlt
    own := h.own }

theorem Reads.defining (h : Reads r s₀ s) (env : Env) (hr : Reserved l.ref s)
    (hlt : s₀.issued < l.ref.token) : Reads r s₀ (s.defining env l) :=
  { h.toEffect.defining env hr hlt with pulled := h.pulled }

end Defining

section Lifting

variable {s t : State} {env : Env} {child : Body} {formals : List Symbol} {code n : Node}
  {loc : Option Location}

/-- The value of a function over captured values. -/
def closureNode (loc : Option Location) (ref : Symbol) (captured : List Node) : Node :=
  if captured.isEmpty then .ref loc ref else .closure loc ref captured

/-- The lambda of a body: its free variables are its first parameters. -/
def Body.lambda (child : Body) (formals : List Symbol) (code : Node) (loc : Option Location) :
    Lambda :=
  ⟨child.dest, child.free.map (·.2) ++ formals, code, loc⟩

theorem lift_iff : Yields (Lower.lift env child formals code loc) s n t ↔
    ∃ captured u, Yields (Lower.readNames loc (child.free.map (·.1))) s captured u ∧
      u.table.contains child.dest = false ∧ closureNode loc child.dest captured = n ∧
      u.defining env (child.lambda formals code loc) = t := by
  simp only [Lower.lift, Yields.bind_iff, define_iff, Yields.ite_iff, Yields.pure_iff]
  constructor
  · rintro ⟨captured, u, hr, ⟨⟩, _, ⟨hc, rfl⟩, h₁, h₂⟩
    refine ⟨captured, u, hr, hc, ?_⟩
    unfold closureNode
    split
    · exact h₁ ‹_›
    · exact h₂ ‹_›
  · rintro ⟨captured, u, hr, hc, rfl, rfl⟩
    refine ⟨captured, u, hr, ⟨⟩, _, ⟨hc, rfl⟩, fun h => ⟨?_, rfl⟩, fun h => ⟨?_, rfl⟩⟩ <;>
      simp [closureNode, h]

/-- Up to the definition, lifting a body only reads the names it captures. -/
theorem lift_reads (hs : Valid s) (hr : Reserved child.dest s)
    (h : Yields (Lower.lift env child formals code loc) s n t) :
    ∃ u, Reads (child.free.map (·.1)) s u ∧ Reserved child.dest u ∧
      u.defining env (child.lambda formals code loc) = t := by
  obtain ⟨captured, u, hread, -, -, rfl⟩ := lift_iff.1 h
  have hu := readNames_reads hs hread
  exact ⟨u, hu, hr.advance hu.advances, rfl⟩

theorem lift_ok (hs : Valid s) (hr : Reserved child.dest s) (env : Env) (formals : List Symbol)
    (code : Node) (loc : Option Location) :
    ∃ n t, Yields (Lower.lift env child formals code loc) s n t := by
  obtain ⟨captured, u, hread⟩ := readNames_ok hs loc (child.free.map (·.1))
  have hu := hr.advance (readNames_reads hs hread).advances
  exact ⟨_, _, lift_iff.2 ⟨captured, u, hread, hu.not_contains, rfl, rfl⟩⟩

/-- What an inner body met as free is read by the body around it, if that one does not bind it. -/
theorem Reads.of_inner {xs names : List String} {p : String → Bool}
    (hx : xs = noteAll [] (names.filter p)) (hp : ∀ x, s.isFree x = true → p x = true)
    (h : Reads xs s t) : Reads names s t :=
  { h with
    free := by
      have hfree := h.free
      rw [hx, noteAll_filter_dedup, List.filter_filter] at hfree
      rw [hfree]
      congr 1
      apply List.filter_congr
      intro x _
      cases hf : s.isFree x with
      | false => simp
      | true => simp [hp x hf] }

end Lifting

end Hoist.Lowering
