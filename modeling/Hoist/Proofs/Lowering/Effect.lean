import Hoist.Proofs.Lowering.Progress
import Hoist.Proofs.Surface.Names

/-!
# The effect of a step on names

`Effect reads declares assigns returns s t` says what a step from `s` to `t` did to names: of the
names it read, those that only outer frames bind were noted as free; the names it declared are bound
in the frame, those it assigned are noted as assigned. `Reads names s t` is the effect of a step that
only reads, as every expression does. Effects compose like the trees they belong to.
-/

namespace Hoist.Lowering

open Hoist.Flat (Symbol Node Location Space Table Lambda)

/-- A name at the end of a list, unless the list has it already. -/
def note (names : List String) (x : String) : List String :=
  if names.contains x then names else names ++ [x]

/-- Names noted one after the other. -/
def noteAll (names : List String) (xs : List String) : List String := xs.foldl note names

section Notes

variable {k l m : List String} {x : String} {p q : String → Bool}

@[simp] theorem noteAll_nil : noteAll k [] = k := rfl

@[simp] theorem noteAll_cons : noteAll k (x :: l) = noteAll (note k x) l := rfl

theorem noteAll_append : noteAll k (l ++ m) = noteAll (noteAll k l) m := List.foldl_append

theorem note_of_mem (h : x ∈ k) : note k x = k := by simp [note, h]

theorem note_of_not_mem (h : x ∉ k) : note k x = k ++ [x] := by simp [note, h]

@[simp] theorem mem_note {y : String} : y ∈ note k x ↔ y ∈ k ∨ y = x := by
  unfold note
  split
  · rename_i h
    constructor
    · exact Or.inl
    · rintro (hy | rfl)
      · exact hy
      · simpa using h
  · simp

@[simp] theorem mem_noteAll : x ∈ noteAll k l ↔ x ∈ k ∨ x ∈ l := by
  induction l generalizing k with
  | nil => simp
  | cons y l ih => simp [ih, or_assoc]

theorem noteAll_of_subset (h : ∀ x ∈ l, x ∈ k) : noteAll k l = k := by
  induction l with
  | nil => rfl
  | cons y l ih =>
    rw [noteAll_cons, note_of_mem (h y (by simp))]
    exact ih fun x hx => h x (List.mem_cons_of_mem _ hx)

theorem noteAll_eq_append : ∃ new, noteAll k l = k ++ new := by
  induction l generalizing k with
  | nil => exact ⟨[], by simp⟩
  | cons y l ih =>
    obtain ⟨new, hn⟩ := ih (k := note k y)
    by_cases hy : y ∈ k
    · rw [note_of_mem hy] at hn
      exact ⟨new, by rw [noteAll_cons, note_of_mem hy, hn]⟩
    · rw [note_of_not_mem hy] at hn
      exact ⟨y :: new, by rw [noteAll_cons, note_of_not_mem hy, hn]; simp⟩

theorem length_noteAll_le : (noteAll k l).length ≤ k.length + l.length := by
  induction l generalizing k with
  | nil => simp
  | cons y l ih =>
    have hnote : (note k y).length ≤ k.length + 1 := by
      unfold note
      split <;> simp
    have := ih (k := note k y)
    simp only [noteAll_cons, List.length_cons] at this ⊢
    omega

theorem nodup_note (h : k.Nodup) : (note k x).Nodup := by
  by_cases hx : x ∈ k
  · rw [note_of_mem hx]; exact h
  · rw [note_of_not_mem hx]
    exact List.nodup_append.2 ⟨h, by simp, by simpa using fun a ha (e : a = x) => hx (e ▸ ha)⟩

theorem nodup_noteAll (h : k.Nodup) : (noteAll k l).Nodup := by
  induction l generalizing k with
  | nil => exact h
  | cons y l ih => exact ih (nodup_note h)

/-- A filter need not decide the names that are noted already. -/
theorem noteAll_filter_congr (h : ∀ x ∈ l, x ∉ k → p x = q x) :
    noteAll k (l.filter p) = noteAll k (l.filter q) := by
  induction l generalizing k with
  | nil => rfl
  | cons y l ih =>
    have hl := fun (k' : List String) (hsub : ∀ x ∈ k, x ∈ k') =>
      ih (k := k') fun x hx hn => h x (List.mem_cons_of_mem _ hx) fun hm => hn (hsub x hm)
    by_cases hy : y ∈ k
    · have hnote : ∀ r : String → Bool, noteAll k ((y :: l).filter r) = noteAll k (l.filter r) := by
        intro r
        cases hr : r y <;> simp [hr, note_of_mem hy]
      rw [hnote, hnote, hl k fun _ hx => hx]
    · have hpq := h y (by simp) hy
      cases hp : p y with
      | true =>
        simp only [List.filter_cons, ← hpq, hp, if_true, noteAll_cons]
        exact hl _ fun x hx => by simp [hx]
      | false =>
        simp only [List.filter_cons, ← hpq, hp]
        exact hl _ fun _ hx => hx

/-- Noting names in a list of their own first makes no difference. -/
theorem noteAll_filter_noteAll (b : List String) :
    noteAll k ((noteAll b l).filter p) = noteAll (noteAll k (b.filter p)) (l.filter p) := by
  induction l generalizing b with
  | nil => simp
  | cons y l ih =>
    rw [noteAll_cons, ih]
    by_cases hy : y ∈ b
    · rw [note_of_mem hy]
      cases hp : p y with
      | false => simp [hp]
      | true =>
        have : y ∈ noteAll k (b.filter p) := by simp [hy, hp]
        simp [hp, note_of_mem this]
    · rw [note_of_not_mem hy, List.filter_append, noteAll_append]
      cases hp : p y <;> simp [hp]

theorem noteAll_filter_dedup : noteAll k ((noteAll [] l).filter p) = noteAll k (l.filter p) := by
  simpa using noteAll_filter_noteAll (k := k) (l := l) (p := p) []

theorem noteAll_dedup : noteAll k (noteAll [] l) = noteAll k l := by
  have h := noteAll_filter_dedup (k := k) (l := l) (p := fun _ => true)
  rwa [List.filter_eq_self.2 (by simp), List.filter_eq_self.2 (by simp)] at h

/-- Names noted on their own are the same names when they are in each other's order. -/
theorem perm_noteAll_iff : (noteAll [] l).Perm (noteAll [] m) ↔ ∀ x, x ∈ l ↔ x ∈ m := by
  rw [List.perm_ext_iff_of_nodup (nodup_noteAll .nil) (nodup_noteAll .nil)]
  simp

end Notes

namespace State

/-- Whether a name is bound around the body only. -/
def isFree (s : State) (x : String) : Bool := (s.own x).isNone && (s.outer x).isSome

end State

/-- What a step did to names. -/
structure Effect (reads declares assigns : List String) (returns : Bool) (s t : State) : Prop where
  valid : Valid t
  advances : Advances s t
  free : t.freeNames = noteAll s.freeNames (reads.filter s.isFree)
  own : ∀ x, (t.own x).isSome ↔
    (s.own x).isSome ∨ x ∈ declares ∨ (s.body.pulling = true ∧ x ∈ t.freeNames)
  assigned : t.body.assigned = noteAll s.body.assigned assigns
  returned : t.body.hasReturned = (s.body.hasReturned || returns)

/-- What a step did that only reads: the frame has no new bindings but those of pulled names. -/
structure Reads (reads : List String) (s t : State) : Prop extends
    Effect reads [] [] false s t where
  pulled : ∀ x a, t.own x = some a → s.own x = some a ∨ (s.own x = none ∧ (x, a) ∈ t.body.free)

namespace Effect

variable {s t u : State} {r d a r' d' a' : List String} {b b' : Bool}

theorem trans (hs : Valid s) (h : Effect r d a b s t) (h' : Effect r' d' a' b' t u) :
    Effect (r ++ r'.filter (!d.contains ·)) (d ++ d') (a ++ a') (b || b') s u where
  valid := h'.valid
  advances := h.advances.trans h'.advances
  free := by
    rw [h'.free, List.filter_append, noteAll_append, ← h.free, List.filter_filter]
    apply noteAll_filter_congr
    intro x _ hx
    have houter := h.advances.outer hs x
    have hown := h.own x
    unfold State.isFree
    rw [houter]
    cases ht : t.own x <;> cases ho : s.own x <;> by_cases hd : x ∈ d <;> simp_all
  own x := by
    have hsub : x ∈ t.freeNames → x ∈ u.freeNames := by rw [h'.free]; simp +contextual
    have hp := h.advances.body.pulling
    rw [h'.own, h.own, hp, List.mem_append]
    tauto
  assigned := by rw [h'.assigned, h.assigned, noteAll_append]
  returned := by rw [h'.returned, h.returned, Bool.or_assoc]

/-- Which names were declared matters, and which names were noted as assigned. -/
theorem congr (h : Effect r d a b s t) (hd : ∀ x, x ∈ d ↔ x ∈ d')
    (ha : ∀ k, noteAll k a = noteAll k a') : Effect r d' a' b s t :=
  { h with
    own := fun x => by rw [h.own, hd]
    assigned := by rw [h.assigned, ha] }

end Effect

namespace Reads

variable {s t u : State} {r r' : List String}

theorem refl (hs : Valid s) : Reads [] s s where
  valid := hs
  advances := .refl s
  free := rfl
  own x := by
    constructor
    · exact Or.inl
    · rintro (h | h | ⟨hp, h⟩)
      · exact h
      · cases h
      · obtain ⟨p, hp', rfl⟩ := List.mem_map.1 h
        exact hs.free_own hp p hp'
  assigned := rfl
  returned := by simp
  pulled _ _ h := .inl h

theorem trans (hs : Valid s) (h : Reads r s t) (h' : Reads r' t u) : Reads (r ++ r') s u where
  toEffect := by
    have := h.toEffect.trans hs h'.toEffect
    simpa [List.filter_eq_self.2] using this
  pulled x a hx := by
    rcases h'.pulled x a hx with ht | ⟨ht, hm⟩
    · rcases h.pulled x a ht with h₁ | ⟨h₁, hm⟩
      · exact .inl h₁
      · exact .inr ⟨h₁, h'.advances.free_mem hm⟩
    · refine .inr ⟨?_, hm⟩
      cases ho : s.own x with
      | none => rfl
      | some b =>
        have := h.advances.own x (by simp [ho])
        simp [ht] at this

end Reads

theorem Effect.thenReads {s t u : State} {r r' a : List String} {b : Bool} (hs : Valid s)
    (h : Effect r [] a b s t) (h' : Reads r' t u) : Effect (r ++ r') [] a b s u := by
  simpa [List.filter_eq_self.2] using h.trans hs h'.toEffect

/-- A step that has one effect wherever it is taken inside a function. -/
def Acts {α : Type} (reads declares assigns : List String) (returns : Bool) (x : Lower α) : Prop :=
  ∀ ⦃s c t⦄, Valid s → s.body.topLevel = false → Yields x s c t →
    Effect reads declares assigns returns s t

end Hoist.Lowering
