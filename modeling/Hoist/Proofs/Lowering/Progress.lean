import Hoist.Proofs.Lowering.Sight

/-!
# What lowering leaves in place

A state is valid when its symbols were issued before, no two lambdas of its table have one name, and
the free variables of its body are accounted for. A state advances to a later one of the same body
when only this body's frame and newer ones were touched, and the table, the free variables and the
assigned names grew at their ends by symbols that are new.
-/

namespace Hoist.Lowering

open Hoist.Flat (Symbol Node Location Space Table Lambda)

namespace State

variable (s : State)

/-- The symbol that the body's own frame binds to a name. -/
def own (x : String) : Option Symbol := s.scopes.own s.body.frame x

/-- The symbol of a name as it is seen around the body. -/
def outer (x : String) : Option Symbol := s.scopes.outside s.body.frame x

/-- The symbol of a name as the body sees it. -/
def sees (x : String) : Option Symbol := s.scopes.sees s.body.frame x

theorem sees_eq (x : String) : s.sees x = (s.own x).or (s.outer x) := s.scopes.sees_eq _ x

/-- The names that the body has met as free, in order. -/
def freeNames : List String := s.body.free.map (·.1)

end State

/-- A state that lowering can be in. -/
structure Valid (s : State) : Prop where
  frame_lt : s.body.frame < s.scopes.size
  bound_le : ∀ i x a, s.scopes.own i x = some a → a.token ≤ s.issued
  refs_le : ∀ l ∈ s.table.lambdas, l.ref.token ≤ s.issued
  refs_ne : s.table.lambdas.Pairwise fun l m => l.ref.same m.ref = false
  free_le : ∀ p ∈ s.body.free, p.2.token ≤ s.issued
  /-- A name that was pulled is bound in the frame from then on. -/
  free_own : s.body.pulling = true → ∀ p ∈ s.body.free, (s.own p.1).isSome
  free_outer : s.body.pulling = false → ∀ p ∈ s.body.free, s.outer p.1 = some p.2
  free_nodup : s.freeNames.Nodup
  /-- The symbols of pulled names are parameters: they differ from each other and from all lambdas. -/
  free_ne : s.body.pulling = true → s.body.free.Pairwise fun p q => p.2.token ≠ q.2.token
  free_refs : s.body.pulling = true →
    ∀ p ∈ s.body.free, p.2.isGenerated ∧ ∀ l ∈ s.table.lambdas, l.ref.token ≠ p.2.token
  assigned_nodup : s.body.assigned.Nodup
  assigned_own : ∀ x ∈ s.body.assigned, (s.own x).isSome

/-- The part of a body that no step in it changes. -/
structure SameBody (b c : Body) : Prop where
  frame : c.frame = b.frame
  dest : c.dest = b.dest
  pulling : c.pulling = b.pulling
  topLevel : c.topLevel = b.topLevel
  returnError : c.returnError = b.returnError

namespace SameBody

theorem refl (b : Body) : SameBody b b := ⟨rfl, rfl, rfl, rfl, rfl⟩

theorem trans {b c d : Body} (h : SameBody b c) (h' : SameBody c d) : SameBody b d :=
  ⟨h'.frame.trans h.frame, h'.dest.trans h.dest, h'.pulling.trans h.pulling,
    h'.topLevel.trans h.topLevel, h'.returnError.trans h.returnError⟩

end SameBody

/-- The later state goes on from the earlier one in the same body. -/
structure Advances (s t : State) : Prop where
  issued : s.issued ≤ t.issued
  size : s.scopes.size ≤ t.scopes.size
  frames : ∀ i < s.scopes.size, i ≠ s.body.frame → t.scopes.frames[i]? = s.scopes.frames[i]?
  around : t.scopes.around s.body.frame = s.scopes.around s.body.frame
  own : ∀ x, (s.own x).isSome → (t.own x).isSome
  lambdas : ∃ new, t.table.lambdas = s.table.lambdas ++ new ∧ ∀ l ∈ new, s.issued < l.ref.token
  commits : t.commits = s.commits
  body : SameBody s.body t.body
  free : ∃ new, t.body.free = s.body.free ++ new ∧
    (s.body.pulling = true → ∀ p ∈ new, s.issued < p.2.token)
  assigned : ∃ new, t.body.assigned = s.body.assigned ++ new
  returned : s.body.hasReturned = true → t.body.hasReturned = true

namespace Advances

variable {s t u : State}

theorem refl (s : State) : Advances s s where
  issued := le_rfl
  size := le_rfl
  frames _ _ _ := rfl
  around := rfl
  own _ h := h
  lambdas := ⟨[], by simp⟩
  commits := rfl
  body := .refl _
  free := ⟨[], by simp⟩
  assigned := ⟨[], by simp⟩
  returned h := h

theorem trans (h : Advances s t) (h' : Advances t u) : Advances s u where
  issued := le_trans h.issued h'.issued
  size := le_trans h.size h'.size
  frames i hi hne := by
    rw [h'.frames i (lt_of_lt_of_le hi h.size) (by rw [h.body.frame]; exact hne), h.frames i hi hne]
  around := by
    have := h'.around
    rw [h.body.frame] at this
    rw [this, h.around]
  own x hx := h'.own x (h.own x hx)
  lambdas := by
    obtain ⟨new, hn, hlt⟩ := h.lambdas
    obtain ⟨more, hm, hlt'⟩ := h'.lambdas
    refine ⟨new ++ more, by rw [hm, hn, List.append_assoc], fun l hl => ?_⟩
    rcases List.mem_append.1 hl with hl | hl
    · exact hlt l hl
    · exact lt_of_le_of_lt h.issued (hlt' l hl)
  commits := h'.commits.trans h.commits
  body := h.body.trans h'.body
  free := by
    obtain ⟨new, hn, hlt⟩ := h.free
    obtain ⟨more, hm, hlt'⟩ := h'.free
    refine ⟨new ++ more, by rw [hm, hn, List.append_assoc], fun hp p hpm => ?_⟩
    rcases List.mem_append.1 hpm with hpm | hpm
    · exact hlt hp p hpm
    · exact lt_of_le_of_lt h.issued (hlt' (h.body.pulling.trans hp) p hpm)
  assigned := by
    obtain ⟨new, hn⟩ := h.assigned
    obtain ⟨more, hm⟩ := h'.assigned
    exact ⟨new ++ more, by rw [hm, hn, List.append_assoc]⟩
  returned hs := h'.returned (h.returned hs)

/-- The sight around a body is not touched from inside. -/
theorem outer (h : Advances s t) (hs : Valid s) (x : String) : t.outer x = s.outer x := by
  unfold State.outer
  rw [h.body.frame]
  have hlt := hs.frame_lt
  exact Scopes.outside_congr h.around (fun i hi => h.frames i (by omega) (by omega)) x

theorem free_mem (h : Advances s t) {p : String × Symbol} (hp : p ∈ s.body.free) :
    p ∈ t.body.free := by
  obtain ⟨new, hn, -⟩ := h.free
  rw [hn]
  exact List.mem_append_left _ hp

theorem lambda_mem (h : Advances s t) {l : Lambda} (hl : l ∈ s.table.lambdas) :
    l ∈ t.table.lambdas := by
  obtain ⟨new, hn, -⟩ := h.lambdas
  rw [hn]
  exact List.mem_append_left _ hl

/-- What the table holds of the symbols issued before, it held before. -/
theorem lambda_of_le (h : Advances s t) {l : Lambda} (hl : l ∈ t.table.lambdas)
    (hle : l.ref.token ≤ s.issued) : l ∈ s.table.lambdas := by
  obtain ⟨new, hn, hlt⟩ := h.lambdas
  rw [hn] at hl
  rcases List.mem_append.1 hl with hl | hl
  · exact hl
  · have := hlt l hl
    omega

end Advances

end Hoist.Lowering
