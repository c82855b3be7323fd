import Mathlib.Data.List.Nodup
import Mathlib.Data.List.Perm.Basic
import Hoist.Memo.Traffic

/-!
# Caches

What a cache knows of a key after it was changed, and which results it holds. Entries are in the order
in which their keys were first asked for, results in the order of their keys; neither has a key twice.
-/

namespace Hoist.Memo

variable {κ ε ρ : Type}

section Entries

variable [BEq κ] [LawfulBEq κ] {key k : κ} {o : Option (Except ε ρ)} {es ps : List (κ × Option (Except ε ρ))}

theorem lookup_setEntry :
    (setEntry key o es).lookup k = if k == key then some o else es.lookup k := by
  induction es with
  | nil => cases h : k == key <;> simp [setEntry, List.lookup_cons, h]
  | cons p rest ih =>
    obtain ⟨a, b⟩ := p
    by_cases ha : a = key
    · subst ha
      cases h : k == a <;> simp [setEntry, List.lookup_cons, h]
    · by_cases hk : k = a
      · subst hk
        simp [setEntry, ha]
      · have hka : (k == a) = false := beq_false_of_ne hk
        simp [setEntry, List.lookup_cons, ha, hka, ih]

theorem mem_keys_setEntry :
    k ∈ (setEntry key o es).map Prod.fst ↔ k = key ∨ k ∈ es.map Prod.fst := by
  induction es with
  | nil => simp [setEntry]
  | cons p rest ih =>
    obtain ⟨a, b⟩ := p
    by_cases ha : a = key
    · subst ha
      simp [setEntry]
    · simp only [setEntry, beq_iff_eq, ha, if_false, List.map_cons, List.mem_cons, ih]
      tauto

theorem nodup_setEntry (h : (es.map Prod.fst).Nodup) :
    ((setEntry key o es).map Prod.fst).Nodup := by
  induction es with
  | nil => simp [setEntry]
  | cons p rest ih =>
    obtain ⟨a, b⟩ := p
    obtain ⟨hfresh, hrest⟩ := List.nodup_cons.1 h
    by_cases ha : a = key
    · subst ha
      simpa [setEntry] using h
    · simp only [setEntry, beq_iff_eq, ha, if_false, List.map_cons, List.nodup_cons]
      refine ⟨fun hmem => ?_, ih hrest⟩
      exact (mem_keys_setEntry.1 hmem).elim ha hfresh

theorem lookup_eq_none_of_not_mem (h : k ∉ es.map Prod.fst) : es.lookup k = none :=
  List.lookup_eq_none_iff.2 fun p hp => by
    have hne : k ≠ p.1 := fun he => h (he ▸ List.mem_map_of_mem hp)
    simp [hne]

/-- Of entries put over others, each wins over the one of its key. -/
theorem lookup_foldl_setEntry (h : (ps.map Prod.fst).Nodup) :
    (ps.foldl (fun es p => setEntry p.1 p.2 es) es).lookup k = (ps.lookup k).or (es.lookup k) := by
  induction ps generalizing es with
  | nil => simp
  | cons p rest ih =>
    obtain ⟨a, b⟩ := p
    obtain ⟨hfresh, hrest⟩ := List.nodup_cons.1 h
    rw [List.foldl_cons, ih hrest, lookup_setEntry]
    by_cases hk : k = a
    · subst hk
      simp [lookup_eq_none_of_not_mem hfresh]
    · have hka : (k == a) = false := beq_false_of_ne hk
      simp [List.lookup_cons, hka]

theorem nodup_foldl_setEntry (h : (es.map Prod.fst).Nodup) :
    ((ps.foldl (fun es p => setEntry p.1 p.2 es) es).map Prod.fst).Nodup := by
  induction ps generalizing es with
  | nil => exact h
  | cons p rest ih => exact ih (nodup_setEntry h)

end Entries

section Results

variable [Ord κ] [Std.LawfulEqOrd κ] {key : κ} {value : ρ} {p : κ × ρ} {rs ps : List (κ × ρ)}

/-- Results in the order of their keys. -/
def InOrder (rs : List (κ × ρ)) : Prop := rs.Pairwise fun p q => compare p.1 q.1 = .lt

/-- The result of a new key is put somewhere among the others. -/
theorem insertSorted_perm (h : key ∉ rs.map Prod.fst) :
    (insertSorted key value rs).Perm ((key, value) :: rs) := by
  induction rs with
  | nil => exact .refl _
  | cons q rest ih =>
    obtain ⟨a, b⟩ := q
    simp only [List.map_cons, List.mem_cons, not_or] at h
    simp only [insertSorted]
    cases hc : compare key a with
    | lt => exact .refl _
    | eq => exact absurd (Std.LawfulEqOrd.eq_of_compare hc) h.1
    | gt => exact ((ih h.2).cons _).trans (.swap ..)

variable [Std.TransOrd κ]

theorem mem_insertSorted (h : InOrder rs) :
    p ∈ insertSorted key value rs ↔ p = (key, value) ∨ (p ∈ rs ∧ p.1 ≠ key) := by
  induction rs with
  | nil => simp [insertSorted]
  | cons q rest ih =>
    obtain ⟨a, b⟩ := q
    obtain ⟨hbelow, hrest⟩ := List.pairwise_cons.1 h
    simp only [insertSorted]
    cases hc : compare key a with
    | lt =>
      have hne : ∀ r ∈ (a, b) :: rest, r.1 ≠ key := by
        rintro r (_ | ⟨_, hr⟩) rfl
        · simp at hc
        · have := Std.TransCmp.lt_trans hc (hbelow r hr)
          simp at this
      grind
    | eq =>
      obtain rfl := Std.LawfulEqOrd.eq_of_compare hc
      have hne : ∀ r ∈ rest, r.1 ≠ key := by
        rintro r hr rfl
        have := hbelow r hr
        simp at this
      grind
    | gt =>
      have hne : a ≠ key := by
        rintro rfl
        simp at hc
      have hiff := ih hrest
      grind

theorem inOrder_insertSorted (h : InOrder rs) : InOrder (insertSorted key value rs) := by
  induction rs with
  | nil => simp [insertSorted, InOrder]
  | cons q rest ih =>
    obtain ⟨a, b⟩ := q
    obtain ⟨hbelow, hrest⟩ := List.pairwise_cons.1 h
    simp only [insertSorted]
    cases hc : compare key a with
    | lt =>
      refine List.pairwise_cons.2 ⟨fun r hr => ?_, h⟩
      rcases List.mem_cons.1 hr with rfl | hr
      · exact hc
      · exact Std.TransCmp.lt_trans hc (hbelow r hr)
    | eq =>
      obtain rfl := Std.LawfulEqOrd.eq_of_compare hc
      exact List.pairwise_cons.2 ⟨hbelow, hrest⟩
    | gt =>
      refine List.pairwise_cons.2 ⟨fun r hr => ?_, ih hrest⟩
      rcases (mem_insertSorted hrest).1 hr with rfl | ⟨hr, -⟩
      · exact Std.OrientedCmp.gt_iff_lt.1 hc
      · exact hbelow r hr

omit [Std.TransOrd κ] in
theorem InOrder.nodup (h : InOrder rs) : (rs.map Prod.fst).Nodup := by
  refine (List.pairwise_map (R := (· ≠ ·))).2 (h.imp ?_)
  intro p q hlt heq
  simp [heq] at hlt

theorem inOrder_foldl (h : InOrder rs) :
    InOrder (ps.foldl (fun rs p => insertSorted p.1 p.2 rs) rs) := by
  induction ps generalizing rs with
  | nil => exact h
  | cons q rest ih => exact ih (inOrder_insertSorted h)

/-- Of results put over others, each wins over the one of its key. -/
theorem mem_foldl_insertSorted (h : InOrder rs) (hps : (ps.map Prod.fst).Nodup) :
    p ∈ ps.foldl (fun rs p => insertSorted p.1 p.2 rs) rs ↔
      p ∈ ps ∨ (p ∈ rs ∧ p.1 ∉ ps.map Prod.fst) := by
  induction ps generalizing rs with
  | nil => simp
  | cons q rest ih =>
    obtain ⟨hfresh, hrest⟩ := List.nodup_cons.1 hps
    have hq : ∀ r ∈ rest, r.1 ≠ q.1 := fun r hr he => hfresh (he ▸ List.mem_map_of_mem hr)
    rw [List.foldl_cons, ih (inOrder_insertSorted h) hrest, mem_insertSorted h]
    simp only [List.map_cons, List.mem_cons, not_or]
    constructor
    · rintro (hp | ⟨rfl | ⟨hp, hne⟩, hnot⟩)
      · exact .inl (.inr hp)
      · exact .inl (.inl rfl)
      · exact .inr ⟨hp, hne, hnot⟩
    · rintro ((rfl | hp) | ⟨hp, hne, hnot⟩)
      · exact .inr ⟨.inl rfl, hfresh⟩
      · exact .inl hp
      · exact .inr ⟨.inr ⟨hp, hne⟩, hnot⟩

end Results

namespace Cache

variable [BEq κ] {c mine theirs : Cache κ ε ρ} {key k : κ} {value : ρ} {outcome : Except ε ρ}

@[simp] theorem find?_empty : (empty : Cache κ ε ρ).find? k = none := rfl

@[simp] theorem results_begin : (c.begin key).results = c.results := rfl

@[simp] theorem results_settle : (c.settle key outcome).results = c.results := rfl

omit [BEq κ] in
@[simp] theorem results_record [Ord κ] :
    (c.record key value).results = insertSorted key value c.results := rfl

@[simp] theorem find?_record [Ord κ] : (c.record key value).find? k = c.find? k := rfl

/-- No key has two entries or two results, and no result is without an entry of its key. -/
structure Orderly [Ord κ] (c : Cache κ ε ρ) : Prop where
  distinct : (c.entries.map Prod.fst).Nodup
  inOrder : InOrder c.results
  known : ∀ p ∈ c.results, c.find? p.1 ≠ none

theorem Orderly.empty [Ord κ] : (empty : Cache κ ε ρ).Orderly where
  distinct := .nil
  inOrder := .nil
  known p hp := by cases hp

section

variable [LawfulBEq κ]

@[simp] theorem find?_begin :
    (c.begin key).find? k = if k == key then some none else c.find? k := lookup_setEntry

@[simp] theorem find?_settle :
    (c.settle key outcome).find? k = if k == key then some (some outcome) else c.find? k :=
  lookup_setEntry

variable [Ord κ]

/-- What an absorbed cache knows of a key wins. -/
theorem find?_absorb (h : theirs.Orderly) :
    (mine.absorb theirs).find? k = (theirs.find? k).or (mine.find? k) :=
  lookup_foldl_setEntry h.distinct

theorem Orderly.begin (h : c.Orderly) : (c.begin key).Orderly where
  distinct := nodup_setEntry h.distinct
  inOrder := h.inOrder
  known p hp := by
    rw [find?_begin]
    split
    · simp
    · exact h.known p hp

theorem Orderly.settle (h : c.Orderly) : (c.settle key outcome).Orderly where
  distinct := nodup_setEntry h.distinct
  inOrder := h.inOrder
  known p hp := by
    rw [find?_settle]
    split
    · simp
    · exact h.known p hp

end

variable [Ord κ] [Std.LawfulEqOrd κ] [Std.TransOrd κ]

theorem mem_results_absorb (hm : mine.Orderly) (ht : theirs.Orderly) {p : κ × ρ} :
    p ∈ (mine.absorb theirs).results ↔
      p ∈ theirs.results ∨ (p ∈ mine.results ∧ p.1 ∉ theirs.results.map Prod.fst) :=
  mem_foldl_insertSorted hm.inOrder ht.inOrder.nodup

theorem Orderly.record (h : c.Orderly) (hkey : c.find? key ≠ none) :
    (c.record key value).Orderly where
  distinct := h.distinct
  inOrder := inOrder_insertSorted h.inOrder
  known p hp := by
    rcases (mem_insertSorted h.inOrder).1 hp with rfl | ⟨hp, -⟩
    · exact hkey
    · exact h.known p hp

theorem Orderly.absorb [LawfulBEq κ] (hm : mine.Orderly) (ht : theirs.Orderly) :
    (mine.absorb theirs).Orderly where
  distinct := nodup_foldl_setEntry hm.distinct
  inOrder := inOrder_foldl hm.inOrder
  known p hp := by
    rw [find?_absorb ht, ne_eq, Option.or_eq_none_iff, not_and_or]
    rcases (mem_results_absorb hm ht).1 hp with hp | ⟨hp, -⟩
    · exact .inl (ht.known p hp)
    · exact .inr (hm.known p hp)

end Cache

end Hoist.Memo
