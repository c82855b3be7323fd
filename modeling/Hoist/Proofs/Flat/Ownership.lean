import Hoist.Proofs.Flat.Binders
import Mathlib.Data.List.Nodup

/-!
# Lambdas and the symbols they own

A lambda owns its generated name and what it binds. A loop and its `continue` have their parameters in
common and own them together. Where the symbols that all lambdas own were issued one by one, each of
them is bound in one place only.
-/

namespace Hoist.Flat

/-- How often a number occurs among symbols. -/
def tally (k : Nat) (S : List Symbol) : Nat := S.countP (·.token == k)

section Tally

variable {k lo hi : Nat} {a b : Symbol} {S T : List Symbol}

@[simp, grind =] theorem tally_nil : tally k [] = 0 := rfl

@[simp, grind =] theorem tally_append : tally k (S ++ T) = tally k S + tally k T := List.countP_append

@[simp, grind =] theorem tally_cons : tally k (a :: S) = tally k S + if a.token = k then 1 else 0 := by
  simp [tally, List.countP_cons]

theorem one_le_tally (h : a ∈ S) : 1 ≤ tally a.token S :=
  List.countP_pos_iff.2 ⟨a, h, by simp⟩

/-- Symbols with different numbers, all issued after `lo` and up to `hi`. -/
def Issued (lo hi : Nat) (S : List Symbol) : Prop :=
  ∀ k, tally k S ≤ if lo < k ∧ k ≤ hi then 1 else 0

namespace Issued

theorem nil : Issued lo hi [] := fun _ => Nat.zero_le _

theorem weaken {hi' : Nat} (h : Issued lo hi S) (hle : hi ≤ hi') (hT : ∀ k, tally k T ≤ tally k S) :
    Issued lo hi' T := fun k => by
  have hk := h k
  have := hT k
  split at hk <;> split <;> omega

theorem cons (h : Issued lo hi S) (hle : lo ≤ hi) (ha : a.token = hi + 1) :
    Issued lo (hi + 1) (a :: S) := fun k => by
  have hk := h k
  rw [tally_cons]
  split at hk <;> split <;> split <;> omega

/-- What is issued later comes on top. -/
theorem append {mid : Nat} (hS : Issued lo mid S) (hT : Issued mid hi T) (hlo : lo ≤ mid)
    (hhi : mid ≤ hi) : Issued lo hi (S ++ T) := fun k => by
  have h₁ := hS k
  have h₂ := hT k
  rw [tally_append]
  split at h₁ <;> split at h₂ <;> split <;> omega

theorem token (h : Issued lo hi S) (ha : a ∈ S) : lo < a.token ∧ a.token ≤ hi := by
  have hk := h a.token
  have := one_le_tally ha
  split at hk
  · assumption
  · omega

theorem generated (h : Issued lo hi S) (ha : a ∈ S) : a.isGenerated = true := by
  have := (h.token ha).1
  simp only [Symbol.isGenerated, bne_iff_ne, ne_eq]
  omega

theorem apart (h : Issued lo hi (S ++ T)) (ha : a ∈ S) (hb : b ∈ T) : a.token ≠ b.token := by
  intro heq
  have hk := h a.token
  have h₁ := one_le_tally ha
  have h₂ := one_le_tally hb
  rw [← heq] at h₂
  rw [tally_append] at hk
  split at hk <;> omega

theorem left (h : Issued lo hi (S ++ T)) : Issued lo hi S :=
  h.weaken (Nat.le_refl _) fun k => by simp

theorem right (h : Issued lo hi (S ++ T)) : Issued lo hi T :=
  h.weaken (Nat.le_refl _) fun k => by simp

theorem nodup (h : Issued lo hi S) : (S.map (·.token)).Nodup := by
  rw [List.nodup_iff_count_le_one]
  intro k
  have hk := h k
  have : List.count k (S.map (·.token)) = tally k S := by
    rw [List.count, List.countP_map]
    rfl
  split at hk <;> omega

end Issued

end Tally

/-- The `continue` of a loop and the loop: each refers to the other one, and they have the same
parameters. -/
structure Turn (next loop : Lambda) : Prop where
  next_relation : next.ref.relation = "continue"
  loop_relation : loop.ref.relation = "loop"
  params : loop.params = next.params
  calls : loop.ref ∈ next.body.refers
  goesOn : next.ref ∈ loop.body.refers

/-- The name of a lambda, if it was generated. -/
def Lambda.named (l : Lambda) : List Symbol := if l.ref.isGenerated then [l.ref] else []

theorem Lambda.mem_named {l : Lambda} (h : l.ref.isGenerated = true) : l.ref ∈ l.named := by
  simp [named, h]

/-- Lambdas that are defined together, and the symbols that are theirs. -/
inductive Part : List Lambda → List Symbol → Prop
  | lambda {l : Lambda} (h : l.ref.relation ≠ "loop") : Part [l] (l.named ++ l.binders)
  | turn {next loop : Lambda} (h : Turn next loop) :
      Part [next, loop] ((next.named ++ loop.named) ++ (next.binders ++ loop.body.lets))

/-- Lambdas in the order of their definition, and the symbols that are theirs. -/
inductive Owns : List Lambda → List Symbol → Prop
  | nil : Owns [] []
  | snoc {L P : List Lambda} {S T : List Symbol} (h : Owns L S) (hP : Part P T) :
      Owns (L ++ P) (S ++ T)

/-- No generated symbol is bound twice by some lambdas, but for the parameters that a loop has in common
with its `continue`, nor is one the name of two lambdas or both a name and bound; and all generated
symbols are among those issued so far. -/
structure BindOnce (L : List Lambda) (issued : Nat) : Prop where
  generated : ∀ l ∈ L, ∀ a ∈ l.binders, a.isGenerated = true
  within : ∀ l ∈ L, (l.binders.map (·.token)).Nodup
  between : L.Pairwise fun l m => ∀ a ∈ l.binders, ∀ b ∈ m.binders, a.token = b.token →
    Turn l m ∧ a ∈ l.params ∧ b ∈ m.params
  turns : ∀ m ∈ L, m.ref.relation = "loop" → ∃ l ∈ L, Turn l m
  names : L.Pairwise fun l m => l.ref.isGenerated = true → l.ref.token ≠ m.ref.token
  names_free : ∀ l ∈ L, l.ref.isGenerated = true → ∀ m ∈ L, ∀ a ∈ m.binders, a.token ≠ l.ref.token
  tokens : ∀ l ∈ L, ∀ a ∈ l.symbols, a.isGenerated = true → 1 ≤ a.token ∧ a.token ≤ issued

section Owning

variable {lo hi : Nat} {L M P : List Lambda} {S T : List Symbol} {l m : Lambda} {a b : Symbol}

namespace Part

theorem binders_mem (h : Part P T) (hl : l ∈ P) (ha : a ∈ l.binders) : a ∈ T := by
  cases h with
  | lambda _ =>
    obtain rfl := List.mem_singleton.1 hl
    exact List.mem_append_right _ ha
  | turn h =>
    simp only [List.mem_cons, List.not_mem_nil, or_false] at hl
    rcases hl with rfl | rfl
    · simp [ha]
    · simp only [Lambda.binders, h.params, List.mem_append] at ha ⊢
      tauto

theorem named_mem (h : Part P T) (hl : l ∈ P) (hg : l.ref.isGenerated = true) : l.ref ∈ T := by
  have := Lambda.mem_named hg
  cases h with
  | lambda _ =>
    obtain rfl := List.mem_singleton.1 hl
    exact List.mem_append_left _ this
  | turn h =>
    simp only [List.mem_cons, List.not_mem_nil, or_false] at hl
    rcases hl with rfl | rfl <;> simp [this]

theorem within (h : Part P T) (hT : Issued lo hi T) (hl : l ∈ P) :
    (l.binders.map (·.token)).Nodup := by
  cases h with
  | lambda _ =>
    obtain rfl := List.mem_singleton.1 hl
    exact hT.right.nodup
  | turn h =>
    simp only [List.mem_cons, List.not_mem_nil, or_false] at hl
    rcases hl with rfl | rfl
    · exact hT.right.left.nodup
    · -- The loop binds the parameters of its `continue`, and no other symbol of it.
      refine (hT.right.weaken (Nat.le_refl _) fun k => ?_).nodup
      simp only [Lambda.binders, h.params, tally_append]
      omega

theorem between (h : Part P T) (hT : Issued lo hi T) : P.Pairwise fun l m =>
    ∀ a ∈ l.binders, ∀ b ∈ m.binders, a.token = b.token → Turn l m ∧ a ∈ l.params ∧ b ∈ m.params := by
  cases h with
  | lambda _ => exact List.pairwise_singleton _ _
  | @turn next loop h =>
    refine List.pairwise_pair.2 fun a ha b hb heq => ⟨h, ?_⟩
    have hT := hT.right
    -- A binder of the `let`s inside the loop is no binder of its `continue`, parameters or not.
    have hb : b ∈ next.params := by
      rcases List.mem_append.1 hb with hb | hb
      · exact h.params ▸ hb
      · exact absurd heq (hT.apart ha hb)
    refine ⟨?_, h.params ▸ hb⟩
    rcases List.mem_append.1 ha with ha | ha
    · exact ha
    · exact absurd heq.symm (hT.left.apart hb ha)

theorem names (h : Part P T) (hT : Issued lo hi T) :
    P.Pairwise fun l m => l.ref.isGenerated = true → l.ref.token ≠ m.ref.token := by
  cases h with
  | lambda _ => exact List.pairwise_singleton _ _
  | @turn next loop h =>
    refine List.pairwise_pair.2 fun hg => ?_
    by_cases hl : loop.ref.isGenerated = true
    · exact hT.left.apart (Lambda.mem_named hg) (Lambda.mem_named hl)
    · simp only [Symbol.isGenerated, bne_iff_ne, ne_eq, not_not] at hg hl
      omega

theorem names_free (h : Part P T) (hT : Issued lo hi T) (hl : l ∈ P)
    (hg : l.ref.isGenerated = true) (hm : m ∈ P) (ha : a ∈ m.binders) : a.token ≠ l.ref.token := by
  have hnamed := Lambda.mem_named hg
  cases h with
  | lambda _ =>
    obtain rfl := List.mem_singleton.1 hl
    obtain rfl := List.mem_singleton.1 hm
    exact (hT.apart hnamed ha).symm
  | @turn next loop h =>
    have hname : l.ref ∈ next.named ++ loop.named := by
      simp only [List.mem_cons, List.not_mem_nil, or_false] at hl
      rcases hl with rfl | rfl <;> simp [hnamed]
    have hbinder : a ∈ next.binders ++ loop.body.lets := by
      simp only [List.mem_cons, List.not_mem_nil, or_false] at hm
      rcases hm with rfl | rfl
      · exact List.mem_append_left _ ha
      · simp only [Lambda.binders, h.params, List.mem_append] at ha ⊢
        tauto
    exact (hT.apart hname hbinder).symm

theorem turns (h : Part P T) (hm : m ∈ P) (hr : m.ref.relation = "loop") : ∃ l ∈ P, Turn l m := by
  cases h with
  | lambda h =>
    obtain rfl := List.mem_singleton.1 hm
    exact absurd hr h
  | @turn next loop h =>
    simp only [List.mem_cons, List.not_mem_nil, or_false] at hm
    rcases hm with rfl | rfl
    · have := h.next_relation
      rw [hr] at this
      exact absurd this (by decide)
    · exact ⟨next, by simp, h⟩

end Part

namespace Owns

theorem append (h : Owns L S) (h' : Owns M T) : Owns (L ++ M) (S ++ T) := by
  induction h' with
  | nil => simpa using h
  | snoc _ hP ih =>
    rw [← List.append_assoc, ← List.append_assoc]
    exact ih.snoc hP

theorem binders_mem (h : Owns L S) (hl : l ∈ L) (ha : a ∈ l.binders) : a ∈ S := by
  induction h with
  | nil => cases hl
  | snoc _ hP ih =>
    rcases List.mem_append.1 hl with hl | hl
    · exact List.mem_append_left _ (ih hl)
    · exact List.mem_append_right _ (hP.binders_mem hl ha)

theorem named_mem (h : Owns L S) (hl : l ∈ L) (hg : l.ref.isGenerated = true) : l.ref ∈ S := by
  induction h with
  | nil => cases hl
  | snoc _ hP ih =>
    rcases List.mem_append.1 hl with hl | hl
    · exact List.mem_append_left _ (ih hl)
    · exact List.mem_append_right _ (hP.named_mem hl hg)

/-- Lambdas whose symbols were issued one by one bind each of them once. -/
theorem bindOnce (h : Owns L S) (hS : Issued lo hi S)
    (hr : ∀ l ∈ L, ∀ a ∈ l.body.refers, a.token ≤ hi) : BindOnce L hi := by
  induction h with
  | nil => constructor <;> simp
  | @snoc L P S T h hP ih =>
    have hL := ih hS.left fun l hl => hr l (List.mem_append_left _ hl)
    have hT := hS.right
    constructor
    · intro l hl a ha
      exact hS.generated ((h.snoc hP).binders_mem hl ha)
    · intro l hl
      rcases List.mem_append.1 hl with hl | hl
      · exact hL.within l hl
      · exact hP.within hT hl
    · refine List.pairwise_append.2 ⟨hL.between, hP.between hT, fun l hl m hm a ha b hb heq => ?_⟩
      exact absurd heq (hS.apart (h.binders_mem hl ha) (hP.binders_mem hm hb))
    · intro m hm hrel
      rcases List.mem_append.1 hm with hm | hm
      · obtain ⟨l, hl, ht⟩ := hL.turns m hm hrel
        exact ⟨l, List.mem_append_left _ hl, ht⟩
      · obtain ⟨l, hl, ht⟩ := hP.turns hm hrel
        exact ⟨l, List.mem_append_right _ hl, ht⟩
    · refine List.pairwise_append.2 ⟨hL.names, hP.names hT, fun l hl m hm hg => ?_⟩
      by_cases hm' : m.ref.isGenerated = true
      · exact hS.apart (h.named_mem hl hg) (hP.named_mem hm hm')
      · simp only [Symbol.isGenerated, bne_iff_ne, ne_eq, not_not] at hg hm'
        omega
    · intro l hl hg m hm a ha
      rcases List.mem_append.1 hl with hl | hl <;> rcases List.mem_append.1 hm with hm | hm
      · exact hL.names_free l hl hg m hm a ha
      · exact (hS.apart (h.named_mem hl hg) (hP.binders_mem hm ha)).symm
      · exact hS.apart (h.binders_mem hm ha) (hP.named_mem hl hg)
      · exact hP.names_free hT hl hg hm ha
    · intro l hl a ha hg
      refine ⟨Nat.one_le_iff_ne_zero.2 (by simpa [Symbol.isGenerated] using hg), ?_⟩
      rcases List.mem_cons.1 ha with rfl | ha
      · exact (hS.token ((h.snoc hP).named_mem hl hg)).2
      · rcases List.mem_append.1 ha with ha | ha
        · exact (hS.token ((h.snoc hP).binders_mem hl ha)).2
        · exact hr l hl a ha

end Owns

end Owning

end Hoist.Flat
