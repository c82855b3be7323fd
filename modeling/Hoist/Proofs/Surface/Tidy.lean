import Mathlib.Algebra.Group.Nat.Defs
import Hoist.Proofs.Surface.Accepted
import Hoist.Proofs.Surface.Mentions

/-!
# Tidy statements

What lowering keeps the meaning of: a function does not mention its own name, which inside it stands
for its bare lambda; and conditionals and loops define no functions, which would not leave them. The
names that a conditional or a loop hands on in a tuple must be few enough to be counted.

Programs without functions inside are tidy if they assign so few names, and so are programs without
conditionals and loops whose functions do not mention themselves.
-/

namespace Hoist.Surface

mutual

/-- Whether a statement defines a function, at any depth but inside other functions. -/
def Stmt.defines : Stmt → Bool
  | .functionDef .. => true
  | .ifElse _ _ b o => blockDefines b || blockDefines o
  | .whileLoop _ _ b _ => blockDefines b
  | _ => false

/-- Whether one of some statements defines a function. -/
def blockDefines : List Stmt → Bool
  | [] => false
  | s :: ss => s.defines || blockDefines ss

end

mutual

/-- Whether a statement is tidy. -/
def Stmt.isTidy : Stmt → Bool
  | .functionDef _ f _ b _ => !(blockMentions b).contains f && blockIsTidy b
  | .ifElse _ _ b o =>
    !blockDefines b && !blockDefines o && decide ((blockAssigns b).length < 2 ^ 63) &&
      blockIsTidy b && blockIsTidy o
  | .whileLoop _ _ b _ =>
    !blockDefines b && decide ((blockAssigns b).length < 2 ^ 63) && blockIsTidy b
  | _ => true

/-- Whether statements are tidy. -/
def blockIsTidy : List Stmt → Bool
  | [] => true
  | s :: ss => s.isTidy && blockIsTidy ss

end

/-- Without functions, all that statements declare is what they assign. -/
theorem blockDeclares_eq {b : List Stmt} (h : blockDefines b = false) :
    blockDeclares b = blockAssigns b := by
  induction b with
  | nil => rfl
  | cons s b ih =>
    simp only [blockDefines, Bool.or_eq_false_iff] at h
    have hs : s.declares = s.assigns := by
      cases s with
      | functionDef => simp [Stmt.defines] at h
      | _ => rfl
    rw [blockDeclares, List.flatMap_cons, hs]
    exact congrArg _ (ih h.2)

/-- Whether a module is a function that is tidy and does not mention itself. -/
def Module.isTidy (m : Module) : Bool :=
  match m.body with
  | [.functionDef _ f _ b _] => !(blockMentions b).contains f && blockIsTidy b
  | _ => false

/-- The names that a module assigns, as often as it does. -/
def Module.targets (m : Module) : List String :=
  match m.body with
  | [.functionDef _ _ _ b _] => blockTargets b
  | _ => []

mutual

/-- Whether a statement computes, assigns, decides, repeats or returns, and so do those inside it. -/
def Stmt.isImperative : Stmt → Bool
  | .expr .. | .assign .. | .augAssign .. | .returnValue .. => true
  | .ifElse _ _ b o => blockIsImperative b && blockIsImperative o
  | .whileLoop _ _ b _ => blockIsImperative b
  | _ => false

/-- Whether statements are imperative. -/
def blockIsImperative : List Stmt → Bool
  | [] => true
  | s :: ss => s.isImperative && blockIsImperative ss

end

/-- Whether a module is an imperative function that does not mention itself. -/
def Module.isImperative (m : Module) : Bool :=
  match m.body with
  | [.functionDef _ f _ b _] => !(blockMentions b).contains f && blockIsImperative b
  | _ => false

mutual

/-- Whether a statement computes, assigns, returns or defines a function of such statements, which does
not mention itself. -/
def Stmt.isFunctional : Stmt → Bool
  | .expr .. | .assign .. | .augAssign .. | .returnValue .. => true
  | .functionDef _ f _ b _ => !(blockMentions b).contains f && blockIsFunctional b
  | _ => false

/-- Whether statements are functional. -/
def blockIsFunctional : List Stmt → Bool
  | [] => true
  | s :: ss => s.isFunctional && blockIsFunctional ss

end

/-- Whether a module is a function of functional statements, which does not mention itself. -/
def Module.isFunctional (m : Module) : Bool :=
  match m.body with
  | [.functionDef _ f _ b _] => !(blockMentions b).contains f && blockIsFunctional b
  | _ => false

section

variable {b : List Stmt} {m : Module}

theorem length_blockAssigns_le (ih : ∀ s ∈ b, s.assigns.length ≤ s.targets.length) :
    (blockAssigns b).length ≤ (blockTargets b).length := by
  induction b with
  | nil => exact Nat.le_refl 0
  | cons s b ihb =>
    simp only [blockAssigns, blockTargets, List.length_append]
    exact Nat.add_le_add (ih s (by simp)) (ihb fun s hs => ih s (List.mem_cons_of_mem _ hs))

theorem Stmt.length_assigns_le (s : Stmt) : s.assigns.length ≤ s.targets.length := by
  induction s using Stmt.ind with
  | ifElse sp t b o ihb iho =>
    simp only [assigns, targets, List.length_append]
    split
    · exact Nat.zero_le _
    · exact Nat.le_add_right_of_le (length_blockAssigns_le ihb)
  | whileLoop sp t b o ih => exact length_blockAssigns_le ih
  | foreign s hf => cases s <;> simp [Stmt.isForeign] at hf <;> exact Nat.le_refl _
  | _ => exact Nat.le_refl _

theorem blockIsTidy_of_imperative
    (ih : ∀ s ∈ b, s.isImperative = true → s.targets.length < 2 ^ 63 →
      s.isTidy = true ∧ s.defines = false)
    (h : blockIsImperative b = true) (hcount : (blockTargets b).length < 2 ^ 63) :
    blockIsTidy b = true ∧ blockDefines b = false := by
  induction b with
  | nil => exact ⟨rfl, rfl⟩
  | cons s b ihb =>
    simp only [blockIsImperative, Bool.and_eq_true] at h
    rw [blockTargets, List.length_append] at hcount
    obtain ⟨htidy, hdefines⟩ := ih s (by simp) h.1 (by omega)
    obtain ⟨htidy', hdefines'⟩ := ihb (fun s hs => ih s (List.mem_cons_of_mem _ hs)) h.2 (by omega)
    simp [blockIsTidy, blockDefines, htidy, hdefines, htidy', hdefines']

/-- An imperative statement that assigns countably many names is tidy. -/
theorem Stmt.isTidy_of_imperative (s : Stmt) : s.isImperative = true → s.targets.length < 2 ^ 63 →
    s.isTidy = true ∧ s.defines = false := by
  have hassigns : ∀ b : List Stmt, (blockAssigns b).length ≤ (blockTargets b).length := fun b =>
    length_blockAssigns_le fun s _ => s.length_assigns_le
  induction s using Stmt.ind with
  | ifElse sp t b o ihb iho =>
    intro h hcount
    simp only [isImperative, Bool.and_eq_true] at h
    rw [targets, List.length_append] at hcount
    obtain ⟨htb, hdb⟩ := blockIsTidy_of_imperative ihb h.1 (by omega)
    obtain ⟨hto, hdo⟩ := blockIsTidy_of_imperative iho h.2 (by omega)
    have hassigned : (blockAssigns b).length < 2 ^ 63 := by
      have := hassigns b
      omega
    refine ⟨?_, by rw [defines, hdb, hdo, Bool.or_false]⟩
    rw [isTidy, htb, hdb, hto, hdo, decide_eq_true hassigned]
    rfl
  | whileLoop sp t b o ih =>
    intro h hcount
    obtain ⟨htb, hdb⟩ := blockIsTidy_of_imperative ih h hcount
    have hassigned := Nat.lt_of_le_of_lt (hassigns b) hcount
    refine ⟨?_, hdb⟩
    rw [isTidy, htb, hdb, decide_eq_true hassigned]
    rfl
  | functionDef sp f ps b ds ih => exact fun h => absurd h Bool.false_ne_true
  | foreign s hf =>
    cases s <;> simp [Stmt.isForeign] at hf <;> exact fun h => absurd h Bool.false_ne_true
  | _ => exact fun _ _ => ⟨rfl, rfl⟩

theorem blockIsTidy_of_functional (ih : ∀ s ∈ b, s.isFunctional = true → s.isTidy = true)
    (h : blockIsFunctional b = true) : blockIsTidy b = true := by
  induction b with
  | nil => rfl
  | cons s b ihb =>
    simp only [blockIsFunctional, Bool.and_eq_true] at h
    rw [blockIsTidy, ih s (by simp) h.1, Bool.true_and]
    exact ihb (fun s hs => ih s (List.mem_cons_of_mem _ hs)) h.2

/-- A functional statement is tidy. -/
theorem Stmt.isTidy_of_functional (s : Stmt) : s.isFunctional = true → s.isTidy = true := by
  induction s using Stmt.ind with
  | functionDef sp f ps b ds ih =>
    intro h
    simp only [isFunctional, Bool.and_eq_true] at h
    rw [isTidy, h.1, blockIsTidy_of_functional ih h.2, Bool.true_and]
  | ifElse sp t b o ihb iho => exact fun h => absurd h Bool.false_ne_true
  | whileLoop sp t b o ih => exact fun h => absurd h Bool.false_ne_true
  | foreign s hf =>
    cases s <;> simp [Stmt.isForeign] at hf <;> exact fun h => absurd h Bool.false_ne_true
  | _ => exact fun _ => rfl

theorem Module.isTidy_of_imperative (h : m.isImperative = true) (hcount : m.targets.length < 2 ^ 63) :
    m.isTidy = true := by
  unfold isImperative at h
  unfold targets at hcount
  unfold isTidy
  split at h
  · rename_i sp f ps b ds hm
    simp only [hm, Bool.and_eq_true] at h hcount ⊢
    exact ⟨h.1, (blockIsTidy_of_imperative (fun s _ => s.isTidy_of_imperative) h.2 hcount).1⟩
  · cases h

theorem Module.isTidy_of_functional (h : m.isFunctional = true) : m.isTidy = true := by
  unfold isFunctional at h
  unfold isTidy
  split at h
  · simp only [Bool.and_eq_true] at h ⊢
    exact ⟨h.1, blockIsTidy_of_functional (fun s _ => s.isTidy_of_functional) h.2⟩
  · cases h

end

end Hoist.Surface
