import Hoist.Flat.Table
import Mathlib.Tactic.Common

/-!
# Shifted tokens

Code whose generated symbols were issued later is the same code with greater tokens. Symbols without a
token keep none. Which symbols are one variable, and which names a table has, does not depend on the
shift.
-/

namespace Hoist.Flat

/-- A symbol that was issued `k` symbols later; one that was not generated stays what it is. -/
def Symbol.shift (k : Nat) (a : Symbol) : Symbol :=
  if a.isGenerated then { a with token := a.token + k } else a

mutual

/-- A node with the tokens of all its symbols shifted. -/
def Node.shift (k : Nat) : Node → Node
  | .ref loc a => .ref loc (a.shift k)
  | .value loc v => .value loc v
  | .tuple loc elems => .tuple loc (shiftAll k elems)
  | .apply loc fn args cannotFail => .apply loc (fn.shift k) (shiftAll k args) cannotFail
  | .letIn loc bindings body => .letIn loc (shiftBindings k bindings) (body.shift k)
  | .begin loc stmts => .begin loc (shiftAll k stmts)
  | .closure loc fn args => .closure loc (fn.shift k) (shiftAll k args)

/-- Several nodes with their tokens shifted. -/
def shiftAll (k : Nat) : List Node → List Node
  | [] => []
  | n :: ns => n.shift k :: shiftAll k ns

/-- Bindings with the tokens of their symbols and nodes shifted. -/
def shiftBindings (k : Nat) : List (Symbol × Node) → List (Symbol × Node)
  | [] => []
  | (a, n) :: rest => (a.shift k, n.shift k) :: shiftBindings k rest

end

/-- A lambda with its tokens shifted. -/
def Lambda.shift (k : Nat) (l : Lambda) : Lambda :=
  ⟨l.ref.shift k, l.params.map (·.shift k), l.body.shift k, l.loc⟩

/-- A table with the tokens of all its lambdas shifted. -/
def Table.shift (k : Nat) (t : Table) : Table := ⟨t.lambdas.map (·.shift k)⟩

variable {k : Nat}

namespace Symbol

@[simp] theorem shift_isGenerated (a : Symbol) : (a.shift k).isGenerated = a.isGenerated := by
  unfold shift
  split
  · rename_i h
    simp only [isGenerated, bne_iff_ne] at h ⊢
    rw [bne_iff_ne.2 h, bne_iff_ne]
    omega
  · rfl

theorem shift_of_isGenerated {a : Symbol} (h : a.isGenerated = true) :
    a.shift k = { a with token := a.token + k } := if_pos h

/-- A symbol without a token is not shifted. -/
theorem shift_of_token {a : Symbol} (h : a.token = 0) : a.shift k = a :=
  if_neg (by simp [isGenerated, h])

@[simp] theorem shift_global (name : String) : (global name).shift k = global name :=
  shift_of_token rfl

@[simp] theorem shift_builtin (name : String) : (builtin name).shift k = builtin name :=
  shift_of_token rfl

@[simp] theorem shift_name (a : Symbol) : (a.shift k).name = a.name := by
  unfold shift
  split <;> rfl

/-- Two shifted symbols are one variable just if they were so before. -/
@[simp] theorem shift_same (a b : Symbol) : (a.shift k).same (b.shift k) = a.same b := by
  unfold same
  rw [shift_isGenerated, shift_isGenerated]
  unfold shift
  cases ha : a.isGenerated <;> cases hb : b.isGenerated <;>
    simp only [isGenerated, bne_iff_ne, bne_eq_false_iff_eq] at ha hb <;> simp [ha, hb]
  all_goals omega

end Symbol

theorem fresh_shift (n : Nat) (name : String) (space : Space) :
    fresh (n + k) name space = (fresh n name space).shift k := by
  rw [Symbol.shift_of_isGenerated (a := fresh n name space) rfl, fresh, fresh, Nat.add_right_comm]

theorem derived_shift (n : Nat) (parent : Symbol) (tag : String) :
    derived (n + k) (parent.shift k) tag = (derived n parent tag).shift k := by
  rw [Symbol.shift_of_isGenerated (a := derived n parent tag) rfl, derived, derived,
    Symbol.shift_name, Nat.add_right_comm]

@[simp] theorem shiftAll_eq_map (ns : List Node) : shiftAll k ns = ns.map (·.shift k) := by
  induction ns with
  | nil => rfl
  | cons n ns ih => rw [shiftAll, ih, List.map_cons]

@[simp] theorem shiftBindings_eq_map (bs : List (Symbol × Node)) :
    shiftBindings k bs = bs.map fun b => (b.1.shift k, b.2.shift k) := by
  induction bs with
  | nil => rfl
  | cons b bs ih => rw [shiftBindings, ih, List.map_cons]

/-- A shift moves no node. -/
@[simp] theorem Node.shift_loc (n : Node) : (n.shift k).loc = n.loc := by
  cases n <;> rfl

namespace Table

@[simp] theorem shift_empty : empty.shift k = empty := rfl

/-- A shifted table takes a shifted lambda just if it did so before. -/
theorem define?_shift (t : Table) (l : Lambda) :
    (t.shift k).define? (l.shift k) = (t.define? l).map (·.shift k) := by
  have htaken : (t.shift k).contains (l.shift k).ref = t.contains l.ref := by
    simp [contains, shift, Lambda.shift, List.any_map, Function.comp_def]
  unfold define?
  rw [htaken]
  cases t.contains l.ref <;> simp [shift]

end Table

end Hoist.Flat
