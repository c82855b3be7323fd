import Hoist.Proofs.Surface.Lexemes
import Hoist.Surface.Tree

/-!
# How expressions are written

The reference form of an expression has as few parentheses as the grammar allows. Every expression has
a looseness, which grows with how loosely it binds, and every position in an expression admits some
looseness:

* 0: names, constants, displays and whatever stands in parentheses,
* 1: calls, subscripts and attributes,
* 2: powers,
* 3: signs,
* 4 to 9: products, sums, shifts, `&`, `^` and `|`,
* 10: comparisons,
* 11 to 13: `not`, `and` and `or`,
* 14: conditionals and lambdas,
* 15: tuples, which are lists of expressions.

A part of an expression stands in parentheses exactly when it is looser than its position admits. A
position that admits a list holds the elements of a tuple one after the other; with `bare` unset a tuple
has its parentheses there as well.
-/

namespace Hoist.Surface

namespace Operator

/-- How loosely the operations of an operator bind. -/
def looseness : Operator → Nat
  | .pow => 2
  | .plus | .minus | .invert => 3
  | .mult | .matMult | .div | .floorDiv | .mod => 4
  | .add | .sub => 5
  | .lshift | .rshift => 6
  | .bitAnd => 7
  | .bitXor => 8
  | .bitOr => 9
  | .eq | .notEq | .lt | .ltE | .gt | .gtE | .is | .isNot | .isIn | .notIn => 10
  | .not => 11
  | .and => 12
  | .or => 13

/-- What the left operand of a binary operation may be: a power has no sign there. -/
def left (op : Operator) : Nat := if op = .pow then 1 else op.looseness

/-- What the right operand of a binary operation may be: a power has a sign there. -/
def right (op : Operator) : Nat := if op = .pow then 3 else op.looseness - 1

/-- The lexemes of an operator. -/
def lexemes : Operator → List Lexeme
  | .add | .plus => [.mark .plus]
  | .sub | .minus => [.mark .minus]
  | .mult => [.mark .star]
  | .matMult => [.mark .at]
  | .div => [.mark .slash]
  | .floorDiv => [.mark .doubleSlash]
  | .mod => [.mark .percent]
  | .pow => [.mark .doubleStar]
  | .lshift => [.mark .lshift]
  | .rshift => [.mark .rshift]
  | .bitOr => [.mark .pipe]
  | .bitXor => [.mark .caret]
  | .bitAnd => [.mark .ampersand]
  | .invert => [.mark .tilde]
  | .not => [.word .not_]
  | .eq => [.mark .doubleEq]
  | .notEq => [.mark .notEq]
  | .lt => [.mark .less]
  | .ltE => [.mark .lessEq]
  | .gt => [.mark .greater]
  | .gtE => [.mark .greaterEq]
  | .is => [.word .is_]
  | .isNot => [.word .is_, .word .not_]
  | .isIn => [.word .in_]
  | .notIn => [.word .not_, .word .in_]
  | .and => [.word .and_]
  | .or => [.word .or_]

/-- Whether an operator stands between two operands. -/
def isBinary (op : Operator) : Bool := op.looseness == 2 || (4 ≤ op.looseness && op.looseness ≤ 9)

/-- Whether an operator stands before its operand. -/
def isUnary (op : Operator) : Bool := op.looseness == 3 || op.looseness == 11

/-- Whether an operator compares. -/
def isComparison (op : Operator) : Bool := op.looseness == 10

/-- Whether an operator joins any number of operands. -/
def isConnective (op : Operator) : Bool := op.looseness == 12 || op.looseness == 13

end Operator

/-- How loosely an expression binds. -/
def Expr.looseness : Expr → Nat
  | .tuple _ (_ :: _) => 15
  | .lambda .. | .conditional .. => 14
  | .boolean _ op _ | .unary _ op _ | .binary _ op _ _ => op.looseness
  | .compare .. => 10
  | .call .. | .attribute .. | .subscript .. => 1
  | _ => 0

/-- Pieces with commas between them. -/
def commas : List (List Lexeme) → List Lexeme
  | [] => []
  | [ls] => ls
  | ls :: ms :: pieces => ls ++ .mark .comma :: commas (ms :: pieces)

/-- The form of an expression in parentheses. -/
def wrapped (ls : List Lexeme) : List Lexeme := .mark .parenOpen :: (ls ++ [.mark .parenClose])

/-- The elements of a tuple: a comma follows a single one, and parentheses stand for none. -/
def listed : List (List Lexeme) → List Lexeme
  | [] => wrapped []
  | [ls] => ls ++ [.mark .comma]
  | lss => commas lss

/-- The form of an expression in a position that admits some looseness. -/
def within (p : Nat) (e : Expr) (body : List Lexeme) : List Lexeme :=
  if p < e.looseness then wrapped body else body

/-- The form of an expression in a position that admits a list of elements, given its form there. -/
def withinList (bare : Bool) (p : Nat) (e : Expr) (body list : List Lexeme) : List Lexeme :=
  if bare && e.looseness == 15 then list else within p e body

/-- The form of the parameters of a function. -/
def paramLexemes (ps : Params Expr) : List Lexeme :=
  commas (ps.positional.map fun p => [.name p.name])

/-- What stands before the value of a keyword argument. -/
def keywordLexemes : Option String → List Lexeme
  | some n => [.name n, .mark .equal]
  | none => [.mark .doubleStar]

mutual

/-- The form of an expression without parentheses of its own. Elements of a tuple stand in positions
that admit the looseness `q`. -/
def Expr.body (bare : Bool) : Expr → Nat → List Lexeme
  | .name _ id, _ => [.name id]
  | .constant _ v, _ => [.literal v]
  | .binary _ op l r, _ =>
    within op.left l (l.body bare 14) ++ (op.lexemes ++ within op.right r (r.body bare 14))
  | .unary _ op x, _ => op.lexemes ++ within op.looseness x (x.body bare 14)
  | .boolean _ op vs, _ => joined bare op vs
  | .compare _ l rest, _ => within 9 l (l.body bare 14) ++ comparisonForms bare rest
  | .call _ f args ks, _ =>
    within 1 f (f.body bare 14) ++
      wrapped (commas (pieces bare 14 args ++ keywordPieces bare ks))
  | .attribute _ v a, _ => within 1 v (v.body bare 14) ++ [.mark .dot, .name a]
  | .subscript _ v i, _ =>
    within 1 v (v.body bare 14) ++ .mark .bracketOpen ::
      (withinList bare 14 i (i.body bare 14) (i.body bare 14) ++ [.mark .bracketClose])
  | .slice _ a b c, _ =>
    optionForm bare a ++ .mark .colon :: (optionForm bare b ++ stepForm bare c)
  | .extSlice _ dims, _ => listed (pieces bare 14 dims)
  | .tuple _ es, q => listed (pieces bare q es)
  | .list _ es, _ =>
    .mark .bracketOpen :: (commas (pieces bare 14 es) ++ [.mark .bracketClose])
  | .dict _ entries, _ =>
    .mark .braceOpen :: (commas (entryPieces bare entries) ++ [.mark .braceClose])
  | .lambda _ ps b, _ =>
    .word .lambda_ :: (paramLexemes ps ++ .mark .colon :: within 14 b (b.body bare 14))
  | .conditional _ t b o, _ =>
    within 13 b (b.body bare 14) ++ .word .if_ :: (within 13 t (t.body bare 14) ++
      .word .else_ :: within 14 o (o.body bare 14))
  | .listComp _ e gs, _ =>
    .mark .bracketOpen ::
      (within 14 e (e.body bare 14) ++ (generatorForms bare gs ++ [.mark .bracketClose]))
  | .starred _ v, _ => .mark .star :: within 9 v (v.body bare 14)
  | .yield _ v, _ => .word .yield_ :: optionForm bare v

/-- The forms of expressions in positions that admit some looseness. -/
def pieces (bare : Bool) (p : Nat) : List Expr → List (List Lexeme)
  | [] => []
  | e :: es => within p e (e.body bare 14) :: pieces bare p es

/-- The form of expressions joined by a connective. -/
def joined (bare : Bool) (op : Operator) : List Expr → List Lexeme
  | [] => []
  | [e] => within (op.looseness - 1) e (e.body bare 14)
  | e :: e' :: es =>
    within (op.looseness - 1) e (e.body bare 14) ++ (op.lexemes ++ joined bare op (e' :: es))

/-- The form of the values of a chain of comparisons. -/
def comparisonForms (bare : Bool) : List (Operator × Expr) → List Lexeme
  | [] => []
  | (op, e) :: rest => op.lexemes ++ (within 9 e (e.body bare 14) ++ comparisonForms bare rest)

/-- The forms of keyword arguments. -/
def keywordPieces (bare : Bool) : List (Keyword Expr) → List (List Lexeme)
  | [] => []
  | ⟨_, n, v⟩ :: ks => (keywordLexemes n ++ within 14 v (v.body bare 14)) :: keywordPieces bare ks

/-- The form of a part of a slice. -/
def optionForm (bare : Bool) : Option Expr → List Lexeme
  | none => []
  | some e => within 14 e (e.body bare 14)

/-- The form of the step of a slice. -/
def stepForm (bare : Bool) : Option Expr → List Lexeme
  | none => []
  | some e => .mark .colon :: within 14 e (e.body bare 14)

/-- The forms of the entries of a dict display. -/
def entryPieces (bare : Bool) : List (Expr × Expr) → List (List Lexeme)
  | [] => []
  | (k, v) :: entries =>
    (within 14 k (k.body bare 14) ++ .mark .colon :: within 14 v (v.body bare 14)) ::
      entryPieces bare entries

/-- The form of the loops of a comprehension. -/
def generatorForms (bare : Bool) : List (Generator Expr) → List Lexeme
  | [] => []
  | ⟨t, i, cs⟩ :: gs =>
    .word .for_ :: (withinList bare 9 t (t.body bare 14) (t.body bare 9) ++
      .word .in_ :: (within 13 i (i.body bare 14) ++ (conditionForms bare cs ++
        generatorForms bare gs)))

/-- The form of the conditions of a loop. -/
def conditionForms (bare : Bool) : List Expr → List Lexeme
  | [] => []
  | e :: es => .word .if_ :: (within 13 e (e.body bare 14) ++ conditionForms bare es)

end

/-- The form of an expression in a position that admits some looseness. -/
def Expr.write (bare : Bool) (p : Nat) (e : Expr) : List Lexeme := within p e (e.body bare 14)

/-- The form of an expression in a position that admits a list, whose elements may be of some
looseness. -/
def Expr.writeList (bare : Bool) (p : Nat) (e : Expr) : List Lexeme :=
  withinList bare p e (e.body bare 14) (e.body bare p)

@[simp] theorem pieces_eq (bare : Bool) (p : Nat) (es : List Expr) :
    pieces bare p es = es.map (Expr.write bare p) := by
  induction es with
  | nil => rfl
  | cons e es ih => rw [pieces, ih]; rfl

/-- The form of a keyword argument. -/
def Keyword.write (bare : Bool) (k : Keyword Expr) : List Lexeme :=
  keywordLexemes k.name? ++ k.value.write bare 14

@[simp] theorem keywordPieces_eq (bare : Bool) (ks : List (Keyword Expr)) :
    keywordPieces bare ks = ks.map (Keyword.write bare) := by
  induction ks with
  | nil => rfl
  | cons k ks ih => rw [keywordPieces, ih]; rfl

/-- The form of an entry of a dict display. -/
def entryForm (bare : Bool) (p : Expr × Expr) : List Lexeme :=
  p.1.write bare 14 ++ .mark .colon :: p.2.write bare 14

@[simp] theorem entryPieces_eq (bare : Bool) (entries : List (Expr × Expr)) :
    entryPieces bare entries = entries.map (entryForm bare) := by
  induction entries with
  | nil => rfl
  | cons p entries ih => rw [entryPieces, ih]; rfl

theorem Expr.looseness_le (e : Expr) : e.looseness ≤ 15 := by
  have hop : ∀ op : Operator, op.looseness ≤ 15 := fun op => by cases op <;> decide
  unfold looseness
  split <;> first | decide | exact hop _

theorem Expr.write_of_lt {bare : Bool} {p : Nat} {e : Expr} (h : p < e.looseness) :
    e.write bare p = wrapped (e.body bare 14) := if_pos h

theorem Expr.write_of_le {bare : Bool} {p : Nat} {e : Expr} (h : e.looseness ≤ p) :
    e.write bare p = e.body bare 14 := if_neg (Nat.not_lt.2 h)

theorem Expr.exists_tuple (e : Expr) (h : e.looseness = 15) : ∃ s x es, e = .tuple s (x :: es) := by
  have hop : ∀ op : Operator, op.looseness ≠ 15 := fun op => by cases op <;> decide
  unfold looseness at h
  split at h
  · exact ⟨_, _, _, rfl⟩
  all_goals first | exact absurd h (by decide) | exact absurd h (hop _)

/-- Where a list is admitted an expression is written as it is, but for the elements of a tuple. -/
theorem Expr.writeList_cases (bare : Bool) (p : Nat) (e : Expr) :
    e.writeList bare p = e.write bare p ∨ ∃ s x es, e = .tuple s (x :: es) ∧
      e.writeList bare p = listed ((x :: es).map (Expr.write bare p)) := by
  unfold writeList withinList
  split
  · rename_i h
    simp only [Bool.and_eq_true, beq_iff_eq] at h
    obtain ⟨s, x, es, rfl⟩ := e.exists_tuple h.2
    exact .inr ⟨s, x, es, rfl, by rw [body, pieces_eq]⟩
  · exact .inl rfl

@[simp] theorem listed_cons_cons (ls ms : List Lexeme) (lss : List (List Lexeme)) :
    listed (ls :: ms :: lss) = ls ++ .mark .comma :: commas (ms :: lss) := rfl

/-- What stands behind the first element of a tuple. -/
def behind : List (List Lexeme) → List Lexeme
  | [] => [.mark .comma]
  | ls :: lss => (ls :: lss).flatMap (.mark .comma :: ·)

/-- All pieces but the first stand behind a comma. -/
theorem commas_cons (ls : List Lexeme) (lss : List (List Lexeme)) :
    commas (ls :: lss) = ls ++ lss.flatMap (.mark .comma :: ·) := by
  induction lss generalizing ls with
  | nil => simp [commas]
  | cons ms lss ih => rw [commas, ih ms, List.flatMap_cons, List.cons_append]

theorem listed_cons (ls : List Lexeme) (lss : List (List Lexeme)) :
    listed (ls :: lss) = ls ++ behind lss := by
  cases lss with
  | nil => rfl
  | cons ms lss => exact commas_cons ls (ms :: lss)

end Hoist.Surface
