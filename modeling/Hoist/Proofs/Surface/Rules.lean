import Hoist.Proofs.Surface.Plain
import Hoist.Proofs.Surface.Reading
import Hoist.Proofs.Surface.Unplaced

/-!
# The rules of the grammar by looseness

There is one rule for each looseness, and each rule passes on what the next tighter one reads unless the
next token belongs to it. `reach` and `entry` say to which rule a token behind an expression and one
at its front belong. An expression of some looseness is therefore read by all looser rules as well,
where it ends for them (`lift_rules`).
-/

namespace Hoist.Surface

open Grammar

/-- The least looseness at which a token of a kind goes on with an expression that stands before it,
beyond all rules if it never does. -/
def reach : Kind → Nat
  | .string => 0
  | .mark .parenOpen | .mark .bracketOpen | .mark .dot => 1
  | .mark .doubleStar => 2
  | .mark .star | .mark .at | .mark .slash | .mark .doubleSlash | .mark .percent => 4
  | .mark .plus | .mark .minus => 5
  | .mark .lshift | .mark .rshift => 6
  | .mark .ampersand => 7
  | .mark .caret => 8
  | .mark .pipe => 9
  | .mark .doubleEq | .mark .notEq | .mark .less | .mark .lessEq | .mark .greater | .mark .greaterEq
  | .word .is_ | .word .in_ | .word .not_ => 10
  | .word .and_ => 12
  | .word .or_ => 13
  | .word .if_ => 14
  | .mark .comma => 15
  | _ => 16

/-- An expression of some looseness ends before the next of some lexemes. -/
def Stops (p : Nat) (ls : List Lexeme) : Prop := p < reach (nextKind ls)

theorem stops_cons {p : Nat} {x : Lexeme} {ls : List Lexeme} (h : p < reach x.kind) :
    Stops p (x :: ls) := h

theorem Stops.mono {p q : Nat} {ls : List Lexeme} (h : Stops q ls) (hpq : p ≤ q) : Stops p ls :=
  Nat.lt_of_le_of_lt hpq h

theorem Stops.ne {p : Nat} {ls : List Lexeme} {k : Kind} (h : Stops p ls) (hk : reach k ≤ p) :
    nextKind ls ≠ k := by
  rintro rfl
  exact absurd h (Nat.not_lt.2 hk)

theorem ne_of_entry {p : Nat} {ls : List Lexeme} {k : Kind} (h : entry (nextKind ls) ≤ p)
    (hk : p < entry k) : nextKind ls ≠ k := by
  rintro rfl
  exact absurd h (Nat.not_le.2 hk)

theorem startsExpression_of_entry {k : Kind} (h : entry k ≤ 15) : startsExpression k = true := by
  unfold entry at h
  split at h <;> first | rfl | exact absurd h (by decide)

/-- The binary operators of a looseness, but for powers. -/
def levelOperators : Nat → List Operator
  | 4 => [.mult, .div, .floorDiv, .mod, .matMult]
  | 5 => [.add, .sub]
  | 6 => [.lshift, .rshift]
  | 7 => [.bitAnd]
  | 8 => [.bitXor]
  | 9 => [.bitOr]
  | _ => []

/-- Binary operators from those of looseness 4 up to those of looseness `k + 3`. -/
def binaryAt (g : Grammar) : Nat → Reader Expr
  | 0 => factorRule g
  | k + 1 => binaryLevel (levelOperators (k + 4)) (binaryAt g k)

/-- The rule that reads expressions up to a looseness. -/
def ruleAt (g : Grammar) : Nat → Reader Expr
  | 0 => atom g
  | 1 => atomExpr g
  | 2 => power g
  | 3 => binaryAt g 0
  | 4 => binaryAt g 1
  | 5 => binaryAt g 2
  | 6 => binaryAt g 3
  | 7 => binaryAt g 4
  | 8 => binaryAt g 5
  | 9 => binaryAt g 6
  | 10 => comparison g
  | 11 => notRule g
  | 12 => connective .and_ .and (notRule g)
  | 13 => orRule g
  | _ => testRule g

/-- The loop that goes on with an expression of a looseness: calls, subscripts and attributes, or the
operators of one level. -/
def loopAt (g : Grammar) (p : Nat) : Nat → Expr → Reader Expr :=
  if p = 1 then trailerLoop g else leftFold (levelOperators p) (ruleAt g (p - 1))

/-- Whether expressions of a looseness are read by a loop that goes on with what it has read. -/
def IsLoop (p : Nat) : Prop := p = 1 ∨ 4 ≤ p ∧ p ≤ 9

theorem ruleAt_loop (g : Grammar) {p : Nat} (hp : IsLoop p) : ruleAt g p =
    (do
      let e ← ruleAt g (p - 1)
      loopAt g p (← Reader.remaining) e) := by
  obtain rfl | ⟨hle, hge⟩ := hp
  · rfl
  · obtain rfl | rfl | rfl | rfl | rfl | rfl : p = 4 ∨ p = 5 ∨ p = 6 ∨ p = 7 ∨ p = 8 ∨ p = 9 := by omega
    all_goals rfl

theorem levelOperators_looseness (p : Nat) : ∀ op ∈ levelOperators p, op.looseness = p := by
  unfold levelOperators
  split
  all_goals first | decide | simp

theorem unaryOperator_entry {k : Kind} {op : Operator} (h : unaryOperator? k = some op) :
    entry k = 3 := by
  unfold unaryOperator? at h
  split at h <;> first | rfl | cases h

theorem binaryOperator_reach {k : Kind} {op : Operator} (h : binaryOperator? k = some op) :
    reach k = op.looseness := by
  unfold binaryOperator? at h
  split at h <;> cases h <;> rfl

section Lifting

variable {g : Grammar} {p turns : Nat} {e b : Expr} {ls rest : List Lexeme}
  {post : Expr → List Lexeme → Prop}

theorem trailerLoop_stops (hstops : Stops 1 ls) (h : post e ls) :
    Reads (trailerLoop g turns e) ls post := by
  cases turns with
  | zero => exact .pure h
  | succ turns =>
    refine .peek ?_
    split
    iterate 3
      rename_i hk
      exact absurd hk (hstops.ne (by decide))
    exact .pure h

theorem leftFold_stops {operators : List Operator} {operand : Reader Expr}
    (hops : ∀ op ∈ operators, op.looseness = p) (hstops : Stops p ls) (h : post e ls) :
    Reads (leftFold operators operand turns e) ls post := by
  cases turns with
  | zero => exact .pure h
  | succ turns =>
    refine .peek ?_
    split
    · exact .pure h
    · rename_i op hop
      have hmem : operators.contains op = false := by
        rw [List.contains_eq_mem, decide_eq_false_iff_not]
        intro hop'
        have := binaryOperator_reach hop
        have := hops op hop'
        unfold Stops at hstops
        omega
      rw [hmem]
      exact .pure h

theorem loopAt_stops (hp : IsLoop p) (hstops : Stops p ls) (h : post e ls) :
    Reads (loopAt g p turns e) ls post := by
  unfold loopAt
  split
  · rename_i hp'
    subst hp'
    exact trailerLoop_stops hstops h
  · exact leftFold_stops (levelOperators_looseness p) hstops h

theorem comparison_stops (hstops : Stops 10 ls) : comparison? (.ofTokens (placed 0 ls)) = none := by
  have hk : (Cursor.ofTokens (placed 0 ls)).head.kind = nextKind ls :=
    Cursor.kind_head_placed ls
  unfold Stops at hstops
  unfold comparison?
  rw [hk]
  split <;> first | rfl | (rename_i hk'; rw [hk'] at hstops; exact absurd hstops (by decide))

theorem comparisonLoop_stops (hstops : Stops 10 ls) : Yields id (comparisonLoop g turns) [] ls ls := by
  cases turns with
  | zero => exact .pure ⟨rfl, rfl⟩
  | succ turns =>
    refine .get fun c hc => ?_
    rw [Cursor.comparison_eq hc, comparison_stops hstops]
    exact .pure ⟨rfl, rfl⟩

theorem connectiveLoop_stops {word : Word} {operand : Reader Expr} (hword : nextKind ls ≠ .word word) :
    Yields id (connectiveLoop word operand turns) [] ls ls := by
  cases turns with
  | zero => exact .pure ⟨rfl, rfl⟩
  | succ turns => exact .other hword (.pure ⟨rfl, rfl⟩)

theorem connective_stops {word : Word} {op : Operator} {operand : Reader Expr}
    (h : Yields Expr.unplaced operand b ls rest) (hword : nextKind rest ≠ .word word) :
    Yields Expr.unplaced (connective word op operand) b ls rest := by
  refine h.bind fun a ha => .remaining ((connectiveLoop_stops hword).bind ?_)
  rintro _ rfl
  exact .pure ⟨ha, rfl⟩

/-- A rule reads what the next tighter rule reads, when nothing goes on with it and it does not start
with a token of the rule itself. -/
theorem lift_rule (hp : p < 14) (h : Yields Expr.unplaced (ruleAt g p) b ls rest)
    (hstops : Stops (p + 1) rest) (hentry : entry (nextKind ls) ≤ p) :
    Yields Expr.unplaced (ruleAt g (p + 1)) b ls rest := by
  by_cases hloop : IsLoop (p + 1)
  · rw [ruleAt_loop g hloop]
    exact h.bind fun a ha => .remaining (loopAt_stops hloop hstops ⟨ha, rfl⟩)
  obtain rfl | rfl | rfl | rfl | rfl | rfl | rfl :
      p = 1 ∨ p = 2 ∨ p = 9 ∨ p = 10 ∨ p = 11 ∨ p = 12 ∨ p = 13 := by
    unfold IsLoop at hloop
    omega
  -- powers, signs, comparisons, `not`, `and`, `or`, and lambdas with conditionals
  · exact h.bind fun a ha => .other (hstops.ne (by decide)) (.pure ⟨ha, rfl⟩)
  · refine .peek ?_
    split
    · exact h
    · rename_i op hop
      have := unaryOperator_entry hop
      omega
  · refine h.bind fun a ha => .remaining ((comparisonLoop_stops hstops).bind ?_)
    rintro _ rfl
    exact .pure ⟨ha, rfl⟩
  · exact .other (ne_of_entry hentry (by decide)) h
  · exact connective_stops h (hstops.ne (by decide))
  · exact connective_stops h (hstops.ne (by decide))
  · exact .missed (ne_of_entry hentry (by decide))
      (h.bind fun a ha => .other (hstops.ne (by decide)) (.pure ⟨ha, rfl⟩))

/-- A rule reads what a tighter rule reads, when nothing goes on with it and it does not start with a
token of a looser rule. -/
theorem lift_rules {q : Nat} (hpq : p ≤ q) (hq : q ≤ 14)
    (h : Yields Expr.unplaced (ruleAt g p) b ls rest) (hstops : Stops q rest)
    (hentry : entry (nextKind ls) ≤ p) : Yields Expr.unplaced (ruleAt g q) b ls rest := by
  induction q, hpq using Nat.le_induction with
  | base => exact h
  | succ q hpq ih =>
    exact lift_rule hq (ih (by omega) (hstops.mono (by omega))) hstops (Nat.le_trans hentry hpq)

/-- With some lexemes before it a rule gets to its loop, with an expression read and a rest left. -/
def Leads (g : Grammar) (p : Nat) (e : Expr) (ls rest : List Lexeme) : Prop :=
  ∀ post : Expr → List Lexeme → Prop,
    (∀ a turns, a.unplaced = e.unplaced → rest.length ≤ turns →
      Reads (loopAt g p turns a) rest post) → Reads (ruleAt g p) ls post

theorem leads_of_yields (hp : IsLoop p)
    (h : Yields Expr.unplaced (ruleAt g (p - 1)) e.unplaced ls rest) : Leads g p e ls rest := by
  intro post hloop
  rw [ruleAt_loop g hp]
  exact h.bind fun a ha => .remaining (hloop a _ ha (Nat.le_refl _))

theorem yields_of_leads (hp : IsLoop p) (h : Leads g p e ls rest) (hstops : Stops p rest) :
    Yields Expr.unplaced (ruleAt g p) e.unplaced ls rest :=
  h _ fun _ _ ha _ => loopAt_stops hp hstops ⟨ha, rfl⟩

end Lifting

end Hoist.Surface
