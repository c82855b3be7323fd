import Hoist.Proofs.Surface.Rules

/-!
# Readable expressions

`Readable` is what the induction over expressions carries: how the form of an expression starts, that
every rule reads it up to a token at which it ends, and that the loops of calls and of binary operators
get past it. The number of levels of rules that are needed is bounded by the number of lexemes, since a
rule goes one level down only behind a token that it has taken.
-/

namespace Hoist.Surface

open Grammar

/-- The form of an expression is read back in every position. -/
structure Readable (bare : Bool) (e : Expr) : Prop where
  fronted (p : Nat) : Fronted p (e.write bare p)
  reads (n p : Nat) (rest : List Lexeme) (hp : p ≤ 14) (hstops : Stops p rest)
    (hlen : (e.write bare p ++ rest).length ≤ n + 1) :
    Yields Expr.unplaced (ruleAt (.level n) p) e.unplaced (e.write bare p ++ rest) rest
  /-- At the front of an expression of its own looseness it is the operand of the next operator. -/
  leads (n p : Nat) (rest : List Lexeme) (hp : IsLoop p) (hstops : Stops (p - 1) rest)
    (hlen : (e.write bare p ++ rest).length ≤ n + 1) :
    Leads (.level n) p e (e.write bare p ++ rest) rest

namespace Readable

variable {bare : Bool} {e : Expr} {n p : Nat} {rest : List Lexeme}

theorem write_ne_nil (h : Readable bare e) (hp : p ≤ 15) : e.write bare p ≠ [] :=
  (h.fronted p).ne_nil hp

theorem starts (h : Readable bare e) (hp : p ≤ 15) :
    startsExpression (nextKind (e.write bare p)) = true :=
  startsExpression_of_entry (Nat.le_trans (h.fronted p).entry hp)

theorem starts_append (h : Readable bare e) (hp : p ≤ 15) :
    startsExpression (nextKind (e.write bare p ++ rest)) = true :=
  startsExpression_of_entry (Nat.le_trans ((h.fronted p).entry_append hp) hp)

theorem next_ne (h : Readable bare e) (hp : p ≤ 15) {k : Kind} (hk : p < entry k) :
    nextKind (e.write bare p ++ rest) ≠ k :=
  ne_of_entry ((h.fronted p).entry_append hp) hk

/-- One level up, the rules behind a token read what the rules of the level read. -/
theorem level_succ (h : Readable bare e) (hp : p ≤ 14) (hlen : (e.write bare p ++ rest).length ≤ n) :
    ∃ m, n = m + 1 := by
  have := List.length_pos_iff.2 (h.write_ne_nil (p := p) (by omega))
  rw [List.length_append] at hlen
  exact ⟨n - 1, by omega⟩

theorem test (h : Readable bare e) (hstops : Stops 14 rest)
    (hlen : (e.write bare 14 ++ rest).length ≤ n) :
    Yields Expr.unplaced (level n).test e.unplaced (e.write bare 14 ++ rest) rest := by
  obtain ⟨n, rfl⟩ := h.level_succ (by decide) hlen
  exact h.reads n 14 rest (by decide) hstops hlen

theorem orTest (h : Readable bare e) (hstops : Stops 13 rest)
    (hlen : (e.write bare 13 ++ rest).length ≤ n) :
    Yields Expr.unplaced (level n).orTest e.unplaced (e.write bare 13 ++ rest) rest := by
  obtain ⟨n, rfl⟩ := h.level_succ (by decide) hlen
  exact h.reads n 13 rest (by decide) hstops hlen

theorem notTest (h : Readable bare e) (hstops : Stops 11 rest)
    (hlen : (e.write bare 11 ++ rest).length ≤ n) :
    Yields Expr.unplaced (level n).notTest e.unplaced (e.write bare 11 ++ rest) rest := by
  obtain ⟨n, rfl⟩ := h.level_succ (by decide) hlen
  exact h.reads n 11 rest (by decide) hstops hlen

theorem bitOr (h : Readable bare e) (hstops : Stops 9 rest)
    (hlen : (e.write bare 9 ++ rest).length ≤ n) :
    Yields Expr.unplaced (level n).bitOr e.unplaced (e.write bare 9 ++ rest) rest := by
  obtain ⟨n, rfl⟩ := h.level_succ (by decide) hlen
  exact h.reads n 9 rest (by decide) hstops hlen

theorem factor (h : Readable bare e) (hstops : Stops 3 rest)
    (hlen : (e.write bare 3 ++ rest).length ≤ n) :
    Yields Expr.unplaced (level n).factor e.unplaced (e.write bare 3 ++ rest) rest := by
  obtain ⟨n, rfl⟩ := h.level_succ (by decide) hlen
  exact h.reads n 3 rest (by decide) hstops hlen

end Readable

end Hoist.Surface
