import Hoist.Proofs.Surface.Operations
import Hoist.Surface.Grammar.Statement

/-!
# Expressions are read back

Reading the reference form of a plain expression gives the expression again, up to the spans of its
parts, and leaves nothing but the end of the line and the end of the input. Parentheses stand in that
form only where a part is looser than its position admits, so the precedences, the associativity of every
operator and the follow sets of all rules have to be right.

`Plain.legible` is an induction on the expression: each construct is read by the rule of its own
looseness, and in every other position either the looser rules pass it on or it stands in parentheses.
-/

namespace Hoist.Surface

open Grammar

section

variable {bare : Bool} {e : Expr} {n : Nat} {rest : List Lexeme}

/-- The form of a plain expression is read back in every position. -/
theorem Plain.legible (h : Plain e) : Legible bare e := by
  induction h with
  | name named => exact ⟨.name (.name named), by simp [Expr.elems]⟩
  | constant written => exact ⟨.constant written, by simp [Expr.elems]⟩
  | @binary s op l r infixed left right ihl ihr =>
    have h := Plain.binary (s := s) infixed left right
    refine ⟨?_, by simp [Expr.elems]⟩
    by_cases hpow : op = .pow
    · subst hpow
      exact .pow h ihl.whole ihr.whole
    · exact .binary h infixed hpow ihl.whole ihr.whole
  | unary prefixed operand ih =>
    exact ⟨.unary (.unary prefixed operand) prefixed ih.whole, by simp [Expr.elems]⟩
  | boolean connects several values ih =>
    exact ⟨.boolean (.boolean connects several values) connects several fun v hv => (ih v hv).whole,
      by simp [Expr.elems]⟩
  | compare nonempty compares left values ihl ihr =>
    exact ⟨.compare (.compare nonempty compares left values) nonempty compares ihl.whole
      fun p hp => (ihr p hp).whole, by simp [Expr.elems]⟩
  | call callee positional named keyed ihf iha ihk =>
    exact ⟨.call (.call callee positional named keyed) ihf.whole (fun a ha => (iha a ha).whole)
      fun k hk => (ihk k hk).whole, by simp [Expr.elems]⟩
  | attr value named ih => exact ⟨.attr (.attr value named) ih.whole, by simp [Expr.elems]⟩
  | subscript value index ihv ihi =>
    refine ⟨.subscript (.subscript value index) index ?_ ihv.whole ihi, by simp [Expr.elems]⟩
    cases index with
    | tuple elems => exact elems
    | _ => simp [Expr.elems]
  | sliced value parts ihv ihp =>
    exact ⟨.sliced (.sliced value parts) ihv.whole fun x hx => (ihp x hx).whole, by simp [Expr.elems]⟩
  | slicedBy value parts slice ihv ihp =>
    exact ⟨.slicedBy (.slicedBy value parts slice) ihv.whole (fun d hd x hx => (ihp d hd x hx).whole)
      slice,
      by simp [Expr.elems]⟩
  | tuple elems ih =>
    exact ⟨.tuple (.tuple elems) fun e he => (ih e he).whole, fun e he => (ih e he).whole⟩
  | list elems ih => exact ⟨.list (.list elems) fun e he => (ih e he).whole, by simp [Expr.elems]⟩
  | dict keys values ihk ihv =>
    exact ⟨.dict (.dict keys values) (fun p hp => (ihk p hp).whole) fun p hp => (ihv p hp).whole,
      by simp [Expr.elems]⟩
  | lambda params body ih => exact ⟨.lambda (.lambda params body) params ih.whole, by simp [Expr.elems]⟩
  | conditional test body orelse iht ihb iho =>
    exact ⟨.conditional (.conditional test body orelse) iht.whole ihb.whole iho.whole,
      by simp [Expr.elems]⟩
  | listComp elem nonempty targets iters conditions ihe iht ihi ihc =>
    exact ⟨.listComp (.listComp elem nonempty targets iters conditions) ihe.whole nonempty iht
      (fun g hg => (ihi g hg).whole) fun g hg c hc => (ihc g hg c hc).whole, by simp [Expr.elems]⟩

/-- A list of expressions is read up to what neither goes on with an expression nor starts one. -/
theorem Legible.testList (h : Legible bare e) (hstops : Stops 15 rest)
    (hnext : startsExpression (nextKind rest) = false)
    (hlen : (e.writeList bare 14 ++ rest).length ≤ n + 1) :
    Yields Expr.unplaced (testListRule (level n)) e.unplaced (e.writeList bare 14 ++ rest) rest := by
  rcases e.writeList_cases bare 14 with hform | ⟨s, x, es, rfl, hform⟩ <;> rw [hform] at hlen ⊢
  · have hread := h.whole.reads n 14 rest (by decide) (hstops.mono (by decide)) hlen
    exact (testOrStar_plain (h.whole.next_ne (by decide) (by decide)) hread).bind fun a ha =>
      .other (hstops.ne (by decide)) (.pure ⟨ha, rfl⟩)
  · have hx := h.elems x List.mem_cons_self
    have hes := Readable.items (n := n) (fun e he => h.elems e (List.mem_cons_of_mem _ he)) fun _ => id
    have hstop : ∀ ls ∈ es.map (Expr.write bare 14), (!startsExpression (nextKind ls)) = false := by
      intro ls hls
      obtain ⟨e, he, rfl⟩ := List.mem_map.1 hls
      rw [(h.elems e (List.mem_cons_of_mem _ he)).starts (by decide)]
      rfl
    have hpos := List.length_pos_iff.2 (hx.write_ne_nil (p := 14) (by decide))
    rw [List.map_cons, listed_cons, List.append_assoc] at hlen ⊢
    have hloop := tailLoop_behind (fun k => !startsExpression k) rest hes
      (fun _ => stops_cons (by decide)) hstop (hstops.mono (by decide)) (hstops.ne (by decide))
      (by rw [hnext]; rfl) (by rw [List.length_append] at hlen; omega) (Nat.le_refl _)
    obtain ⟨ls, hls⟩ := behind_append (es.map (Expr.write bare 14)) rest
    rw [hls] at hlen hloop ⊢
    have hread := hx.reads n 14 _ (by decide) (stops_cons (by decide)) hlen
    refine (testOrStar_plain (hx.next_ne (by decide) (by decide)) hread).bind fun a ha =>
      .same rfl (.remaining ?_)
    rw [testListLoop_eq]
    exact hloop.bind fun as has => .spanFrom fun _ => .pure ⟨by simp [Expr.unplaced, ha, has], rfl⟩

/-- An expression is read up to what neither goes on with it nor starts another one. -/
theorem Legible.readExpression (h : Legible bare e) (hstops : Stops 15 rest)
    (hnext : startsExpression (nextKind rest) = false) :
    Yields Expr.unplaced readExpression e.unplaced (e.writeList bare 14 ++ rest) rest := by
  unfold Surface.readExpression readGrammar
  simp only [bind_assoc, pure_bind]
  exact Reads.remaining (h.testList hstops hnext (Nat.le_succ _))

/-- Reading the reference form of a plain expression gives the expression again, up to spans, and
leaves only the ends of the line and of the input. -/
theorem readExpression_spaced (bare : Bool) {e : Expr} (h : Plain e) :
    ∃ e' c, readFront readExpression (spaced (e.writeList bare 14)) = .ok (e', c) ∧
      e'.unplaced = e.unplaced ∧ kinds c.rest = [.newline, .endOfInput] := by
  have htidy : Tidy (e.writeList bare 14) := h.tidy_writeList 14
  have htokens := htidy.tokenize_eq (h.writeList_ne_nil (by decide))
  have hlayout := htidy.layout_eq_false
  have hread : Yields Expr.unplaced readExpression e.unplaced
      (e.writeList bare 14 ++ [⟨.newline, []⟩, ⟨.endOfInput, []⟩]) _ :=
    h.legible.readExpression (stops_cons (by decide)) rfl
  obtain ⟨ls, hls⟩ : ∃ ls, e.writeList bare 14 = ls := ⟨_, rfl⟩
  rw [hls] at htokens hlayout hread ⊢
  obtain ⟨e', c, hrun, he, hc⟩ := hread (.ofTokens (placed 0 ls ++
    [⟨.newline, (spaced ls).length, []⟩, ⟨.endOfInput, (spaced ls).length, []⟩]))
    (by simp [Cursor.ahead, Cursor.ofTokens, Token.lexeme, lexeme_placed 0 hlayout])
  refine ⟨e', c, ?_, he, ?_⟩
  · unfold readFront
    rw [htokens]
    exact hrun
  · rw [kinds_eq_map_lexeme, ← Cursor.ahead, hc]
    rfl

/-- A sum in parentheses as the base of a power with a signed exponent, a comparison by two words, and
a tuple of one element, which needs its parentheses and its comma. -/
theorem readExpression_power : ∃ e' c,
    readFront readExpression "( a + 1 ) ** - b if x not in y else ( 'z' , )".toList = .ok (e', c) ∧
      e'.unplaced = .conditional default
        (.compare default (.name default "x") [(.notIn, .name default "y")])
        (.binary default .pow
          (.binary default .add (.name default "a") (.constant default (.int 1)))
          (.unary default .minus (.name default "b")))
        (.tuple default [.constant default (.string "z")]) ∧
      kinds c.rest = [.newline, .endOfInput] := by
  have a : Plain (.name default "a") := .name (by decide)
  have b : Plain (.name default "b") := .name (by decide)
  have x : Plain (.name default "x") := .name (by decide)
  have y : Plain (.name default "y") := .name (by decide)
  have z : Plain (.constant default (.string "z")) := .constant trivial
  have one : Plain (.constant default (.int 1)) := .constant (show (0 : Int) ≤ 1 by decide)
  have test : Plain (.compare default (.name default "x") [(.notIn, .name default "y")]) :=
    .compare (by simp) (by decide) x (by simpa using y)
  have sign : Plain (.unary default .minus (.name default "b")) := .unary rfl b
  have sum : Plain (.binary default .add (.name default "a") (.constant default (.int 1))) :=
    .binary rfl a one
  have single : Plain (.tuple default [.constant default (.string "z")]) := .tuple (by simpa using z)
  have power : Plain (.binary default .pow (.binary default .add (.name default "a")
      (.constant default (.int 1))) (.unary default .minus (.name default "b"))) := .binary rfl sum sign
  exact readExpression_spaced true (.conditional (s := default) test power single)

end

end Hoist.Surface
