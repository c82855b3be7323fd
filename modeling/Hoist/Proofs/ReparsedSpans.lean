import Hoist.Proofs.ExpressionRoundTrip
import Hoist.Proofs.NestedSpans
import Hoist.Proofs.Surface.Enclosed

/-!
# Expressions are read again from their spans

The text of the span of an expression, between parentheses, is read as the same expression again if the
brackets in it match. They may not: an operand keeps the span it has inside its parentheses, and an
operation takes its ends from its first and last operands, so the span of a sum whose first operand
stands in parentheses has a closing parenthesis that nothing opens. What is missing then are
parentheses at the ends, and nothing else.
-/

namespace Hoist.Surface

open Grammar

section

variable {s core : List Token} {span : Span} {e : Expr} {ls rest : List Lexeme} {text : List Char}
  {path : List Nat} {m : Module}

/-- The tokens in a span. -/
def Span.tokens (tokens : List Token) (span : Span) : List Token :=
  (visible tokens).filter fun t => span.start ≤ t.start ∧ t.stop ≤ span.stop

/-- The tokens in the span of a node are those that it was read from. -/
theorem Ordered.tokens_eq (h : Ordered s) (hcore : core <:+: s)
    (hvisible : ∀ t ∈ core, t.kind.isLayout = false) (hstart : StartsAt core span.start)
    (hstop : StopsAt core span.stop) : span.tokens s = core := by
  obtain ⟨before, after, rfl⟩ := hcore
  obtain ⟨t, ht, u, hu, hstart', hstop'⟩ := Ordered.inside (List.infix_refl core) hstart hstop
  have hbefore : span.tokens before = [] := by
    refine List.filter_eq_nil_iff.2 fun v hv => ?_
    have hle := (h.piece (List.prefix_append _ after).isInfix).le_start hv ht
    have hlt := h.pieces v (by simp [visible_append, hv])
    rw [decide_eq_true_eq]
    omega
  have hafter : span.tokens after = [] := by
    refine List.filter_eq_nil_iff.2 fun v hv => ?_
    have hle := h.le_start (show u ∈ visible (before ++ core) by simp [visible_append, hu]) hv
    have hlt := h.pieces v (by simp [visible_append, hv])
    rw [decide_eq_true_eq]
    omega
  have hwhole : span.tokens core = core := by
    have hordered : Ordered core := h.piece ⟨before, after, rfl⟩
    have hsame : visible core = core := List.filter_eq_self.2 fun v hv => by simp [hvisible v hv]
    unfold Span.tokens
    rw [hsame, List.filter_eq_self]
    intro v hv
    rw [← hsame] at hv
    exact decide_eq_true ⟨hordered.starts_le hstart hv, hordered.le_stops hstop hv⟩
  unfold Span.tokens at hbefore hafter hwhole ⊢
  rw [visible_append, visible_append, List.filter_append, List.filter_append, hbefore, hafter, hwhole]
  simp

/-- What is read between parentheses is read as an expression with nothing around them. -/
theorem Wraps.readExpression (h : Wraps ls e) (hstops : Stops 15 rest) :
    Yields Expr.unplaced readExpression e.unplaced (wrapped ls ++ rest) rest := by
  unfold Surface.readExpression readGrammar
  simp only [bind_assoc, pure_bind]
  refine Reads.remaining ?_
  change Yields Expr.unplaced (testListRule (level (wrapped ls ++ rest).length)) e.unplaced
    (wrapped ls ++ rest) rest
  have hlen : (ls ++ .mark .parenClose :: rest).length ≤ (wrapped ls ++ rest).length := by
    simp [wrapped]
  have hatom := atom_parenOpen (h _ rest hlen)
  have htest := lift_rules (Nat.zero_le 14) (Nat.le_refl 14) hatom (hstops.mono (by decide)) (Nat.zero_le _)
  refine (testOrStar_plain (by simp) htest).bind fun a ha => ?_
  exact .other (hstops.ne (by decide)) (.pure ⟨ha, rfl⟩)

/-- A text is read as an expression, up to spans, and nothing but the ends of the line and of the input is
left. -/
def IsReadAs (text : List Char) (e : Expr) : Prop :=
  ∃ e' c, readFront readExpression text = .ok (e', c) ∧ e'.unplaced = e.unplaced ∧
    kinds c.rest = [.newline, .endOfInput]

/-- A text of such lexemes is read as the expression. -/
theorem Wraps.isReadAs (h : Wraps ls e) (htokens : ∃ tokens, tokenize text = .ok tokens ∧
    lexemes tokens = wrapped ls ++ [.layout .newline, .layout .endOfInput]) : IsReadAs text e := by
  obtain ⟨tokens, htokens, hlexemes⟩ := htokens
  have hends : Stops 15 [.layout .newline, .layout .endOfInput] := stops_cons (by decide)
  obtain ⟨e', c, hrun, he, hc⟩ := h.readExpression hends (.ofTokens tokens) hlexemes
  refine ⟨e', c, ?_, he, ?_⟩
  · unfold readFront
    rw [htokens]
    exact hrun
  · rw [kinds_eq_map_lexeme, ← Cursor.ahead, hc]
    rfl

/-- Every expression of a module that was read from a text, but for slices, starred and yielded values,
is read again from the text of its span between parentheses if the brackets in the span match. If they
do not, it is read again once further parentheses stand at the ends. -/
theorem readModule_reparses (h : readModule text = .ok m)
    (hpath : nodeAt (m.body.map .stmt) path = some (.expr e)) (hreadable : e.isReadable = true) :
    ∃ tokens, tokenize text = .ok tokens ∧
      (Balanced (e.span.tokens tokens) →
        IsReadAs ('(' :: (piece text e.span.start e.span.stop ++ [')'])) e) ∧
      ∃ i j, IsReadAs (List.replicate (i + 1) '(' ++ (piece text e.span.start e.span.stop ++
        List.replicate (j + 1) ')')) e := by
  obtain ⟨tokens, htokens, hholds⟩ := readModule_holds h
  obtain ⟨core, hcore, hstart, hstop, htells, -⟩ := hholds.nodeAt hpath
  change StartsAt core e.span.start at hstart
  change StopsAt core e.span.stop at hstop
  obtain ⟨hvisible, hrereads⟩ := htells e rfl
  obtain ⟨front, back, hfront, hback, hnone, hbalanced, hwraps⟩ := hrereads hreadable
  have hrecut := tokenize_recut htokens hcore hvisible hstart hstop
  have hreads := hwraps.isReadAs (tokenize_enclosed hrecut hfront hback hbalanced)
  refine ⟨tokens, htokens, fun hmatch => ?_, front.length, back.length, hreads⟩
  rw [(tokenize_ordered htokens).tokens_eq hcore hvisible hstart hstop] at hmatch
  obtain ⟨rfl, rfl⟩ := hnone hmatch
  exact hreads

end

set_option maxRecDepth 4000 in
/-- The brackets in the span of a call match, though those in the span of its argument do not. -/
theorem callOfSum_reparses :
    readModule "g((a) + b)\n".toList = .ok ⟨⟨0, 11⟩, [.expr ⟨0, 10⟩ (.call ⟨0, 10⟩ (.name ⟨0, 1⟩ "g")
        [.binary ⟨3, 9⟩ .add (.name ⟨3, 4⟩ "a") (.name ⟨8, 9⟩ "b")] [])]⟩ ∧
      IsReadAs "(g((a) + b))".toList (.call ⟨0, 10⟩ (.name ⟨0, 1⟩ "g")
        [.binary ⟨3, 9⟩ .add (.name ⟨3, 4⟩ "a") (.name ⟨8, 9⟩ "b")] []) := by
  have htokens : tokenize "g((a) + b)\n".toList = .ok [⟨.identifier, 0, ['g']⟩,
      ⟨.mark .parenOpen, 1, ['(']⟩, ⟨.mark .parenOpen, 2, ['(']⟩, ⟨.identifier, 3, ['a']⟩,
      ⟨.mark .parenClose, 4, [')']⟩, ⟨.mark .plus, 6, ['+']⟩, ⟨.identifier, 8, ['b']⟩,
      ⟨.mark .parenClose, 9, [')']⟩, ⟨.newline, 10, ['\n']⟩, ⟨.endOfInput, 11, []⟩] := by decide +kernel
  have hread : readModule "g((a) + b)\n".toList = .ok ⟨⟨0, 11⟩, [.expr ⟨0, 10⟩ (.call ⟨0, 10⟩
      (.name ⟨0, 1⟩ "g") [.binary ⟨3, 9⟩ .add (.name ⟨3, 4⟩ "a") (.name ⟨8, 9⟩ "b")] [])]⟩ := by
    rw [readModule, readFront, htokens]
    rfl
  obtain ⟨tokens, htokens', hreads, -⟩ :=
    readModule_reparses hread (show nodeAt _ [0, 0] = some (.expr _) from rfl) rfl
  obtain rfl := Except.ok.inj (htokens.symm.trans htokens')
  exact ⟨hread, hreads (balanced_iff.2 rfl)⟩

/-- The span of a sum starts inside the parentheses of its first operand. Between parentheses its text
has one that nothing opens. -/
theorem sum_not_reparsed : ∃ m e, readModule "(a) + b\n".toList = .ok m ∧
    nodeAt (m.body.map .stmt) [0, 0] = some (.expr e) ∧ e.isReadable = true ∧
      ¬IsReadAs ('(' :: (piece "(a) + b\n".toList e.span.start e.span.stop ++ [')'])) e := by
  have htokens : tokenize "(a) + b\n".toList = .ok [⟨.mark .parenOpen, 0, ['(']⟩,
      ⟨.identifier, 1, ['a']⟩, ⟨.mark .parenClose, 2, [')']⟩, ⟨.mark .plus, 4, ['+']⟩,
      ⟨.identifier, 6, ['b']⟩, ⟨.newline, 7, ['\n']⟩, ⟨.endOfInput, 8, []⟩] := by decide +kernel
  have hread : readModule "(a) + b\n".toList = .ok ⟨⟨0, 8⟩, [.expr ⟨0, 7⟩
      (.binary ⟨1, 7⟩ .add (.name ⟨1, 2⟩ "a") (.name ⟨6, 7⟩ "b"))]⟩ := by
    rw [readModule, readFront, htokens]
    rfl
  refine ⟨_, _, hread, rfl, rfl, ?_⟩
  rintro ⟨e', c, hrun, -⟩
  have hrefused : tokenize "(a) + b)".toList = .error
      ⟨.unexpected "It does not close any open bracket.", 7, [')']⟩ := by decide +kernel
  have hpiece : '(' :: (piece "(a) + b\n".toList 1 7 ++ [')']) = "(a) + b)".toList := by decide
  change readFront readExpression ('(' :: (piece "(a) + b\n".toList 1 7 ++ [')'])) = _ at hrun
  rw [hpiece, readFront, hrefused] at hrun
  cases hrun

end Hoist.Surface
