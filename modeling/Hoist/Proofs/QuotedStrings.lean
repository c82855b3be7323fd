import Hoist.Proofs.ExpressionRoundTrip

/-!
# Quoted strings are read back

The quoted form of a string is one token, and as an expression it is the constant of that string. The
closing quote is where the string ends and nowhere before: no shorter piece of the form is a string.
-/

namespace Hoist.Surface

namespace Lexer

theorem closingQuotes_of_head {q : Char} {rest : List Char} (h : ∀ d ∈ rest.head?, d ≠ q) :
    closingQuotes q rest = [q] := by
  unfold closingQuotes
  rw [if_neg]
  cases rest with
  | nil => simp
  | cons d rest => simpa using fun hd => absurd hd (h d rfl)

/-- In front of its closing quote a quoted string does not end, wherever it is cut off. -/
theorem stringEnd_cut (cs : List Char) (n i : Nat) :
    ∃ j, stringEnd ['\''] ((cs.flatMap Text.quoteChar).take n) i = .error j ∧
      i + ((cs.flatMap Text.quoteChar).take n).length ≤ j := by
  induction cs generalizing n i with
  | nil => exact ⟨i, by simp [stringEnd], by simp⟩
  | cons c cs ih =>
    rcases quoteChar_cases c with ⟨hc, hquote, hbackslash, hline⟩ | ⟨m, hc, -⟩ <;>
      rw [List.flatMap_cons, hc]
    · rcases n with - | n
      · exact ⟨i, by simp [stringEnd], by simp⟩
      · obtain ⟨j, hj, hle⟩ := ih n (i + 1)
        refine ⟨j, ?_, by simp only [List.cons_append, List.nil_append, List.take_succ_cons,
          List.length_cons]; omega⟩
        rw [List.cons_append, List.nil_append, List.take_succ_cons, stringEnd,
          if_neg (by simpa using hline), if_neg (by simpa using Ne.symm hquote), hj]
        · exact fun h => absurd h hbackslash
        · exact fun _ _ h => absurd h hbackslash
    -- a backslash may be cut off from its letter
    · rcases n with - | - | n
      · exact ⟨i, by simp [stringEnd], by simp⟩
      · exact ⟨i + 2, by simp [stringEnd], by simp⟩
      · obtain ⟨j, hj, hle⟩ := ih n (i + 2)
        refine ⟨j, ?_, by simp only [List.cons_append, List.nil_append, List.take_succ_cons,
          List.length_cons]; omega⟩
        rw [List.cons_append, List.cons_append, List.nil_append, List.take_succ_cons,
          List.take_succ_cons, stringEnd, hj]

end Lexer

/-- A text is refused for what stands at its front. -/
theorem tokenize_error {c : Char} {rest : List Char} {f : Fault}
    (hc : Text.isBlank c = false ∧ c ≠ '\n' ∧ c ≠ '#' ∧ c ≠ '\\')
    (h : Lexer.lexeme 0 c rest = .error f) : tokenize (c :: rest) = .error f := by
  obtain ⟨hblank, hline, hcomment, hjoined⟩ := hc
  have hscan : Lexer.scan ⟨[], [], false⟩ false 0 (c :: rest) = .error f := by
    rw [Lexer.scan, if_neg (by simp [hblank]), if_neg (by simp [hjoined]),
      if_neg (by simpa using hcomment), if_neg (by simpa using hline), h]
    rfl
  have hmargin : Text.isIndent c = false ∧ c ≠ '\r' := by
    simp only [Text.isBlank, Bool.or_eq_false_iff, beq_eq_false_iff_ne] at hblank
    exact ⟨by simp [Text.isIndent, hblank], hblank.1.2⟩
  rw [tokenize, ← List.nil_append (c :: rest), Lexer.scan_margin_cons (by simp) hmargin.1,
    if_neg (by simp [hline, hcomment, hmargin.2])]
  show (do return [] ++ (← Lexer.scan ⟨[], [], false⟩ false 0 (c :: rest))) = _
  rw [hscan]
  rfl

theorem not_mem_quoted (cs : List Char) : '\n' ∉ cs.flatMap Text.quoteChar := by
  intro h
  obtain ⟨c, -, hc⟩ := List.mem_flatMap.1 h
  have hletters : ∀ m x, Text.ofMnemonic? m = some x → m ≠ '\n' := by
    rintro m x hm rfl
    cases hm
  rcases quoteChar_cases c with ⟨he, -, -, hne⟩ | ⟨m, he, hm, -⟩ <;> rw [he] at hc
  · exact hne (List.mem_singleton.1 hc).symm
  · simp only [List.mem_cons, List.not_mem_nil, or_false] at hc
    rcases hc with hc | rfl
    · cases hc
    · exact hletters _ _ hm rfl

/-- A quoted string without its end is no token. -/
theorem tokenize_cut (cs : List Char) (n : Nat) :
    tokenize ('\'' :: (cs.flatMap Text.quoteChar).take n) =
      .error ⟨.unterminatedString, 0, '\'' :: (cs.flatMap Text.quoteChar).take n⟩ := by
  obtain ⟨body, hbody⟩ : ∃ body, (cs.flatMap Text.quoteChar).take n = body := ⟨_, rfl⟩
  have hmem : '\n' ∉ '\'' :: body := by
    rw [List.mem_cons, not_or, ← hbody]
    exact ⟨by decide, fun h => not_mem_quoted cs (List.mem_of_mem_take h)⟩
  have hhead : ∀ d ∈ body.head?, d ≠ '\'' := fun d hd => by
    rw [← hbody, List.head?_take] at hd
    split at hd
    · cases hd
    · exact head_quoted_ne cs d hd
  obtain ⟨j, hend, hle⟩ := Lexer.stringEnd_cut cs n 1
  rw [hbody] at hend hle ⊢
  have hline : Text.line (('\'' :: body).take j) = '\'' :: body := by
    rw [List.take_of_length_le (by simpa [Nat.add_comm] using hle), Text.line,
      List.takeWhile_eq_self_iff]
    intro c hc
    rw [bne_iff_ne]
    rintro rfl
    exact hmem hc
  have hlength : Lexer.stringLength 0 '\'' body = .error ⟨.unterminatedString, 0, '\'' :: body⟩ := by
    unfold Lexer.stringLength
    simp only [Lexer.closingQuotes_of_head hhead, List.length_singleton, List.drop_succ_cons,
      List.drop_zero, hend, hline]
  refine tokenize_error (by decide) ?_
  rw [Lexer.lexeme, if_pos (by decide), hlength]
  rfl

theorem toList_quote (s : String) :
    (Text.quote s).toList = '\'' :: (s.toList.flatMap Text.quoteChar ++ ['\'']) := by
  simp [Text.quote]

/-- The form of a string as a line of lexemes. -/
theorem spaced_string (s : String) :
    spaced [Lexeme.literal (.string s)] = (Text.quote s).toList := by
  rw [spaced, Lexeme.literal, Literal.write]

theorem tokenize_quote (s : String) :
    tokenize (Text.quote s).toList = .ok [⟨.string, 0, (Text.quote s).toList⟩,
      ⟨.newline, (Text.quote s).toList.length, []⟩,
      ⟨.endOfInput, (Text.quote s).toList.length, []⟩] := by
  have htidy : Tidy [Lexeme.literal (.string s)] := .cons (Lexeme.stands_string s) rfl .nil
  have htokens := htidy.tokenize_eq (by simp)
  rw [spaced_string, placed, placed, Lexeme.literal, Literal.write] at htokens
  exact htokens

theorem readExpression_quote (s : String) :
    ∃ span c, readFront readExpression (Text.quote s).toList =
        .ok (.constant span (.string s), c) ∧ kinds c.rest = [.newline, .endOfInput] := by
  obtain ⟨e, c, hread, he, hc⟩ :=
    readExpression_spaced true (e := .constant default (.string s)) (.constant trivial)
  have hform : (Expr.constant default (.string s)).writeList true 14 =
      [Lexeme.literal (.string s)] := rfl
  rw [hform, spaced_string] at hread
  cases e <;> cases he
  exact ⟨_, c, hread, hc⟩

/-- The quoted form of a string is one token over the whole text, and the expression that it is read as is
the constant of the string. Cut off anywhere before its end, the form is refused as an unterminated
string, and no other string has the same form. -/
theorem quote_reads_back (s : String) :
    tokenize (Text.quote s).toList = .ok [⟨.string, 0, (Text.quote s).toList⟩,
      ⟨.newline, (Text.quote s).toList.length, []⟩,
      ⟨.endOfInput, (Text.quote s).toList.length, []⟩] ∧
    (∃ span c, readFront readExpression (Text.quote s).toList =
        .ok (.constant span (.string s), c) ∧ kinds c.rest = [.newline, .endOfInput]) ∧
    (∀ n, 0 < n → n < (Text.quote s).toList.length → tokenize ((Text.quote s).toList.take n) =
      .error ⟨.unterminatedString, 0, (Text.quote s).toList.take n⟩) ∧
    ∀ s', Text.quote s' = Text.quote s → s' = s := by
  refine ⟨tokenize_quote s, readExpression_quote s, fun n hpos hn => ?_, fun s' h => ?_⟩
  · obtain ⟨n, rfl⟩ : ∃ m, n = m + 1 := ⟨n - 1, by omega⟩
    rw [toList_quote, List.length_cons, List.length_append, List.length_singleton] at hn
    rw [toList_quote, List.take_succ_cons, List.take_append_of_le_length (by omega)]
    exact tokenize_cut s.toList n
  · obtain ⟨span, c, hs, -⟩ := readExpression_quote s
    obtain ⟨span', c', hs', -⟩ := readExpression_quote s'
    rw [h, hs] at hs'
    cases hs'
    rfl

end Hoist.Surface
