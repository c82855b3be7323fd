import Hoist.Surface.Lexer
import Mathlib.Data.List.TakeWhile
import Mathlib.Tactic.Common

/-!
# What the lexer does with a text

`Scanned` has one rule for each thing that may stand next in a text: a line without tokens, the margin
of a line, a blank, a comment, a token. It holds of exactly the tokens that `scan` gives back, so a
property of the tokens of all texts needs one case for each rule.
-/

namespace Hoist.Surface

/-- A sequence of two steps succeeds when both do. -/
theorem bind_eq_ok {ε α β : Type} {x : Except ε α} {f : α → Except ε β} {b : β} :
    x >>= f = .ok b ↔ ∃ a, x = .ok a ∧ f a = .ok b := by
  cases x with
  | error e => simp [bind, Except.bind]
  | ok a => simp [bind, Except.bind]

namespace Numeral

theorem scanFraction_suffix (cs : List Char) : (scanFraction cs).2 <:+ cs := by
  unfold scanFraction
  split
  · exact (List.dropWhile_suffix _).trans (List.suffix_cons _ _)
  · exact List.suffix_refl _

theorem scanExponent_suffix (cs : List Char) : (scanExponent cs).2 <:+ cs := by
  unfold scanExponent
  split
  · rename_i c rest
    have hdigits : (if rest.head? == some '+' || rest.head? == some '-' then rest.drop 1 else rest)
        <:+ rest := by
      split
      · exact List.drop_suffix _ _
      · exact List.suffix_refl _
    split
    · dsimp only
      split
      · exact List.suffix_refl _
      · exact ((List.dropWhile_suffix _).trans hdigits).trans (List.suffix_cons _ _)
    · exact List.suffix_refl _
  · exact List.suffix_refl _

/-- A text that starts a numeral is longer than what is left behind the numeral. -/
theorem length_scan_lt {cs : List Char} (h : starts cs = true) : (scan cs).2.length < cs.length := by
  have hrest : (scan cs).2.length ≤ (scanFraction (cs.dropWhile Text.isDigit)).2.length :=
    (scanExponent_suffix _).length_le
  have hdigits := (scanFraction_suffix (cs.dropWhile Text.isDigit)).length_le
  cases cs with
  | nil => cases h
  | cons c cs =>
    by_cases hc : Text.isDigit c = true
    · have := Text.length_dropWhile_le Text.isDigit cs
      rw [List.dropWhile_cons_of_pos hc] at hdigits hrest
      simp only [List.length_cons]
      omega
    · obtain rfl : c = '.' := by
        unfold starts at h
        split at h
        · rename_i heq
          exact (List.cons.inj heq).1
        · rename_i heq
          obtain ⟨rfl, -⟩ := List.cons.inj heq
          exact absurd h hc
        · cases h
      have hfraction : (scanFraction (('.' :: cs).dropWhile Text.isDigit)).2 =
          cs.dropWhile Text.isDigit := rfl
      have := Text.length_dropWhile_le Text.isDigit cs
      rw [hfraction] at hrest
      simp only [List.length_cons]
      omega

end Numeral

namespace Lexer

/-- How a text is cut into tokens. -/
inductive Scanned : Context → Bool → Nat → List Char → List Token → Prop
  /-- At the end of the text there may be an indentation without a line. -/
  | finish {context atMargin pos margin tokens} (indented : ∀ d ∈ margin, Text.isIndent d = true)
      (inside : atMargin = false → margin = [])
      (last : finish context (pos + margin.length) = .ok tokens) :
      Scanned context atMargin pos margin tokens
  /-- A line that is empty, or starts with a comment or a carriage return, is left out. -/
  | emptyLine {context pos margin line ending next tokens}
      (indented : ∀ d ∈ margin, Text.isIndent d = true)
      (starts : ∀ d ∈ line.head?, d = '\r' ∨ d = '#') (inLine : '\n' ∉ line)
      (ended : ending = ['\n'] ∨ line ≠ [] ∧ ending = [] ∧ next = [])
      (after : Scanned context true (pos + (margin ++ line ++ ending).length) next tokens) :
      Scanned context true pos (margin ++ line ++ ending ++ next) tokens
  /-- The margin of any other line tells which blocks end and start. -/
  | line {context pos margin c rest opened indents tokens}
      (indented : ∀ d ∈ margin, Text.isIndent d = true)
      (starts : Text.isIndent c = false ∧ c ≠ '\n' ∧ c ≠ '\r' ∧ c ≠ '#')
      (blocks : layout context.indents (marginWidth margin) (pos + margin.length) (c :: rest) =
        .ok (opened, indents))
      (after : Scanned ⟨indents, context.brackets, context.unended || !opened.isEmpty⟩ false
        (pos + margin.length) (c :: rest) tokens) :
      Scanned context true pos (margin ++ c :: rest) (opened ++ tokens)
  | blank {context pos c rest tokens} (separates : Text.isBlank c = true)
      (after : Scanned context false (pos + 1) rest tokens) :
      Scanned context false pos (c :: rest) tokens
  | joined {context pos rest tokens} (after : Scanned context false (pos + 2) rest tokens) :
      Scanned context false pos ('\\' :: '\n' :: rest) tokens
  | comment {context pos body rest tokens} (inLine : '\n' ∉ body) (ended : ∀ d ∈ rest.head?, d = '\n')
      (after : Scanned context false (pos + 1 + body.length) rest tokens) :
      Scanned context false pos ('#' :: body ++ rest) tokens
  | lineEnd {context pos rest tokens} (closed : context.brackets = [])
      (after : Scanned ⟨context.indents, [], false⟩ true (pos + 1) rest tokens) :
      Scanned context false pos ('\n' :: rest) (⟨.newline, pos, ['\n']⟩ :: tokens)
  | innerLineEnd {context pos rest tokens} (inside : context.brackets ≠ [])
      (after : Scanned context false (pos + 1) rest tokens) :
      Scanned context false pos ('\n' :: rest) tokens
  | token {context pos c cs rest brackets tokens} (kind : Kind)
      (read : lexeme pos c (cs ++ rest) = .ok (kind, (c :: cs).length))
      (matched : matchBracket context.brackets ⟨kind, pos, c :: cs⟩ = .ok brackets)
      (after : Scanned ⟨context.indents, brackets, true⟩ false (pos + (c :: cs).length) rest tokens) :
      Scanned context false pos (c :: cs ++ rest) (⟨kind, pos, c :: cs⟩ :: tokens)

variable {context : Context} {atMargin : Bool} {pos n : Nat} {c : Char} {kind : Kind}
  {text margin rest cs : List Char} {tokens : List Token}

/-- The search for the end of a string passes no more than the text. -/
theorem stringEnd_le {closing : List Char} {i : Nat} (h : stringEnd closing cs i = .ok n) :
    i ≤ n ∧ n ≤ i + cs.length := by
  fun_induction stringEnd closing cs i with
  | case1 | case2 | case4 => cases h
  | case3 i c rest ih =>
    have := ih h
    simp only [List.length_cons]
    omega
  | case5 c rest i _ _ hline hclosing =>
    cases h
    have hlength := (List.isPrefixOf_iff_prefix.1 hclosing).length_le
    omega
  | case6 c rest i _ _ hline hclosing ih =>
    have := ih h
    simp only [List.length_cons]
    omega

theorem stringLength_le {q : Char} (h : stringLength pos q rest = .ok n) :
    0 < n ∧ n ≤ rest.length + 1 := by
  simp only [stringLength] at h
  split at h
  · rename_i m hm
    cases h
    have hm := stringEnd_le hm
    have hquotes : 0 < (closingQuotes q rest).length ∧
        (closingQuotes q rest).length ≤ rest.length + 1 := by
      unfold closingQuotes
      split
      · rename_i htwo
        have := congrArg List.length (beq_iff_eq.1 htwo)
        simp only [List.length_take, List.length_cons, List.length_nil] at this ⊢
        omega
      · simp
    simp only [List.length_drop, List.length_cons] at hm
    omega
  · cases h

theorem numberLength_le (hstarts : Numeral.starts cs = true) (h : numberLength pos cs = .ok n) :
    0 < n ∧ n ≤ cs.length := by
  have hlt := Numeral.length_scan_lt hstarts
  simp only [numberLength] at h
  split at h
  · cases h
  · cases h
    omega

/-- A token that is no layout covers a piece of the text that is not empty. -/
theorem lexeme_spec (h : lexeme pos c rest = .ok (kind, n)) :
    kind.isLayout = false ∧ 0 < n ∧ n ≤ rest.length + 1 := by
  unfold lexeme at h
  split at h
  · obtain ⟨m, hm, he⟩ : ∃ m, stringLength pos c rest = .ok m ∧ (Kind.string, m) = (kind, n) := by
      cases hm : stringLength pos c rest with
      | error f => rw [hm] at h; cases h
      | ok m => rw [hm] at h; exact ⟨m, rfl, Except.ok.inj h⟩
    cases he
    exact ⟨rfl, stringLength_le hm⟩
  split at h
  · rename_i hstarts
    obtain ⟨m, hm, he⟩ : ∃ m, numberLength pos (c :: rest) = .ok m ∧ (Kind.number, m) = (kind, n) := by
      cases hm : numberLength pos (c :: rest) with
      | error f => rw [hm] at h; cases h
      | ok m => rw [hm] at h; exact ⟨m, rfl, Except.ok.inj h⟩
    cases he
    exact ⟨rfl, numberLength_le hstarts hm⟩
  have hrun := (List.takeWhile_prefix (l := rest) Text.isIdent).length_le
  split at h
  · dsimp only at h
    split at h
    · cases h
      exact ⟨rfl, by simp, by simpa using hrun⟩
    · cases h
      exact ⟨rfl, by simp, by simpa using hrun⟩
  · split at h
    · rename_i m hm
      cases h
      have hprefix := List.find?_some hm
      have hlength := (List.isPrefixOf_iff_prefix.1 hprefix).length_le
      refine ⟨rfl, ?_, by simpa [String.length_toList] using hlength⟩
      cases m <;> decide
    · cases h

/-- No token starts with a character that separates tokens. -/
theorem lexeme_starts (h : lexeme pos c rest = .ok (kind, n)) :
    Text.isBlank c = false ∧ c ≠ '\n' ∧ c ≠ '#' ∧ c ≠ '\\' := by
  have stray : ∀ d ∈ [' ', '\t', '\r', '\x0c', '\n', '#', '\\'],
      lexeme pos d rest = .error ⟨.strayCharacter, pos, [d]⟩ := by
    intro d hd
    simp only [List.mem_cons, List.not_mem_nil, or_false] at hd
    rcases hd with rfl | rfl | rfl | rfl | rfl | rfl | rfl <;> rfl
  have hne : ∀ d ∈ [' ', '\t', '\r', '\x0c', '\n', '#', '\\'], c ≠ d := by
    rintro d hd rfl
    rw [stray c hd] at h
    cases h
  refine ⟨?_, hne _ (by simp), hne _ (by simp), hne _ (by simp)⟩
  simp [Text.isBlank, hne]

/-- What stands before the first line end of a text, the line end, and what stands behind it. -/
theorem afterLine_split (text : List Char) : ∃ ending,
    text = Text.line text ++ ending ++ Text.afterLine text ∧
      (ending = ['\n'] ∨ ending = [] ∧ Text.afterLine text = []) := by
  have hsplit := (List.takeWhile_append_dropWhile (p := (· != '\n')) (l := text)).symm
  unfold Text.line Text.afterLine
  cases hrest : text.dropWhile (· != '\n') with
  | nil => exact ⟨[], by simpa [hrest] using hsplit, .inr ⟨rfl, rfl⟩⟩
  | cons d next =>
    have hd : d = '\n' := by
      have := List.head_dropWhile_not (· != '\n') (l := text) (by simp [hrest])
      simpa [hrest] using this
    subst hd
    exact ⟨['\n'], by rw [hrest] at hsplit; simpa using hsplit, .inl rfl⟩

theorem not_mem_line (text : List Char) : '\n' ∉ Text.line text := by
  intro h
  have := List.mem_takeWhile_imp h
  simp at this

/-- The tokens that `scan` gives back are cut by the rules. -/
theorem Scanned.of_scan (h : scan context atMargin pos text = .ok tokens) :
    Scanned context atMargin pos text tokens := by
  fun_induction scan context atMargin pos text generalizing tokens with
  | case1 context pos cs margin start =>
    rename_i hrest
    have hcs := List.takeWhile_append_dropWhile (p := Text.isIndent) (l := cs)
    rw [hrest, List.append_nil] at hcs
    rw [← hcs]
    exact .finish (fun d hd => List.mem_takeWhile_imp hd) (by simp) h
  | case2 context pos cs margin start c tail hrest hc next =>
    rename_i ih
    have hcs := List.takeWhile_append_dropWhile (p := Text.isIndent) (l := cs)
    obtain ⟨ending, hsplit, hended⟩ := afterLine_split (c :: tail)
    have hlength : tail.length + 1 - next.length = (Text.line (c :: tail) ++ ending).length := by
      have := congrArg List.length hsplit
      simp only [List.length_append, List.length_cons, next] at this ⊢
      omega
    have hfirst : ∀ d ∈ (Text.line (c :: tail)).head?, d = '\r' ∨ d = '#' := by
      intro d hd
      by_cases hn : c = '\n'
      · simp [Text.line, hn] at hd
      · rw [Text.line, List.takeWhile_cons_of_pos (by simpa using hn)] at hd
        cases hd
        simpa [hn] using hc
    rw [← hcs, hrest, hsplit, ← List.append_assoc, ← List.append_assoc]
    refine .emptyLine (fun d hd => List.mem_takeWhile_imp hd) hfirst (not_mem_line _) ?_ ?_
    · refine hended.imp_right fun hnil => ⟨fun hline => ?_, hnil⟩
      rw [hline, hnil.1, hnil.2] at hsplit
      cases hsplit
    · rw [List.append_assoc, List.length_append, ← hlength, ← Nat.add_assoc]
      exact ih h
  | case3 context pos cs margin start c tail hrest hc =>
    rename_i ih
    obtain ⟨⟨opened, indents⟩, hblocks, h⟩ := bind_eq_ok.1 h
    obtain ⟨after, hafter, h⟩ := bind_eq_ok.1 h
    cases h
    have hcs := List.takeWhile_append_dropWhile (p := Text.isIndent) (l := cs)
    rw [hrest] at hcs
    have hindent := List.head_dropWhile_not Text.isIndent (l := cs) (by simp [hrest])
    rw [← hcs]
    refine .line (fun d hd => List.mem_takeWhile_imp hd) ⟨?_, ?_⟩ hblocks (ih _ _ hafter)
    · simpa [hrest] using hindent
    · simpa [and_assoc] using hc
  | case4 context pos => exact .finish (by simp) (fun _ => rfl) h
  | case5 context pos c rest hc ih => exact .blank hc (ih h)
  | case6 context pos c rest hc hjoined ih =>
    simp only [Bool.and_eq_true, beq_iff_eq] at hjoined
    obtain ⟨rfl, hnext⟩ := hjoined
    obtain ⟨rest, rfl⟩ := List.head?_eq_some_iff.1 hnext
    exact .joined (ih h)
  | case7 context pos c rest hc hjoined hcomment next =>
    rename_i ih
    rw [beq_iff_eq] at hcomment
    subst hcomment
    have hrest := List.takeWhile_append_dropWhile (p := (· != '\n')) (l := rest)
    have hlength : rest.length - next.length = (Text.line rest).length := by
      have := congrArg List.length hrest
      rw [List.length_append] at this
      exact (Nat.eq_sub_of_add_eq this).symm
    rw [← hrest]
    refine .comment (not_mem_line rest) (fun d hd => ?_) ?_
    · have := List.head?_dropWhile_not (· != '\n') rest
      rw [Option.mem_def.1 hd] at this
      simpa using this
    · rw [hlength] at ih h
      exact ih h
  | case8 context pos c rest hc hjoined hcomment hline hclosed ih =>
    obtain ⟨after, hafter, h⟩ := bind_eq_ok.1 h
    cases h
    rw [beq_iff_eq] at hline
    subst hline
    exact .lineEnd (List.isEmpty_iff.1 hclosed) (ih hafter)
  | case9 context pos c rest hc hjoined hcomment hline hclosed ih =>
    rw [beq_iff_eq] at hline
    subst hline
    exact .innerLineEnd (by simpa using hclosed) (ih h)
  | case10 context pos c rest hc hjoined hcomment hline ih =>
    obtain ⟨⟨kind, length⟩, hread, h⟩ := bind_eq_ok.1 h
    obtain ⟨brackets, hmatched, h⟩ := bind_eq_ok.1 h
    obtain ⟨after, hafter, h⟩ := bind_eq_ok.1 h
    cases h
    obtain ⟨-, hpos, hle⟩ := lexeme_spec hread
    obtain ⟨m, rfl⟩ : ∃ m, length = m + 1 := ⟨length - 1, by omega⟩
    have hlength : (c :: rest.take m).length = m + 1 := by
      rw [List.length_cons, List.length_take, Nat.min_eq_left (by omega)]
    have hrest := List.take_append_drop m rest
    rw [List.take_succ_cons] at hmatched ⊢
    have hscanned : Scanned context false pos (c :: rest.take m ++ rest.drop m)
        (⟨kind, pos, c :: rest.take m⟩ :: after) :=
      .token kind (by rw [hrest, hlength]; exact hread) hmatched
        (by rw [hlength]; exact ih _ _ hafter)
    rwa [List.cons_append, hrest] at hscanned

theorem scan_margin_nil (indented : ∀ d ∈ margin, Text.isIndent d = true) :
    scan context true pos margin = finish context (pos + margin.length) := by
  rw [scan]
  simp only [List.takeWhile_eq_self_iff.2 indented]
  split
  · rfl
  · rename_i hrest
    rw [List.dropWhile_eq_nil_iff.2 indented] at hrest
    cases hrest

/-- At the start of a line the lexer looks at the character behind the margin. -/
theorem scan_margin_cons {tail : List Char} (indented : ∀ d ∈ margin, Text.isIndent d = true)
    (starts : Text.isIndent c = false) :
    scan context true pos (margin ++ c :: tail) =
      if c == '\n' || c == '\r' || c == '#' then
        scan context true (pos + margin.length + (tail.length + 1 -
          (Text.afterLine (c :: tail)).length)) (Text.afterLine (c :: tail))
      else do
        let (opened, indents) ← layout context.indents (marginWidth margin) (pos + margin.length)
          (c :: tail)
        return opened ++ (← scan ⟨indents, context.brackets, context.unended || !opened.isEmpty⟩
          false (pos + margin.length) (c :: tail)) := by
  have htake : (margin ++ c :: tail).takeWhile Text.isIndent = margin := by
    rw [List.takeWhile_append_of_pos indented, List.takeWhile_cons_of_neg (by simp [starts]),
      List.append_nil]
  have hdrop : (margin ++ c :: tail).dropWhile Text.isIndent = c :: tail := by
    rw [List.dropWhile_append_of_pos indented, List.dropWhile_cons_of_neg (by simp [starts])]
  rw [scan]
  simp only [htake]
  split
  · rename_i hrest
    rw [hdrop] at hrest
    cases hrest
  · rename_i hrest
    rw [hdrop] at hrest
    cases hrest
    rfl

theorem afterLine_append {line ending next : List Char} (inLine : '\n' ∉ line)
    (ended : ending = ['\n'] ∨ ending = [] ∧ next = []) :
    Text.afterLine (line ++ ending ++ next) = next := by
  have hline : ∀ d ∈ line, (d != '\n') = true := fun d hd => by
    rw [bne_iff_ne]
    rintro rfl
    exact inLine hd
  unfold Text.afterLine
  rw [List.append_assoc, List.dropWhile_append_of_pos hline]
  rcases ended with rfl | ⟨rfl, rfl⟩ <;> rfl

/-- What is cut by the rules is what `scan` gives back. -/
theorem Scanned.scan_eq (h : Scanned context atMargin pos text tokens) :
    scan context atMargin pos text = .ok tokens := by
  induction h with
  | @finish context atMargin pos margin tokens indented inside last =>
    cases atMargin with
    | true =>
      rw [scan_margin_nil indented]
      exact last
    | false =>
      obtain rfl := inside rfl
      rw [scan]
      exact last
  | @emptyLine context pos margin line ending next tokens indented starts inLine ended after ih =>
    have hafter := afterLine_append inLine (ended.imp_right And.right)
    obtain ⟨c, tail, hc, hrest⟩ : ∃ c tail, (c = '\n' ∨ c = '\r' ∨ c = '#') ∧
        line ++ ending ++ next = c :: tail := by
      cases line with
      | nil =>
        rcases ended with rfl | ⟨hne, -⟩
        · exact ⟨_, _, .inl rfl, rfl⟩
        · exact absurd rfl hne
      | cons d line => exact ⟨d, _, .inr (starts d rfl), rfl⟩
    have hindent : Text.isIndent c = false := by rcases hc with rfl | rfl | rfl <;> rfl
    have hempty : (c == '\n' || c == '\r' || c == '#') = true := by
      rcases hc with rfl | rfl | rfl <;> rfl
    have hpos : margin.length + (tail.length + 1 - next.length) =
        (margin ++ line ++ ending).length := by
      have := congrArg List.length hrest
      simp only [List.length_append, List.length_cons] at this ⊢
      omega
    rw [List.append_assoc, List.append_assoc, ← List.append_assoc line, hrest,
      scan_margin_cons indented hindent, if_pos hempty, ← hrest, hafter, Nat.add_assoc, hpos]
    exact ih
  | @line context pos margin c rest opened indents tokens indented starts blocks after ih =>
    rw [scan_margin_cons indented starts.1, if_neg (by simp [starts.2])]
    exact bind_eq_ok.2 ⟨_, blocks, bind_eq_ok.2 ⟨_, ih, rfl⟩⟩
  | @blank context pos c rest tokens separates after ih =>
    rw [scan, if_pos separates]
    exact ih
  | @joined context pos rest tokens after ih =>
    rw [scan]
    exact ih
  | @comment context pos body rest tokens inLine ended after ih =>
    have hrest : (body ++ rest).dropWhile (· != '\n') = rest := by
      rw [List.dropWhile_append_of_pos fun d hd => by
        rw [bne_iff_ne]
        rintro rfl
        exact inLine hd]
      cases rest with
      | nil => rfl
      | cons d rest => rw [List.dropWhile_cons_of_neg (by simp [ended d rfl])]
    rw [List.cons_append, scan, if_neg (by decide), if_neg (by simp), if_pos (by simp)]
    simp only [hrest, List.length_append, Nat.add_sub_cancel]
    exact ih
  | @lineEnd context pos rest tokens closed after ih =>
    rw [scan, if_neg (by decide), if_neg (by simp), if_neg (by decide), if_pos (by simp),
      if_pos (by simp [closed])]
    exact bind_eq_ok.2 ⟨_, ih, rfl⟩
  | @innerLineEnd context pos rest tokens inside after ih =>
    rw [scan, if_neg (by decide), if_neg (by simp), if_neg (by decide), if_pos (by simp),
      if_neg (by simpa using inside)]
    exact ih
  | @token context pos c cs rest brackets tokens kind read matched after ih =>
    obtain ⟨hblank, hline, hcomment, hjoined⟩ := lexeme_starts read
    have htext : (c :: (cs ++ rest)).take (c :: cs).length = c :: cs := List.take_left
    have hrest : (cs ++ rest).drop ((c :: cs).length - 1) = rest := List.drop_left
    rw [List.cons_append, scan, if_neg (by simp [hblank]), if_neg (by simp [hjoined]),
      if_neg (by simpa using hcomment), if_neg (by simpa using hline)]
    refine bind_eq_ok.2 ⟨_, read, ?_⟩
    simp only [htext, hrest]
    exact bind_eq_ok.2 ⟨_, matched, bind_eq_ok.2 ⟨_, ih, rfl⟩⟩

end Lexer

end Hoist.Surface
