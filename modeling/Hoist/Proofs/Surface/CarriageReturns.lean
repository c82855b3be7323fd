import Hoist.Proofs.Surface.Pieces
import Hoist.Proofs.TextCoverage

/-!
# Carriage returns before line ends

A text may end its lines with a carriage return and a newline. The lexer takes the carriage return for a
blank, so it cuts such a text like the one without carriage returns, with two exceptions: a backslash
joins two lines only right before the newline, and a string between single quotes that goes on behind a
backslash and a newline ends at the newline if a carriage return stands between them.
-/

namespace Hoist.Text

/-- A text with a carriage return before each line end. -/
def crlf (text : List Char) : List Char := text.flatMap fun c => if c == '\n' then ['\r', '\n'] else [c]

variable {text : List Char} {c : Char} {p : Char → Bool}

@[simp] theorem crlf_nil : crlf [] = [] := rfl

@[simp] theorem crlf_newline (text : List Char) : crlf ('\n' :: text) = '\r' :: '\n' :: crlf text := rfl

@[simp] theorem crlf_cons (h : c ≠ '\n') (text : List Char) : crlf (c :: text) = c :: crlf text := by
  simp [crlf, h]

@[simp] theorem crlf_append (text text' : List Char) : crlf (text ++ text') = crlf text ++ crlf text' :=
  List.flatMap_append

theorem crlf_of_not_mem (h : '\n' ∉ text) : crlf text = text := by
  induction text with
  | nil => rfl
  | cons c text ih =>
    rw [List.mem_cons, not_or] at h
    rw [crlf_cons (Ne.symm h.1), ih h.2]

/-- A run of characters that are not part of line ends is the same with carriage returns. -/
theorem takeWhile_crlf (hreturn : p '\r' = false) (hline : p '\n' = false) (text : List Char) :
    (crlf text).takeWhile p = text.takeWhile p := by
  induction text with
  | nil => rfl
  | cons c text ih =>
    by_cases hc : c = '\n'
    · simp [hc, hreturn, hline]
    · simp [hc, List.takeWhile_cons, ih]

theorem dropWhile_crlf (hreturn : p '\r' = false) (hline : p '\n' = false) (text : List Char) :
    (crlf text).dropWhile p = crlf (text.dropWhile p) := by
  induction text with
  | nil => rfl
  | cons c text ih =>
    by_cases hc : c = '\n'
    · simp [hc, hreturn, hline]
    · simp only [crlf_cons hc, List.dropWhile_cons, ih]
      split
      · rfl
      · rw [crlf_cons hc]

theorem isPrefixOf_crlf {front : List Char} (hreturn : '\r' ∉ front) (hline : '\n' ∉ front)
    (text : List Char) : front.isPrefixOf (crlf text) = front.isPrefixOf text := by
  induction front generalizing text with
  | nil => simp
  | cons d front ih =>
    rw [List.mem_cons, not_or] at hreturn hline
    cases text with
    | nil => rfl
    | cons c text =>
      by_cases hc : c = '\n'
      · have hd : (d == '\r') = false := beq_false_of_ne (Ne.symm hreturn.1)
        have hd' : (d == '\n') = false := beq_false_of_ne (Ne.symm hline.1)
        simp [hc, List.isPrefixOf, hd, hd']
      · simp [hc, List.isPrefixOf, ih hreturn.2 hline.2]

/-- The first character of a text that is not part of a line end. -/
theorem any_head_crlf (hreturn : p '\r' = false) (hline : p '\n' = false) (text : List Char) :
    (crlf text).head?.any p = text.head?.any p := by
  cases text with
  | nil => rfl
  | cons c text =>
    by_cases hc : c = '\n'
    · simp [hc, hreturn, hline]
    · simp [hc]

theorem head_crlf_ne_newline (text : List Char) : (crlf text).head? ≠ some '\n' := by
  cases text with
  | nil => simp
  | cons c text =>
    by_cases hc : c = '\n' <;> simp [hc]

/-- Behind a line, up to its newline, the text is the same but for the carriage returns. -/
theorem dropLine_crlf (text : List Char) : (crlf text).dropWhile (· != '\n') =
    match text.dropWhile (· != '\n') with
    | [] => []
    | _ :: next => '\n' :: crlf next := by
  induction text with
  | nil => rfl
  | cons c text ih =>
    by_cases hc : c = '\n'
    · simp [hc]
    · simp [hc, ih]

theorem afterLine_crlf (text : List Char) : afterLine (crlf text) = crlf (afterLine text) := by
  unfold afterLine
  rw [dropLine_crlf]
  cases text.dropWhile (· != '\n') <;> rfl

end Hoist.Text

namespace Hoist.Surface

/-- Whether a token is a string between single quotes that holds a line end, which can only stand
behind a backslash there. -/
def breaks (kind : Kind) (text : List Char) : Bool :=
  kind == .string && quoteWidth text == 1 && text.contains '\n'

theorem Mark.not_mem_spelling (m : Mark) : '\r' ∉ m.spelling.toList ∧ '\n' ∉ m.spelling.toList := by
  cases m <;> decide

namespace Numeral

theorem starts_crlf (c : Char) (rest : List Char) :
    starts (c :: Text.crlf rest) = starts (c :: rest) := by
  cases rest with
  | nil => rfl
  | cons d rest =>
    by_cases hd : d = '\n'
    · subst hd
      by_cases hc : c = '.'
      · subst hc
        rfl
      · simp [starts, hc]
    · by_cases hc : c = '.' <;> simp [starts, hc, hd]

theorem not_mem_digits (cs : List Char) : '\n' ∉ cs.takeWhile Text.isDigit := fun h => by
  cases List.mem_takeWhile_imp h

/-- No part of a numeral holds a line end. -/
theorem scanFraction_front (cs : List Char) : ∃ front, '\n' ∉ front ∧
    cs = front ++ (scanFraction cs).2 := by
  unfold scanFraction
  split
  · rename_i rest
    refine ⟨'.' :: rest.takeWhile Text.isDigit, by simp [not_mem_digits], ?_⟩
    rw [List.cons_append, List.takeWhile_append_dropWhile]
  · exact ⟨[], by simp, rfl⟩

theorem scanExponent_front (cs : List Char) : ∃ front, '\n' ∉ front ∧
    cs = front ++ (scanExponent cs).2 := by
  unfold scanExponent
  split
  · rename_i c rest
    split
    · rename_i hc
      have hc : c ≠ '\n' := by rintro rfl; simp at hc
      have hsign : ∃ sign, '\n' ∉ sign ∧ rest = sign ++
          if rest.head? == some '+' || rest.head? == some '-' then rest.drop 1 else rest := by
        split
        · rename_i hsign
          cases rest with
          | nil => simp at hsign
          | cons d rest => exact ⟨[d], by rintro h; simp at h hsign; simp [← h] at hsign, rfl⟩
        · exact ⟨[], by simp, rfl⟩
      obtain ⟨sign, hline, hrest⟩ := hsign
      dsimp only
      generalize (if rest.head? == some '+' || rest.head? == some '-' then rest.drop 1 else rest) =
        digits at hrest ⊢
      split
      · exact ⟨[], by simp, rfl⟩
      · refine ⟨c :: (sign ++ digits.takeWhile Text.isDigit), ?_, ?_⟩
        · simp [hc.symm, hline, not_mem_digits]
        · rw [List.cons_append, List.append_assoc, List.takeWhile_append_dropWhile, ← hrest]
    · exact ⟨[], by simp, rfl⟩
  · exact ⟨[], by simp, rfl⟩

theorem scan_front (cs : List Char) : ∃ front, '\n' ∉ front ∧ cs = front ++ (scan cs).2 := by
  obtain ⟨fraction, hfraction, hf⟩ := scanFraction_front (cs.dropWhile Text.isDigit)
  obtain ⟨exponent, hexponent, he⟩ := scanExponent_front (scanFraction (cs.dropWhile Text.isDigit)).2
  refine ⟨cs.takeWhile Text.isDigit ++ fraction ++ exponent, ?_, ?_⟩
  · simp [not_mem_digits, hfraction, hexponent]
  · have hrest : (scan cs).2 = (scanExponent (scanFraction (cs.dropWhile Text.isDigit)).2).2 := rfl
    rw [hrest, List.append_assoc, ← he, List.append_assoc, ← hf, List.takeWhile_append_dropWhile]

theorem scanFraction_crlf (cs : List Char) :
    scanFraction (Text.crlf cs) = ((scanFraction cs).1, Text.crlf (scanFraction cs).2) := by
  cases cs with
  | nil => rfl
  | cons c rest =>
    by_cases hc : c = '\n'
    · subst hc
      rfl
    · rw [Text.crlf_cons hc]
      by_cases hpoint : c = '.'
      · subst hpoint
        simp only [scanFraction]
        rw [Text.takeWhile_crlf rfl rfl, Text.dropWhile_crlf rfl rfl]
      · simp [scanFraction, hpoint, hc]

/-- A sign is no line end. -/
theorem head_crlf_beq {d : Char} (hd : d ≠ '\r' ∧ d ≠ '\n') (cs : List Char) :
    ((Text.crlf cs).head? == some d) = (cs.head? == some d) := by
  cases cs with
  | nil => rfl
  | cons c cs =>
    by_cases hc : c = '\n'
    · subst hc
      simp [Ne.symm hd.1, Ne.symm hd.2]
    · rw [Text.crlf_cons hc]
      rfl

theorem scanExponent_crlf (cs : List Char) :
    scanExponent (Text.crlf cs) = ((scanExponent cs).1, Text.crlf (scanExponent cs).2) := by
  cases cs with
  | nil => rfl
  | cons c rest =>
    by_cases hc : c = '\n'
    · subst hc
      rfl
    rw [Text.crlf_cons hc]
    unfold scanExponent
    have hdigits : (if (Text.crlf rest).head? == some '+' || (Text.crlf rest).head? == some '-' then
        (Text.crlf rest).drop 1 else Text.crlf rest) = Text.crlf
          (if rest.head? == some '+' || rest.head? == some '-' then rest.drop 1 else rest) := by
      rw [head_crlf_beq (by decide), head_crlf_beq (by decide)]
      split
      · rename_i hsign
        cases rest with
        | nil => rfl
        | cons d rest =>
          have hd : d ≠ '\n' := by rintro rfl; simp at hsign
          rw [Text.crlf_cons hd]
          rfl
      · rfl
    dsimp only
    rw [hdigits, head_crlf_beq (by decide), Text.takeWhile_crlf rfl rfl, Text.dropWhile_crlf rfl rfl]
    split
    · split
      · rw [Text.crlf_cons hc]
      · rfl
    · rw [Text.crlf_cons hc]

/-- The numeral at the front of a text does not depend on carriage returns. -/
theorem scan_crlf (cs : List Char) : scan (Text.crlf cs) = ((scan cs).1, Text.crlf (scan cs).2) := by
  simp only [scan]
  rw [Text.takeWhile_crlf rfl rfl, Text.dropWhile_crlf rfl rfl, scanFraction_crlf, scanExponent_crlf]

end Numeral

namespace Lexer

/-- Two searches at the front of a text, the second one in the text with carriage returns: both are in
vain, or they find the same front, unless the carriage returns break it. -/
inductive Cuts (text : List Char) (broken : List Char → Prop) (i i' : Nat) :
    Except Nat Nat → Except Nat Nat → Prop
  | refused {e e'} : Cuts text broken i i' (.error e) (.error e')
  | broken {front back e'} (split : text = front ++ back) (h : broken front) :
      Cuts text broken i i' (.ok (i + front.length)) (.error e')
  | cut {front back} (split : text = front ++ back) (h : ¬broken front) :
      Cuts text broken i i' (.ok (i + front.length)) (.ok (i' + (Text.crlf front).length))

variable {cs rest closing : List Char} {pos pos' n i i' : Nat} {q c : Char} {x x' : Except Nat Nat}
  {broken : List Char → Prop}

/-- A search that goes on behind some characters. -/
theorem Cuts.behind (front : List Char) (hbroken : ∀ u, broken (front ++ u) ↔ broken u)
    (h : Cuts rest broken (i + front.length) (i' + (Text.crlf front).length) x x') :
    Cuts (front ++ rest) broken i i' x x' := by
  cases h with
  | refused => exact .refused
  | @broken u back e' split h =>
    rw [Nat.add_assoc, ← List.length_append]
    exact .broken (by rw [split, List.append_assoc]) ((hbroken u).2 h)
  | @cut u back split h =>
    rw [Nat.add_assoc, ← List.length_append, Nat.add_assoc, ← List.length_append, ← Text.crlf_append]
    exact .cut (by rw [split, List.append_assoc]) fun hu => h ((hbroken u).1 hu)

/-- A search that fails with carriage returns because they break what it finds. -/
theorem Cuts.brokenBehind {j e : Nat} (front : List Char) (hbroken : ∀ u, broken (front ++ u))
    (h : Cuts rest broken (i + front.length) j x x') :
    Cuts (front ++ rest) broken i i' x (.error e) := by
  have hbreaks {u back : List Char} (split : rest = u ++ back) :
      Cuts (front ++ rest) broken i i' (.ok (i + front.length + u.length)) (.error e) := by
    rw [Nat.add_assoc, ← List.length_append]
    exact .broken (by rw [split, List.append_assoc]) (hbroken u)
  cases h with
  | refused => exact .refused
  | broken split => exact hbreaks split
  | cut split => exact hbreaks split

/-- One step of the search for the end of a string. -/
theorem stringEnd_cons (hc : c ≠ '\\') : stringEnd closing (c :: rest) i =
    if closing.length == 1 && c == '\n' then .error i
    else if closing.isPrefixOf (c :: rest) then .ok (i + closing.length)
    else stringEnd closing rest (i + 1) := by
  rw [stringEnd]
  · exact fun h => absurd h hc
  · exact fun _ _ h => absurd h hc

/-- The end of a string is found behind the same characters, unless a single quote has to close it on
another line. -/
theorem stringEnd_crlf (hne : closing ≠ []) (hreturn : '\r' ∉ closing) (hline : '\n' ∉ closing)
    (cs : List Char) (i i' : Nat) :
    Cuts cs (fun front => closing.length = 1 ∧ '\n' ∈ front) i i' (stringEnd closing cs i)
      (stringEnd closing (Text.crlf cs) i') := by
  have hfirst {d : Char} (hd : d ∉ closing) (rest : List Char) :
      closing.isPrefixOf (d :: rest) = false := by
    obtain ⟨q, closing, rfl⟩ := List.exists_cons_of_ne_nil hne
    have hq : (q == d) = false := beq_false_of_ne fun h => hd (h ▸ List.mem_cons_self)
    simp [List.isPrefixOf, hq]
  fun_induction stringEnd closing cs i generalizing i' with
  | case1 i => exact .refused
  | case2 i => exact .refused
  | case3 c rest i ih =>
    by_cases hc : c = '\n'
    · subst hc
      have hskip : stringEnd closing (Text.crlf ('\\' :: '\n' :: rest)) i' =
          if closing.length == 1 then .error (i' + 2)
          else stringEnd closing (Text.crlf rest) (i' + 3) := by
        rw [Text.crlf_cons (by decide), Text.crlf_newline, stringEnd, stringEnd_cons (by decide),
          hfirst hline]
        simp
      rw [hskip]
      split
      · rename_i hone
        exact (ih 0).brokenBehind ['\\', '\n'] fun u => ⟨beq_iff_eq.1 hone, by simp⟩
      · rename_i hone
        exact (ih (i' + 3)).behind ['\\', '\n'] fun u => by simp_all
    · rw [Text.crlf_cons (by decide), Text.crlf_cons hc, stringEnd]
      refine Cuts.behind ['\\', c] (fun u => by simp [Ne.symm hc]) ?_
      simpa [hc] using ih (i' + 2)
  | case4 c rest i hlone hpair hend =>
    simp only [Bool.and_eq_true, beq_iff_eq] at hend
    obtain ⟨hone, rfl⟩ := hend
    rw [Text.crlf_newline, stringEnd_cons (by decide), hfirst hreturn, stringEnd_cons (by decide)]
    simp only [hone]
    exact .refused
  | case5 c rest i hlone hpair hend hclosing =>
    have hc : c ≠ '\n' := by
      rintro rfl
      rw [hfirst hline] at hclosing
      cases hclosing
    have hbackslash : c ≠ '\\' := ne_backslash hlone hpair
    rw [Text.crlf_cons hc, stringEnd_cons hbackslash, if_neg (by simp [hc]), ← Text.crlf_cons hc,
      Text.isPrefixOf_crlf hreturn hline, if_pos hclosing]
    obtain ⟨back, hback⟩ := List.isPrefixOf_iff_prefix.1 hclosing
    have hcut : Cuts (c :: rest) (fun front => closing.length = 1 ∧ '\n' ∈ front) i i'
        (.ok (i + closing.length)) (.ok (i' + (Text.crlf closing).length)) :=
      .cut hback.symm fun h => hline h.2
    rwa [Text.crlf_of_not_mem hline] at hcut
  | case6 c rest i hlone hpair hend hclosing ih =>
    have hbackslash : c ≠ '\\' := ne_backslash hlone hpair
    by_cases hc : c = '\n'
    · subst hc
      have hone : ¬closing.length = 1 := by simpa using hend
      have hskip : stringEnd closing (Text.crlf ('\n' :: rest)) i' =
          stringEnd closing (Text.crlf rest) (i' + 2) := by
        rw [Text.crlf_newline, stringEnd_cons (by decide), hfirst hreturn, stringEnd_cons (by decide),
          hfirst hline]
        simp [hone]
      rw [hskip]
      exact (ih (i' + 2)).behind ['\n'] fun u => by simp [hone]
    · rw [Text.crlf_cons hc, stringEnd_cons hbackslash, if_neg (by simp [hc]), ← Text.crlf_cons hc,
        Text.isPrefixOf_crlf hreturn hline, if_neg hclosing]
      refine Cuts.behind [c] (fun u => by simp [Ne.symm hc]) ?_
      simpa [hc] using ih (i' + 1)

theorem closingQuotes_crlf (hq : q ≠ '\r' ∧ q ≠ '\n') (rest : List Char) :
    closingQuotes q (Text.crlf rest) = closingQuotes q rest := by
  rw [closingQuotes_eq, closingQuotes_eq, Text.isPrefixOf_crlf (by simp [hq.1.symm]) (by simp [hq.2.symm])]

/-- A string that is cut out of a text has as many quotes as close it. -/
theorem quoteWidth_cut {front back : List Char} (h : stringLength pos q rest = .ok front.length)
    (split : q :: rest = front ++ back) : quoteWidth front = (closingQuotes q rest).length := by
  obtain ⟨body, back', hrest, hlength, -⟩ := stringLength_spec h
  have hfront : front = closingQuotes q rest ++ (body ++ closingQuotes q rest) := by
    rw [← List.append_assoc, ← List.append_assoc, List.append_assoc _ body] at hrest
    exact (List.append_inj (split.symm.trans hrest) hlength).1
  rw [hfront, quoteWidth_closed hrest]

/-- The tokens at the front of a text and of the text with carriage returns: neither text starts with
one, or they have the same kind and cover the same front, unless the carriage returns break it. -/
inductive CutAlike (text : List Char) : Except Fault (Kind × Nat) → Except Fault (Kind × Nat) → Prop
  | refused {f f'} : CutAlike text (.error f) (.error f')
  | broken {kind front back f'} (split : text = front ++ back) (h : breaks kind front = true) :
      CutAlike text (.ok (kind, front.length)) (.error f')
  | cut {kind front back} (split : text = front ++ back) (whole : breaks kind front = false)
      (plain : kind = .string ∨ '\n' ∉ front) :
      CutAlike text (.ok (kind, front.length)) (.ok (kind, (Text.crlf front).length))

/-- A token without line ends is cut out in the same way. -/
theorem CutAlike.plain {kind : Kind} {text front : List Char} (hkind : kind ≠ .string)
    (hfront : front <+: text) (hline : '\n' ∉ front) :
    CutAlike text (.ok (kind, front.length)) (.ok (kind, front.length)) := by
  obtain ⟨back, rfl⟩ := hfront
  have hcut : CutAlike (front ++ back) (.ok (kind, front.length))
      (.ok (kind, (Text.crlf front).length)) :=
    .cut rfl (by simp [breaks, hkind]) (.inr hline)
  rwa [Text.crlf_of_not_mem hline] at hcut

/-- A string is cut out of a text with its carriage returns, unless they break it. -/
theorem string_crlf (hq : q ≠ '\r' ∧ q ≠ '\n') (rest : List Char) (pos pos' : Nat) :
    CutAlike (q :: rest) ((Kind.string, ·) <$> stringLength pos q rest)
      ((Kind.string, ·) <$> stringLength pos' q (Text.crlf rest)) := by
  have hwidth {front back : List Char} (h : stringLength pos q rest = .ok front.length)
      (split : q :: rest = front ++ back) := quoteWidth_cut h split
  obtain ⟨tail, htail⟩ := closingQuotes_front q rest
  obtain ⟨hne, hreturn, hline⟩ : closingQuotes q rest ≠ [] ∧ '\r' ∉ closingQuotes q rest ∧
      '\n' ∉ closingQuotes q rest := by
    unfold closingQuotes
    split <;> simp [hq.1.symm, hq.2.symm]
  have hdrop : (q :: rest).drop (closingQuotes q rest).length = tail := by
    rw [← htail, List.drop_left]
  have hdrop' : (q :: Text.crlf rest).drop (closingQuotes q rest).length = Text.crlf tail := by
    have h := congrArg Text.crlf htail
    rw [Text.crlf_append, Text.crlf_of_not_mem hline, Text.crlf_cons hq.2] at h
    rw [← h, List.drop_left]
  have hcuts : Cuts (q :: rest) (fun front => (closingQuotes q rest).length = 1 ∧ '\n' ∈ front) 0 0
      (stringEnd (closingQuotes q rest) tail (closingQuotes q rest).length)
      (stringEnd (closingQuotes q rest) (Text.crlf tail) (closingQuotes q rest).length) := by
    rw [← htail]
    refine Cuts.behind _ (fun u => by simp [hline]) ?_
    rw [Text.crlf_of_not_mem hline, Nat.zero_add]
    exact stringEnd_crlf hne hreturn hline tail _ _
  unfold stringLength at hwidth ⊢
  simp only [closingQuotes_crlf hq, hdrop, hdrop'] at hwidth ⊢
  generalize stringEnd (closingQuotes q rest) tail (closingQuotes q rest).length = x at hcuts hwidth ⊢
  generalize stringEnd (closingQuotes q rest) (Text.crlf tail) (closingQuotes q rest).length = x'
    at hcuts ⊢
  cases hcuts with
  | refused => exact .refused
  | @broken front back e' split h =>
    rw [Nat.zero_add] at hwidth ⊢
    refine .broken split ?_
    simp [breaks, hwidth rfl split, h]
  | @cut front back split h =>
    rw [Nat.zero_add] at hwidth
    rw [Nat.zero_add, Nat.zero_add]
    refine .cut split ?_ (.inl rfl)
    simpa [breaks, hwidth rfl split] using h

/-- The same token stands at the front of a text with carriage returns. -/
theorem lexeme_crlf (hc : c ≠ '\r' ∧ c ≠ '\n') (rest : List Char) (pos pos' : Nat) :
    CutAlike (c :: rest) (lexeme pos c rest) (lexeme pos' c (Text.crlf rest)) := by
  unfold lexeme
  split
  · exact string_crlf hc rest pos pos'
  rw [Numeral.starts_crlf]
  split
  · have hscan := Numeral.scan_crlf (c :: rest)
    obtain ⟨front, hfront, hsplit⟩ := Numeral.scan_front (c :: rest)
    rw [Text.crlf_cons hc.2] at hscan
    obtain ⟨back, hback⟩ : ∃ back, (Numeral.scan (c :: rest)).2 = back := ⟨_, rfl⟩
    rw [hback] at hscan hsplit
    have hsplit' := congrArg Text.crlf hsplit
    rw [Text.crlf_cons hc.2, Text.crlf_append, Text.crlf_of_not_mem hfront] at hsplit'
    have hlength : (c :: rest).length - back.length = front.length := by
      rw [hsplit, List.length_append, Nat.add_sub_cancel]
    have hlength' : (c :: Text.crlf rest).length - (Text.crlf back).length = front.length := by
      rw [hsplit', List.length_append, Nat.add_sub_cancel]
    simp only [numberLength, hscan, hback, hlength, hlength']
    rw [Text.any_head_crlf rfl rfl]
    split
    · exact .refused
    · exact .plain (by simp) ⟨back, hsplit.symm⟩ hfront
  split
  · simp only [Text.takeWhile_crlf (p := Text.isIdent) rfl rfl rest]
    have hrun : c :: rest.takeWhile Text.isIdent <+: c :: rest :=
      List.cons_prefix_cons.2 ⟨rfl, List.takeWhile_prefix _⟩
    have hline : '\n' ∉ c :: rest.takeWhile Text.isIdent := by
      rw [List.mem_cons, not_or]
      refine ⟨hc.2.symm, fun h => ?_⟩
      cases List.mem_takeWhile_imp h
    split
    · exact .plain (by simp) hrun hline
    · exact .plain (by simp) hrun hline
  · have hmark : Mark.ofFront? (c :: Text.crlf rest) = Mark.ofFront? (c :: rest) := by
      unfold Mark.ofFront?
      congr 1
      funext m
      obtain ⟨hreturn, hline⟩ := m.not_mem_spelling
      rw [← Text.crlf_cons hc.2, Text.isPrefixOf_crlf hreturn hline]
    rw [hmark]
    split
    · rename_i m hm
      have hfront := List.find?_some hm
      rw [List.isPrefixOf_iff_prefix] at hfront
      rw [← String.length_toList]
      exact .plain (by simp) hfront m.not_mem_spelling.2
    · exact .refused

end Lexer

end Hoist.Surface
