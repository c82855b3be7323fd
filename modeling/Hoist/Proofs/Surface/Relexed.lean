import Hoist.Proofs.Surface.Alike
import Hoist.Proofs.Surface.CarriageReturns

/-!
# Tokens are cut off again

The lexer cuts a token off a text by its own characters and those behind it. It does the same where the
text behind is left from some place on and goes on with a closing parenthesis, which is part of no other
token.
-/

namespace Hoist.Surface

/-- Two texts that start with the same characters, behind which one of them has a closing parenthesis. -/
def Reclosed (v v' : List Char) : Prop := ∃ u rest rest', v = u ++ rest ∧ v' = u ++ ')' :: rest'

section

variable {v v' w x : List Char} {p : Char → Bool} {q c : Char} {cs : List Char} {pos pos' n i : Nat}
  {kind : Kind} {closing : List Char}

namespace Reclosed

/-- No run of characters goes on with a closing parenthesis. -/
theorem head (h : Reclosed v v') (hp : p ')' = false) (hv : ∀ d ∈ v.head?, p d = false) :
    ∀ d ∈ v'.head?, p d = false := by
  obtain ⟨u, rest, rest', rfl, rfl⟩ := h
  cases u with
  | nil =>
    rintro _ ⟨⟩
    exact hp
  | cons d u => exact hv

theorem any_head (h : Reclosed v v') (hp : p ')' = false) (hv : v.head?.any p = false) :
    v'.head?.any p = false := by
  have hhead := h.head hp fun d hd => by
    rw [Option.mem_def.1 hd] at hv
    exact hv
  cases hd : v'.head? with
  | none => rfl
  | some d => exact hhead d hd

theorem isPrefixOf (h : Reclosed v v') {s : List Char} (hs : ')' ∉ s) (hfront : s <+: w ++ v') :
    s <+: w ++ v := by
  obtain ⟨u, rest, rest', rfl, rfl⟩ := h
  rw [← List.append_assoc] at hfront ⊢
  obtain hle | hle := Nat.le_total s.length (w ++ u).length
  · exact (List.prefix_of_prefix_length_le hfront (List.prefix_append _ _) hle).trans
      (List.prefix_append _ _)
  · obtain ⟨t, rfl⟩ := List.prefix_of_prefix_length_le (List.prefix_append (w ++ u) (')' :: rest'))
      hfront hle
    cases t with
    | nil => simp
    | cons d t =>
      obtain ⟨s', hs'⟩ := hfront
      rw [List.append_assoc] at hs'
      obtain ⟨rfl, -⟩ := List.cons.inj (List.append_cancel_left hs')
      simp at hs

/-- A run of characters that ends in front of one text ends in front of the other one. -/
theorem runs (h : Reclosed v v') (hp : p ')' = false) (hdrop : (w ++ v).dropWhile p = x ++ v) :
    (w ++ v').dropWhile p = x ++ v' ∧ (w ++ v').takeWhile p = (w ++ v).takeWhile p := by
  induction w with
  | nil =>
    obtain rfl : x = [] := by
      have hle := (List.dropWhile_suffix p (l := [] ++ v)).length_le
      rw [hdrop, List.nil_append, List.length_append] at hle
      exact List.length_eq_zero_iff.1 (by omega)
    have hv : ∀ d ∈ v.head?, p d = false := by
      intro d hd
      have hnot := List.head?_dropWhile_not p v
      rw [← List.nil_append v, hdrop, List.nil_append, Option.mem_def.1 hd] at hnot
      exact hnot
    have hstop {t : List Char} (ht : ∀ d ∈ t.head?, p d = false) :
        t.dropWhile p = t ∧ t.takeWhile p = [] := by
      cases t with
      | nil => exact ⟨rfl, rfl⟩
      | cons d t => simp [ht d rfl]
    have hv' := hstop (h.head hp hv)
    exact ⟨hv'.1, hv'.2.trans (hstop hv).2.symm⟩
  | cons a w ih =>
    by_cases ha : p a = true
    · rw [List.cons_append, List.dropWhile_cons_of_pos ha] at hdrop
      simpa [ha] using ih hdrop
    · rw [List.cons_append, List.dropWhile_cons_of_neg ha, ← List.cons_append] at hdrop
      obtain rfl := List.append_cancel_right hdrop
      simp [ha]

end Reclosed

namespace Numeral

theorem scanFraction_reclosed (h : Reclosed v v') (hscan : (scanFraction (w ++ v)).2 = x ++ v) :
    (scanFraction (w ++ v')).2 = x ++ v' := by
  cases w with
  | nil =>
    have hv : ∀ d ∈ v.head?, (d == '.') = false := by
      rintro d hd
      obtain ⟨rest, rfl⟩ := List.head?_eq_some_iff.1 (Option.mem_def.1 hd)
      rw [beq_eq_false_iff_ne]
      rintro rfl
      have hle := (List.dropWhile_suffix Text.isDigit (l := rest)).length_le
      have := congrArg List.length hscan
      simp only [scanFraction, List.nil_append, List.length_append, List.length_cons] at this
      omega
    have hwhole {t : List Char} (ht : ∀ d ∈ t.head?, (d == '.') = false) : (scanFraction t).2 = t := by
      unfold scanFraction
      split
      · cases ht '.' rfl
      · rfl
    rw [List.nil_append, hwhole hv] at hscan
    obtain rfl : x = [] := List.append_left_eq_self.1 hscan.symm
    exact hwhole (h.head rfl hv)
  | cons a w =>
    by_cases ha : a = '.'
    · subst ha
      exact (h.runs rfl hscan).1
    · have hwhole (t : List Char) : (scanFraction (a :: t)).2 = a :: t := by
        unfold scanFraction
        split
        · rename_i heq
          exact absurd (List.cons.inj heq).1 ha
        · rfl
      rw [List.cons_append, hwhole, ← List.cons_append] at hscan
      obtain rfl := List.append_cancel_right hscan
      rw [List.cons_append, hwhole]

/-- What stands behind the sign of an exponent, or behind its mark. -/
def behindSign (rest : List Char) : List Char :=
  if rest.head? == some '+' || rest.head? == some '-' then rest.drop 1 else rest

/-- A mark of an exponent is left where no digits are behind it. -/
theorem scanExponent_mark (hc : (c == 'e' || c == 'E') = true) (rest : List Char) :
    (scanExponent (c :: rest)).2 = if (behindSign rest).takeWhile Text.isDigit = [] then c :: rest
      else (behindSign rest).dropWhile Text.isDigit := by
  rw [scanExponent, if_pos hc]
  unfold behindSign
  dsimp only
  generalize (if rest.head? == some '+' || rest.head? == some '-' then rest.drop 1 else rest) = digits
  split
  · rename_i hdigits
    rw [if_pos hdigits]
  · rename_i hdigits
    exact (if_neg hdigits).symm

/-- An exponent ends in front of the other text as well if it ends in front of no letter. -/
theorem scanExponent_reclosed (h : Reclosed v v') (hv : ∀ d ∈ v.head?, Text.isIdent d = false)
    (hscan : (scanExponent (w ++ v)).2 = v) : (scanExponent (w ++ v')).2 = v' := by
  have hwhole {t : List Char} (ht : ∀ d ∈ t.head?, Text.isIdent d = false) :
      (scanExponent t).2 = t := by
    unfold scanExponent
    split
    · rename_i c rest
      rw [if_neg]
      intro hc
      have hident := ht c rfl
      simp only [Bool.or_eq_true, beq_iff_eq] at hc
      obtain rfl | rfl := hc <;> cases hident
    · rfl
  cases w with
  | nil => exact hwhole (h.head rfl hv)
  | cons a w =>
    have hlonger : a :: (w ++ v) ≠ v := fun ht => by
      have := congrArg List.length ht
      simp only [List.length_cons, List.length_append] at this
      omega
    have hmark : (a == 'e' || a == 'E') = true := by
      by_contra hmark
      rw [List.cons_append, scanExponent, if_neg hmark] at hscan
      exact hlonger hscan
    rw [List.cons_append, scanExponent_mark hmark] at hscan ⊢
    have hdigits : (behindSign (w ++ v)).takeWhile Text.isDigit ≠ [] := fun hdigits => by
      rw [if_pos hdigits] at hscan
      exact hlonger hscan
    rw [if_neg hdigits] at hscan
    -- the digits start in front of `v`, which starts with no digit and which a sign would not leave whole
    obtain ⟨z, hz⟩ : ∃ z, ∀ t : List Char, t = v ∨ t = v' → behindSign (w ++ t) = z ++ t := by
      cases w with
      | nil =>
        refine absurd ?_ hdigits
        rw [List.nil_append, behindSign] at hscan ⊢
        split at hscan
        · have hle := (List.dropWhile_suffix Text.isDigit (l := v.drop 1)).length_le
          rw [hscan, List.length_drop] at hle
          obtain rfl : v = [] := List.length_eq_zero_iff.1 (by omega)
          rfl
        · rename_i hsign
          rw [if_neg hsign]
          cases v with
          | nil => rfl
          | cons d v =>
            refine List.takeWhile_cons_of_neg fun hdigit => ?_
            have hd := hv d rfl
            rw [Text.isIdent, hdigit] at hd
            simp at hd
      | cons s w =>
        by_cases hs : (some s == some '+' || some s == some '-') = true
        · exact ⟨w, fun t _ => if_pos hs⟩
        · exact ⟨s :: w, fun t _ => if_neg hs⟩
    rw [hz v (.inl rfl)] at hscan hdigits
    obtain ⟨hdrop, htake⟩ := h.runs (x := []) (p := Text.isDigit) rfl hscan
    rw [hz v' (.inr rfl), htake, if_neg hdigits]
    exact hdrop

theorem scan_reclosed (h : Reclosed v v') (hv : ∀ d ∈ v.head?, Text.isIdent d = false)
    (hscan : (scan (w ++ v)).2 = v) : (scan (w ++ v')).2 = v' := by
  change (scanExponent (scanFraction ((w ++ v).dropWhile Text.isDigit)).2).2 = v at hscan
  change (scanExponent (scanFraction ((w ++ v').dropWhile Text.isDigit)).2).2 = v'
  have hfraction := scanExponent_suffix (scanFraction ((w ++ v).dropWhile Text.isDigit)).2
  rw [hscan] at hfraction
  obtain ⟨x, hx⟩ := hfraction.trans (scanFraction_suffix _)
  obtain ⟨y, hy⟩ := hfraction
  rw [(h.runs rfl hx.symm).1]
  rw [← hy] at hscan
  rw [← hx] at hy
  rw [scanFraction_reclosed h hy.symm]
  exact scanExponent_reclosed h hv hscan

end Numeral

namespace Lexer

/-- Behind a numeral there is what its scan leaves, which starts with no letter. -/
theorem numberLength_spec (hlength : numberLength pos (w ++ v) = .ok w.length) :
    (Numeral.scan (w ++ v)).2 = v ∧ v.head?.any Text.isIdent = false := by
  unfold numberLength at hlength
  dsimp only at hlength
  split at hlength
  · cases hlength
  rename_i hend
  obtain ⟨front, -, hfront⟩ := Numeral.scan_front (w ++ v)
  have hrest : (Numeral.scan (w ++ v)).2 = v := by
    have hle := congrArg List.length hfront
    have hlength := Except.ok.inj hlength
    rw [List.length_append, List.length_append] at hle
    rw [List.length_append] at hlength
    exact (List.append_inj' hfront.symm (by omega)).2
  rw [hrest] at hend
  exact ⟨hrest, by simpa using hend⟩

theorem numberLength_reclosed (h : Reclosed v v') (hlength : numberLength pos (w ++ v) = .ok w.length) :
    numberLength pos' (w ++ v') = .ok w.length := by
  obtain ⟨hrest, hv⟩ := numberLength_spec hlength
  have hident : ∀ d ∈ v.head?, Text.isIdent d = false := by
    intro d hd
    rw [Option.mem_def.1 hd] at hv
    exact hv
  unfold numberLength
  dsimp only
  rw [Numeral.scan_reclosed h hident hrest, if_neg (by simpa using h.any_head rfl hv)]
  simp

/-- The end of a string is found by the characters of the string. -/
theorem stringEnd_front (hclosing : closing ≠ [])
    (hend : stringEnd closing (w ++ v) i = .ok (i + w.length)) (v' : List Char) :
    stringEnd closing (w ++ v') i = .ok (i + w.length) := by
  obtain ⟨text, htext⟩ : ∃ text, w ++ v = text := ⟨_, rfl⟩
  rw [htext] at hend
  fun_induction stringEnd closing text i generalizing w with
  | case1 | case2 | case4 => cases hend
  | case3 d rest i ih =>
    have hle := (stringEnd_le hend).1
    rcases w with _ | ⟨a, _ | ⟨b, w⟩⟩
    · exact absurd hle (by simp)
    · exact absurd hle (by simp)
    simp only [List.cons_append, List.cons.injEq] at htext
    obtain ⟨rfl, rfl, hrest⟩ := htext
    have hlength : i + ('\\' :: b :: w).length = i + 2 + w.length := by
      simp only [List.length_cons]
      omega
    rw [hlength] at hend ⊢
    rw [List.cons_append, List.cons_append, stringEnd]
    exact ih hend hrest
  | case5 c rest i hlone hpair hline hprefix =>
    have hlength : closing.length = w.length := by
      have := Except.ok.inj hend
      omega
    have hfront := List.isPrefixOf_iff_prefix.1 hprefix
    rw [← htext] at hfront
    obtain rfl := (List.prefix_of_prefix_length_le hfront (List.prefix_append _ _)
      hlength.le).eq_of_length hlength
    obtain ⟨d, closing, rfl⟩ := List.exists_cons_of_ne_nil hclosing
    obtain ⟨rfl, -⟩ := List.cons.inj htext
    rw [List.cons_append, stringEnd_cons (ne_backslash hlone hpair), if_neg hline, if_pos]
    exact List.isPrefixOf_iff_prefix.2 (List.prefix_append _ _)
  | case6 c rest i hlone hpair hline hprefix ih =>
    obtain ⟨body, back, hrest, hlength, -⟩ := stringEnd_spec hend
    cases w with
    | nil =>
      rw [List.length_nil] at hlength
      omega
    | cons a w =>
      obtain ⟨rfl, htail⟩ := List.cons.inj htext
      have hplace : i + (a :: w).length = i + 1 + w.length := by
        simp only [List.length_cons]
        omega
      rw [hplace] at hend hlength ⊢
      rw [List.cons_append, stringEnd_cons (ne_backslash hlone hpair), if_neg hline, if_neg]
      · exact ih hend htail
      · rw [List.isPrefixOf_iff_prefix] at hprefix ⊢
        intro hfront
        have hle : closing.length ≤ (a :: w).length := by
          rw [List.length_cons]
          omega
        rw [← List.cons_append] at hfront
        have hw := List.prefix_of_prefix_length_le hfront (List.prefix_append _ _) hle
        exact hprefix (htext ▸ hw.trans (List.prefix_append _ _))

/-- The quotes at the front of a string are its own: three of them open no shorter string. -/
theorem closingQuotes_reclosed (h : Reclosed v v') (hq : q ≠ ')')
    (hlength : stringLength pos q (cs ++ v) = .ok (q :: cs).length) :
    closingQuotes q (cs ++ v') = closingQuotes q (cs ++ v) := by
  obtain ⟨body, back, -, hn, -⟩ := stringLength_spec hlength
  rw [closingQuotes_eq] at hn
  rw [closingQuotes_eq, closingQuotes_eq]
  by_cases htriple : [q, q].isPrefixOf (cs ++ v) = true
  · rw [if_pos htriple] at hn ⊢
    have hcs : [q, q] <+: cs := by
      refine List.prefix_of_prefix_length_le (List.isPrefixOf_iff_prefix.1 htriple)
        (List.prefix_append _ _) ?_
      simp only [List.length_cons, List.length_append, List.length_nil] at hn ⊢
      omega
    rw [if_pos (List.isPrefixOf_iff_prefix.2 (hcs.trans (List.prefix_append _ _)))]
  · rw [if_neg htriple, if_neg]
    rw [List.isPrefixOf_iff_prefix] at htriple ⊢
    exact mt (h.isPrefixOf (by simp [hq.symm])) htriple

theorem string_reclosed (h : Reclosed v v') (hq : q ≠ ')')
    (hlength : stringLength pos q (cs ++ v) = .ok (q :: cs).length) :
    stringLength pos' q (cs ++ v') = .ok (q :: cs).length := by
  have hquotes := closingQuotes_reclosed h hq hlength
  obtain ⟨body, back, -, hn, -⟩ := stringLength_spec hlength
  have hne : closingQuotes q (cs ++ v) ≠ [] := by
    unfold closingQuotes
    split <;> simp
  have hle : (closingQuotes q (cs ++ v)).length ≤ (q :: cs).length := by
    rw [hn, List.length_append]
    omega
  simp only [stringLength] at hlength ⊢
  rw [hquotes]
  generalize closingQuotes q (cs ++ v) = closing at hlength hne hle ⊢
  have hwhole : (q :: cs).length = closing.length + ((q :: cs).drop closing.length).length := by
    rw [List.length_drop]
    omega
  have hdrop (t : List Char) :
      (q :: (cs ++ t)).drop closing.length = (q :: cs).drop closing.length ++ t := by
    rw [← List.cons_append, List.drop_append_of_le_length hle]
  rw [hdrop] at hlength ⊢
  split at hlength
  · rename_i n hend
    obtain rfl := Except.ok.inj hlength
    rw [hwhole] at hend
    rw [stringEnd_front hne hend v', ← hwhole]
  · cases hlength

/-- The mark at the front of a text is the longest one in front of the other text as well. -/
theorem ofFront_reclosed {m : Mark} (h : Reclosed v v')
    (hm : Mark.ofFront? (m.spelling.toList ++ v) = some m) :
    Mark.ofFront? (m.spelling.toList ++ v') = some m := by
  have hclose (m' : Mark) (hmem : ')' ∈ m'.spelling.toList) : m'.spelling.toList = [')'] := by
    cases m' <;> first | rfl | exact absurd hmem (by decide)
  obtain ⟨d, w, hw⟩ : ∃ d w, m.spelling.toList = d :: w :=
    List.exists_cons_of_ne_nil (by cases m <;> decide)
  unfold Mark.ofFront? at hm ⊢
  rw [List.find?_eq_some_iff_append] at hm ⊢
  obtain ⟨-, longer, shorter, hall, hlonger⟩ := hm
  refine ⟨List.isPrefixOf_iff_prefix.2 (List.prefix_append _ _), longer, shorter, hall, fun m' hm' => ?_⟩
  have hm' := hlonger m' hm'
  simp only [Bool.not_eq_true', ← Bool.not_eq_true, List.isPrefixOf_iff_prefix] at hm' ⊢
  by_cases hmem : ')' ∈ m'.spelling.toList
  · rw [hclose m' hmem, hw, List.cons_append, List.cons_prefix_cons] at hm' ⊢
    simpa using hm'
  · exact mt (h.isPrefixOf hmem) hm'

/-- Whether a numeral stands at the front of a text. -/
theorem starts_reclosed (h : Reclosed v v')
    (hlength : Numeral.starts (c :: (cs ++ v)) = true →
      numberLength pos (c :: (cs ++ v)) = .ok (c :: cs).length) :
    Numeral.starts (c :: (cs ++ v')) = Numeral.starts (c :: (cs ++ v)) := by
  by_cases hc : c = '.'
  · subst hc
    cases cs with
    | cons d cs => rfl
    | nil =>
      have hstarts (t : List Char) : Numeral.starts ('.' :: t) = t.head?.any Text.isDigit := by
        cases t <;> rfl
      rw [List.nil_append, List.nil_append, hstarts, hstarts] at *
      by_cases hdigit : v.head?.any Text.isDigit = true
      · -- a point with digits behind it is no numeral of its own
        have hident := (numberLength_spec (w := ['.']) (hlength hdigit)).2
        cases v with
        | nil => cases hdigit
        | cons d v =>
          change Text.isDigit d = true at hdigit
          change Text.isIdent d = false at hident
          rw [Text.isIdent, hdigit] at hident
          simp at hident
      · rw [Bool.not_eq_true] at hdigit
        rw [hdigit, h.any_head rfl hdigit]
  · have hstarts (t : List Char) : Numeral.starts (c :: t) = Text.isDigit c := by
      cases t <;> simp [Numeral.starts, hc]
    rw [hstarts, hstarts]

theorem lexeme_reclosed (h : Reclosed v v')
    (hread : lexeme pos c (cs ++ v) = .ok (kind, (c :: cs).length)) :
    lexeme pos' c (cs ++ v') = .ok (kind, (c :: cs).length) := by
  have hmap {x : Except Fault Nat} {k : Kind} {n : Nat} :
      (k, ·) <$> x = .ok (kind, n) ↔ k = kind ∧ x = .ok n := by
    cases x with
    | error f => simp [Functor.map, Except.map]
    | ok n => simp [Functor.map, Except.map]
  unfold lexeme at hread ⊢
  by_cases hquote : (c == '\'' || c == '"') = true
  · rw [if_pos hquote] at hread ⊢
    have hc : c ≠ ')' := by
      rintro rfl
      cases hquote
    rw [hmap] at hread ⊢
    exact hread.imp_right (string_reclosed h hc)
  rw [if_neg hquote] at hread ⊢
  have hsame : Numeral.starts (c :: (cs ++ v')) = Numeral.starts (c :: (cs ++ v)) := by
    have hnumber (hstarts : Numeral.starts (c :: (cs ++ v)) = true) :
        numberLength pos (c :: (cs ++ v)) = .ok (c :: cs).length := by
      rw [if_pos hstarts] at hread
      exact (hmap.1 hread).2
    exact starts_reclosed h hnumber
  rw [hsame]
  by_cases hstarts : Numeral.starts (c :: (cs ++ v)) = true
  · rw [if_pos hstarts] at hread ⊢
    rw [hmap] at hread ⊢
    exact hread.imp_right (numberLength_reclosed (w := c :: cs) h)
  rw [if_neg hstarts] at hread ⊢
  by_cases hident : Text.isIdent c = true
  · rw [if_pos hident] at hread ⊢
    dsimp only at hread ⊢
    have hrun : (c :: (cs ++ v).takeWhile Text.isIdent).length = (c :: cs).length := by
      split at hread <;> exact (Prod.mk.inj (Except.ok.inj hread)).2
    have hdrop : (cs ++ v).dropWhile Text.isIdent = [] ++ v := by
      have hsplit := List.takeWhile_append_dropWhile (p := Text.isIdent) (l := cs ++ v)
      exact (List.append_inj hsplit (by simpa using hrun)).2
    rw [(h.runs rfl hdrop).2]
    exact hread
  · rw [if_neg hident] at hread ⊢
    split at hread
    · rename_i m hm
      obtain ⟨rfl, hlength⟩ := Prod.mk.inj (Except.ok.inj hread)
      rw [← List.cons_append] at hm
      have hfront := List.find?_some hm
      rw [List.isPrefixOf_iff_prefix] at hfront
      have hspelling : m.spelling.toList = c :: cs := by
        rw [← String.length_toList] at hlength
        exact (List.prefix_of_prefix_length_le hfront (List.prefix_append _ _) hlength.le).eq_of_length
          hlength
      rw [← hspelling] at hm
      have hm' := ofFront_reclosed h hm
      rw [hspelling, List.cons_append] at hm'
      rw [hm']
      exact congrArg (fun n => Except.ok (Kind.mark m, n)) hlength
    · cases hread

end Lexer

end

end Hoist.Surface
