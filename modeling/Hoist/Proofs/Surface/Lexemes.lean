import Hoist.Proofs.TokenLayout
import Hoist.Surface.Grammar.Constant

/-!
# Lexemes

A lexeme is a token without its place in a text. Lexemes are written with single blanks between them,
and the lexer cuts the text into them again, wherever it stands: `Scanned.lexemes`. A constant that is
written as a lexeme is also what the readers of constants find there.
-/

namespace Hoist.Surface

/-- A token without its place: its kind and its text. -/
structure Lexeme where
  kind : Kind
  text : List Char
deriving DecidableEq, Repr

/-- What a token says, wherever it stands. Layout says no more than its kind: a line that ends with the
text is as good as one with a line end. -/
def Token.lexeme (t : Token) : Lexeme := ⟨t.kind, if t.kind.isLayout then [] else t.text⟩

theorem Token.text_eq {t : Token} {x : Lexeme} (h : t.lexeme = x) (hx : x.kind.isLayout = false) :
    t.text = x.text := by
  subst h
  have hlayout : t.kind.isLayout = false := hx
  simp [lexeme, hlayout]

namespace Lexeme

/-- The lexeme of a mark. -/
def mark (m : Mark) : Lexeme := ⟨.mark m, m.spelling.toList⟩

/-- The lexeme of a keyword. -/
def word (w : Word) : Lexeme := ⟨.word w, w.spelling.toList⟩

/-- The lexeme of a name. -/
def name (id : String) : Lexeme := ⟨.identifier, id.toList⟩

/-- The kind of token a constant is written as. -/
def literalKind : Literal → Kind
  | .none => .word .none_
  | .bool b => .word (if b then .true_ else .false_)
  | .int _ | .double _ => .number
  | .string _ => .string

/-- The lexeme of a constant. -/
def literal (v : Literal) : Lexeme := ⟨literalKind v, v.write.toList⟩

@[simp] theorem kind_mark (m : Mark) : (mark m).kind = .mark m := rfl

@[simp] theorem kind_word (w : Word) : (word w).kind = .word w := rfl

@[simp] theorem kind_name (id : String) : (name id).kind = .identifier := rfl

@[simp] theorem kind_literal (v : Literal) : (literal v).kind = literalKind v := rfl

end Lexeme

/-- The kind of the first of some lexemes. -/
def nextKind : List Lexeme → Kind
  | [] => .endOfInput
  | x :: _ => x.kind

/-- The kind of the second of some lexemes, or of the first if it is the last. -/
def secondKind : List Lexeme → Kind
  | [] => .endOfInput
  | [x] => x.kind
  | _ :: y :: _ => y.kind

@[simp] theorem nextKind_cons (x : Lexeme) (ls : List Lexeme) : nextKind (x :: ls) = x.kind := rfl

@[simp] theorem secondKind_cons_cons (x y : Lexeme) (ls : List Lexeme) :
    secondKind (x :: y :: ls) = y.kind := rfl

/-- The text of some lexemes, with single blanks between them. -/
def spaced : List Lexeme → List Char
  | [] => []
  | [x] => x.text
  | x :: y :: ls => x.text ++ ' ' :: spaced (y :: ls)

/-- The tokens of a line of lexemes that starts at an offset. -/
def placed : Nat → List Lexeme → List Token
  | _, [] => []
  | pos, x :: ls => ⟨x.kind, pos, x.text⟩ :: placed (pos + x.text.length + 1) ls

theorem lexeme_placed (pos : Nat) {ls : List Lexeme} (h : ∀ x ∈ ls, x.kind.isLayout = false) :
    (placed pos ls).map Token.lexeme = ls := by
  induction ls generalizing pos with
  | nil => rfl
  | cons x ls ih =>
    have hx := h x List.mem_cons_self
    simp [placed, Token.lexeme, hx, ih _ fun y hy => h y (List.mem_cons_of_mem _ hy)]

@[simp] theorem kinds_placed (pos : Nat) (ls : List Lexeme) : kinds (placed pos ls) = ls.map (·.kind) := by
  induction ls generalizing pos with
  | nil => rfl
  | cons x ls ih => simp [placed, ih]

theorem kinds_eq_map_lexeme (tokens : List Token) :
    kinds tokens = (tokens.map Token.lexeme).map (·.kind) := by
  simp [kinds, Token.lexeme, Function.comp_def]

/-- A text that a blank or a line end separates from what stands before it. -/
def Separated (text : List Char) : Prop := ∀ d ∈ text.head?, d = ' ' ∨ d = '\n'

theorem Separated.cases {text : List Char} (h : Separated text) :
    text = [] ∨ ∃ rest, text = ' ' :: rest ∨ text = '\n' :: rest := by
  cases text with
  | nil => exact .inl rfl
  | cons d rest =>
    rcases h d rfl with rfl | rfl
    · exact .inr ⟨rest, .inl rfl⟩
    · exact .inr ⟨rest, .inr rfl⟩

theorem Separated.head_not {text : List Char} (h : Separated text) {p : Char → Bool}
    (hblank : p ' ' = false) (hline : p '\n' = false) : ∀ d ∈ text.head?, p d = false := by
  intro d hd
  rcases h d hd with rfl | rfl
  · exact hblank
  · exact hline

/-- A run of characters of a class ends where a text is separated from it. -/
theorem Separated.takeWhile_append {text : List Char} (h : Separated text) {p : Char → Bool}
    (hblank : p ' ' = false) (hline : p '\n' = false) {run : List Char} (hrun : ∀ d ∈ run, p d = true) :
    (run ++ text).takeWhile p = run ∧ (run ++ text).dropWhile p = text := by
  have hhead := h.head_not hblank hline
  rw [List.takeWhile_append_of_pos hrun, List.dropWhile_append_of_pos hrun]
  cases text with
  | nil => simp
  | cons d rest => simp [hhead d rfl]

/-- The lexer cuts a lexeme off every text in which it is separated from what follows. -/
def Lexeme.Stands (x : Lexeme) : Prop :=
  ∃ c cs, x.text = c :: cs ∧ ∀ pos text, Separated text →
    Lexer.lexeme pos c (cs ++ text) = .ok (x.kind, x.text.length)

namespace Lexeme

/-- Whether a spelling without blanks stands at the front of a text does not depend on what is separated
from it. -/
theorem isPrefixOf_separated {spelling front text : List Char} (htext : Separated text)
    (hspelling : ∀ d ∈ spelling, d ≠ ' ' ∧ d ≠ '\n') :
    spelling.isPrefixOf (front ++ text) = spelling.isPrefixOf front := by
  induction spelling generalizing front with
  | nil => rfl
  | cons d spelling ih =>
    have hd := hspelling d List.mem_cons_self
    cases front with
    | nil =>
      rcases htext.cases with rfl | ⟨rest, rfl | rfl⟩
      · rfl
      · simp [List.isPrefixOf, hd.1]
      · simp [List.isPrefixOf, hd.2]
    | cons e front =>
      rw [List.cons_append, List.isPrefixOf, List.isPrefixOf,
        ih fun d' hd' => hspelling d' (List.mem_cons_of_mem _ hd')]

/-- The lexer finds the mark that is spelt at the front of a text, and no longer one. -/
theorem ofFront_spelling (m : Mark) {text : List Char} (htext : Separated text) :
    Mark.ofFront? (m.spelling.toList ++ text) = some m := by
  have hblanks : ∀ m : Mark, ∀ d ∈ m.spelling.toList, d ≠ ' ' ∧ d ≠ '\n' := by
    intro m
    cases m <;> simp [Mark.spelling]
  have hfront : Mark.ofFront? (m.spelling.toList ++ text) = Mark.ofFront? m.spelling.toList := by
    simp only [Mark.ofFront?, isPrefixOf_separated htext (hblanks _)]
  rw [hfront]
  cases m <;> rfl

theorem stands_mark (m : Mark) : (mark m).Stands := by
  obtain ⟨c, cs, hspelling, hquote, hident, hstarts⟩ : ∃ c cs, m.spelling.toList = c :: cs ∧
      (c == '\'' || c == '"') = false ∧ Text.isIdent c = false ∧
      ∀ text, Separated text → Numeral.starts (c :: (cs ++ text)) = false := by
    cases m
    all_goals
      refine ⟨_, _, rfl, rfl, rfl, fun text htext => ?_⟩
      rcases htext.cases with rfl | ⟨rest, rfl | rfl⟩ <;> rfl
  refine ⟨c, cs, hspelling, fun pos text htext => ?_⟩
  have hfront := ofFront_spelling m htext
  rw [hspelling, List.cons_append] at hfront
  rw [Lexer.lexeme, if_neg (by simp [hquote]), if_neg (by simp [hstarts text htext]),
    if_neg (by simp [hident]), hfront]
  rfl

/-- A run of letters, digits and underscores that starts with no digit is a keyword or a name. -/
theorem lexeme_run {c : Char} {cs text : List Char} {pos : Nat} (htext : Separated text)
    (hrun : ∀ d ∈ c :: cs, Text.isIdent d = true) (hdigit : Text.isDigit c = false) :
    Lexer.lexeme pos c (cs ++ text) =
      .ok ((Word.ofSpelling? (c :: cs)).elim .identifier .word, (c :: cs).length) := by
  have hc : Text.isIdent c = true := hrun c List.mem_cons_self
  have hquote : (c == '\'' || c == '"') = false := by
    rw [Bool.eq_false_iff]
    intro h
    rcases (Bool.or_eq_true _ _).mp h with h | h <;> rw [beq_iff_eq.1 h] at hc <;> cases hc
  have hstarts : Numeral.starts (c :: (cs ++ text)) = false := by
    unfold Numeral.starts
    split
    · rename_i heq
      rw [(List.cons.inj heq).1] at hc
      cases hc
    · rename_i heq
      rw [← (List.cons.inj heq).1]
      exact hdigit
    · rfl
  have htake := (htext.takeWhile_append (p := Text.isIdent) rfl rfl
    (fun d hd => hrun d (List.mem_cons_of_mem _ hd))).1
  unfold Lexer.lexeme
  simp only [hquote, hstarts, hc, htake, if_true, Bool.false_eq_true, if_false]
  cases Word.ofSpelling? (c :: cs) <;> rfl

theorem stands_word (w : Word) : (word w).Stands := by
  obtain ⟨c, cs, hspelling, hrun, hdigit, hword⟩ : ∃ c cs, w.spelling.toList = c :: cs ∧
      (c :: cs).all Text.isIdent = true ∧ Text.isDigit c = false ∧
      Word.ofSpelling? (c :: cs) = some w := by
    cases w <;> exact ⟨_, _, rfl, rfl, rfl, rfl⟩
  refine ⟨c, cs, hspelling, fun pos text htext => ?_⟩
  rw [lexeme_run htext (List.all_eq_true.1 hrun) hdigit, hword]
  simp [word, hspelling]

/-- A word that is no keyword: letters, digits and underscores, of which the first is no digit. -/
def IsName (id : String) : Prop :=
  (∃ c cs, id.toList = c :: cs ∧ Text.isDigit c = false) ∧
    (∀ d ∈ id.toList, Text.isIdent d = true) ∧ Word.ofSpelling? id.toList = none

instance (id : String) : Decidable (IsName id) :=
  decidable_of_iff ((id.toList.head?.any fun c => !Text.isDigit c) = true ∧
    id.toList.all Text.isIdent = true ∧ Word.ofSpelling? id.toList = none) <| by
    rw [List.all_eq_true]
    exact and_congr_left fun _ => by cases id.toList <;> simp

theorem stands_name {id : String} (h : IsName id) : (name id).Stands := by
  obtain ⟨⟨c, cs, hid, hdigit⟩, hrun, hword⟩ := h
  refine ⟨c, cs, hid, fun pos text htext => ?_⟩
  rw [hid] at hrun hword
  rw [lexeme_run htext hrun hdigit, hword]
  simp [name, hid]

end Lexeme

namespace Numeral

/-- A run of digits is scanned as an integer. -/
theorem scan_digits {digits text : List Char} (htext : Separated text)
    (hdigits : ∀ d ∈ digits, Text.isDigit d = true) :
    scan (digits ++ text) = (⟨digits, none, none⟩, text) := by
  obtain ⟨htake, hdrop⟩ := htext.takeWhile_append (p := Text.isDigit) rfl rfl hdigits
  have hfraction : scanFraction text = (none, text) := by
    rcases htext.cases with rfl | ⟨rest, rfl | rfl⟩ <;> rfl
  have hexponent : scanExponent text = (none, text) := by
    rcases htext.cases with rfl | ⟨rest, rfl | rfl⟩ <;> rfl
  unfold scan
  simp only [htake, hdrop, hfraction, hexponent]

/-- The value of the digits of a number is the number. -/
theorem digitsValue_toDigits (n : Nat) : digitsValue (Nat.toDigits 10 n) = n :=
  Nat.ofDigitChars_ten_toDigits

end Numeral

/-- Between single quotes a character stands for itself, or behind a backslash as its letter. -/
theorem quoteChar_cases (c : Char) :
    Text.quoteChar c = [c] ∧ c ≠ '\'' ∧ c ≠ '\\' ∧ c ≠ '\n' ∨
      ∃ m, Text.quoteChar c = ['\\', m] ∧ Text.ofMnemonic? m = some c ∧ m ≠ '\n' := by
  have hletters : ∀ p ∈ Text.escapes, Text.ofMnemonic? p.1 = some p.2 ∧ p.1 ≠ '\n' := by decide
  unfold Text.quoteChar
  split
  · rename_i hdouble
    obtain rfl := beq_iff_eq.1 hdouble
    exact .inl ⟨rfl, by decide⟩
  · rename_i hdouble
    unfold Text.mnemonic?
    cases hfound : Text.escapes.find? (·.2 == c) with
    | none =>
      have hnone : ∀ p ∈ Text.escapes, p.2 ≠ c := by simpa using List.find?_eq_none.1 hfound
      refine .inl ⟨rfl, ?_, ?_, ?_⟩
      · exact (hnone ('\'', '\'') (by decide)).symm
      · exact (hnone ('\\', '\\') (by decide)).symm
      · exact (hnone ('n', '\n') (by decide)).symm
    | some p =>
      have hp := hletters p (List.mem_of_find?_eq_some hfound)
      obtain rfl : p.2 = c := by simpa using List.find?_some hfound
      exact .inr ⟨p.1, rfl, hp⟩

/-- A text between single quotes, and what follows it, does not start with another quote. -/
theorem head_quoted_ne (cs : List Char) : ∀ d ∈ (cs.flatMap Text.quoteChar).head?, d ≠ '\'' := by
  cases cs with
  | nil => simp
  | cons c cs =>
    intro d hd
    rcases quoteChar_cases c with ⟨hc, hne, -⟩ | ⟨m, hc, -⟩ <;>
      simp only [List.flatMap_cons, hc, List.cons_append, List.head?_cons, Option.mem_some_iff] at hd
    · exact hd ▸ hne
    · exact hd ▸ by decide

/-- A text between single quotes is read back letter by letter. -/
theorem unescape_quoted (pos : Nat) (cs : List Char) :
    unescape pos (cs.flatMap Text.quoteChar) = .ok cs := by
  induction cs generalizing pos with
  | nil => rfl
  | cons c cs ih =>
    rcases quoteChar_cases c with ⟨hc, -, hne, -⟩ | ⟨m, hc, hm, hne⟩
    · rw [List.flatMap_cons, hc, List.cons_append, List.nil_append, unescape, ih]
      · rfl
      · exact fun h => absurd h hne
      · exact fun _ _ h => absurd h hne
    · rw [List.flatMap_cons, hc, List.cons_append, List.cons_append, List.nil_append, unescape,
        if_neg (by simpa using hne), hm]
      simp only [ih]
      rfl

namespace Lexer

/-- A text between single quotes ends at the closing quote. -/
theorem stringEnd_quoted (cs text : List Char) (i : Nat) :
    stringEnd ['\''] (cs.flatMap Text.quoteChar ++ '\'' :: text) i =
      .ok (i + (cs.flatMap Text.quoteChar).length + 1) := by
  induction cs generalizing i with
  | nil => simp [stringEnd]
  | cons c cs ih =>
    rcases quoteChar_cases c with ⟨hc, hquote, hne, hline⟩ | ⟨m, hc, -⟩
    · rw [List.flatMap_cons, hc, List.cons_append, List.cons_append, List.nil_append, stringEnd,
        if_neg (by simpa using hline), if_neg (by simpa using Ne.symm hquote), ih]
      · rw [List.length_cons, Nat.add_right_comm i 1, Nat.add_assoc i _ 1]
      · exact fun h => absurd h hne
      · exact fun _ _ h => absurd h hne
    · rw [List.flatMap_cons, hc, List.cons_append, List.cons_append, List.cons_append,
        List.cons_append, List.nil_append, stringEnd, ih]
      rw [List.length_cons, List.length_cons, Nat.add_right_comm i 2, Nat.add_assoc i _ 2]

end Lexer

namespace Lexeme

theorem stands_string (s : String) : (literal (.string s)).Stands := by
  obtain ⟨body, hbody⟩ : ∃ body, s.toList.flatMap Text.quoteChar = body := ⟨_, rfl⟩
  have htext : (literal (.string s)).text = '\'' :: (body ++ ['\'']) := by
    simp [literal, Literal.write, Text.quote, hbody]
  refine ⟨'\'', body ++ ['\''], htext, fun pos text hsep => ?_⟩
  have hclosing : Lexer.closingQuotes '\'' (body ++ '\'' :: text) = ['\''] := by
    have hhead := head_quoted_ne s.toList
    rw [hbody] at hhead
    have hnext := hsep.head_not (p := (· == '\'')) rfl rfl
    unfold Lexer.closingQuotes
    rw [if_neg]
    cases body with
    | nil => cases text <;> simp_all
    | cons d body => simpa using fun h => absurd h (hhead d rfl)
  have hlength : Lexer.stringLength pos '\'' (body ++ '\'' :: text) = .ok (body.length + 2) := by
    have hend := Lexer.stringEnd_quoted s.toList text 1
    rw [hbody] at hend
    unfold Lexer.stringLength
    simp only [hclosing, List.length_singleton, List.drop_succ_cons, List.drop_zero, hend,
      Nat.add_comm 1, Nat.add_assoc]
  rw [List.append_assoc, List.singleton_append, Lexer.lexeme, if_pos (by decide), hlength, htext]
  simp
  rfl

/-- The text of a number is a run of digits. -/
theorem text_int {i : Int64} (h : 0 ≤ i.toInt) :
    (literal (.int i)).text = Nat.toDigits 10 i.toInt.toNat := by
  have hwrite : Literal.write (.int i) = i.toInt.toNat.repr := by
    show i.toInt.repr = _
    conv_lhs => rw [← Int.toNat_of_nonneg h]
    rfl
  rw [literal, hwrite, Nat.toList_repr]

theorem isDigit_toDigits (n : Nat) : ∀ d ∈ Nat.toDigits 10 n, Text.isDigit d = true := by
  intro d hd
  simpa [Char.isDigit, Text.isDigit, Char.le_def] using
    Nat.isDigit_of_mem_toDigits (b := 10) (by decide) (by decide) hd

theorem stands_int {i : Int64} (h : 0 ≤ i.toInt) : (literal (.int i)).Stands := by
  have hdigits := isDigit_toDigits i.toInt.toNat
  have htext := text_int h
  obtain ⟨c, cs, hrun⟩ := List.exists_cons_of_ne_nil (Nat.toDigits_ne_nil (n := i.toInt.toNat) (b := 10))
  rw [hrun] at htext hdigits
  refine ⟨c, cs, htext, fun pos text hsep => ?_⟩
  have hc : Text.isDigit c = true := hdigits c List.mem_cons_self
  have hquote : (c == '\'' || c == '"') = false := by
    rw [Bool.eq_false_iff]
    intro h
    rcases (Bool.or_eq_true _ _).mp h with h | h <;> rw [beq_iff_eq.1 h] at hc <;> cases hc
  have hstarts : Numeral.starts (c :: (cs ++ text)) = true := by
    unfold Numeral.starts
    split
    · rename_i heq
      rw [(List.cons.inj heq).1] at hc
      cases hc
    · rename_i heq
      rw [← (List.cons.inj heq).1]
      exact hc
    · rename_i heq
      cases heq
  have hlength : Lexer.numberLength pos (c :: cs ++ text) = .ok (c :: cs).length := by
    have hend : text.head?.any Text.isIdent = false := by
      rcases hsep.cases with rfl | ⟨rest, rfl | rfl⟩ <;> rfl
    unfold Lexer.numberLength
    rw [Numeral.scan_digits hsep hdigits]
    simp only [hend, Bool.false_eq_true, if_false, List.length_append, Nat.add_sub_cancel]
  rw [Lexer.lexeme, if_neg (by simp [hquote]), if_pos hstarts, ← List.cons_append, hlength, htext]
  rfl

end Lexeme

/-- A number is read back from its lexeme. -/
theorem numberValue_literal {t : Token} {i : Int64} (h : 0 ≤ i.toInt)
    (ht : t.lexeme = .literal (.int i)) : numberValue t = .ok (.int i) := by
  have htext : t.text = Nat.toDigits 10 i.toInt.toNat :=
    (Token.text_eq ht rfl).trans (Lexeme.text_int h)
  have hscan : (Numeral.scan t.text).1 = ⟨t.text, none, none⟩ := by
    have hdigits := Lexeme.isDigit_toDigits i.toInt.toNat
    rw [← htext] at hdigits
    have hnil : Separated [] := by simp [Separated]
    have := Numeral.scan_digits hnil hdigits
    rw [List.append_nil] at this
    rw [this]
  have hvalue : Numeral.digitsValue t.text = i.toInt.toNat := by
    rw [htext, Numeral.digitsValue_toDigits]
  have hlimit : i.toInt.toNat < Numeral.integerLimit := by
    have := i.toInt_lt
    simp only [Numeral.integerLimit]
    omega
  have hback : Int64.ofNat i.toInt.toNat = i := by
    rw [← Int64.ofInt_eq_ofNat, Int.toNat_of_nonneg h, Int64.ofInt_toInt]
  have hint : (⟨t.text, none, none⟩ : Numeral).value? = some (.int i) := by
    unfold Numeral.value?
    rw [if_pos (by rfl)]
    simp only [hvalue, if_pos hlimit, hback]
  unfold numberValue
  simp only [hscan, hint]

/-- A string is read back from its lexeme. -/
theorem stringValue_literal {t : Token} {s : String} (ht : t.lexeme = .literal (.string s)) :
    stringValue t = .ok s.toList := by
  have htext : t.text = '\'' :: (s.toList.flatMap Text.quoteChar ++ ['\'']) := by
    rw [Token.text_eq ht rfl]
    simp [Lexeme.literal, Literal.write, Text.quote]
  have hwidth : quoteWidth t.text = 1 := by
    have hhead := head_quoted_ne s.toList
    rw [htext]
    cases hbody : s.toList.flatMap Text.quoteChar with
    | nil => rfl
    | cons d body =>
      rw [hbody] at hhead
      have hd : ('\'' == d) = false := by simpa using (hhead d rfl).symm
      rw [List.cons_append]
      unfold quoteWidth
      split
      · rename_i heq
        obtain ⟨rfl, hrest⟩ := List.cons.inj heq
        obtain ⟨rfl, -⟩ := List.cons.inj hrest
        simp [hd]
      · rfl
  unfold stringValue
  rw [hwidth, htext]
  simp only [List.drop_succ_cons, List.drop_zero, List.length_cons, List.length_append,
    List.length_nil, Nat.zero_add, Nat.mul_one]
  rw [Nat.add_sub_cancel (m := 2), List.take_left]
  exact unescape_quoted _ _

/-- Brackets that open and close follow each other. -/
theorem Nested.append {ks ks' : List Kind} (h : Nested ks) (h' : Nested ks') : Nested (ks ++ ks') := by
  induction h with
  | nil => exact h'
  | plain hk _ ih => exact .plain hk ih
  | pair hc hlayout hinner _ _ ih =>
    rw [List.cons_append, List.append_assoc, List.cons_append]
    exact .pair hc hlayout hinner ih

namespace Lexer

variable {brackets brackets' indents : List Token}

theorem matchBracket_plain {t : Token} (ht : t.kind.isBracket = false) (brackets : List Token) :
    matchBracket brackets t = .ok brackets := by
  unfold matchBracket
  split
  · rename_i m hm
    rw [hm] at ht
    obtain ⟨hopen, hclosing⟩ := Bool.or_eq_false_iff.1 ht
    rw [hopen, hclosing]
    rfl
  · rfl

theorem matchBracket_opening {t : Token} {o c : Mark} (ht : t.kind = .mark o)
    (hc : o.closing? = some c) (brackets : List Token) :
    matchBracket brackets t = .ok (t :: brackets) := by
  simp [matchBracket, ht, hc]

theorem matchBracket_closing {t t' : Token} {o c : Mark} (ht : t.kind = .mark o)
    (hc : o.closing? = some c) (ht' : t'.kind = .mark c) (brackets : List Token) :
    matchBracket (t :: brackets) t' = .ok brackets := by
  have hclosing : c.closing? = none ∧ c.isClosing = true := by
    cases o <;> cases hc <;> exact ⟨rfl, rfl⟩
  obtain ⟨kind, start, text⟩ := t
  obtain rfl : kind = .mark o := ht
  simp [matchBracket, ht', hclosing, hc]

/-- Brackets that are all closed leave open what was open before them. -/
theorem foldlM_matchBracket {tokens : List Token} (h : Nested (kinds tokens))
    (brackets : List Token) : tokens.foldlM matchBracket brackets = .ok brackets := by
  obtain ⟨ks, hks⟩ : ∃ ks, kinds tokens = ks := ⟨_, rfl⟩
  rw [hks] at h
  induction h generalizing tokens brackets with
  | nil =>
    obtain rfl := List.map_eq_nil_iff.1 hks
    rfl
  | plain hk _ ih =>
    obtain ⟨t, tokens, rfl, ht, hrest⟩ := List.map_eq_cons_iff.1 hks
    rw [List.foldlM_cons, matchBracket_plain (by rw [ht]; exact hk)]
    exact ih brackets hrest
  | pair hc _ _ _ ihinner ihrest =>
    obtain ⟨t, tokens, rfl, ht, hrest⟩ := List.map_eq_cons_iff.1 hks
    obtain ⟨inside, tokens, rfl, hinside, hrest⟩ := List.map_eq_append_iff.1 hrest
    obtain ⟨t', tokens, rfl, ht', hrest⟩ := List.map_eq_cons_iff.1 hrest
    rw [List.foldlM_cons, matchBracket_opening ht hc]
    simp only [bind, Except.bind]
    rw [List.foldlM_append, ihinner (t :: brackets) hinside]
    simp only [bind, Except.bind]
    rw [List.foldlM_cons, matchBracket_closing ht hc ht']
    exact ihrest brackets hrest

/-- A line of lexemes is cut into their tokens. -/
theorem Scanned.lexemes {indents : List Nat} {unended : Bool} {pos : Nat} {ls : List Lexeme}
    {text : List Char} {tokens : List Token} (stands : ∀ x ∈ ls, x.Stands) (nonempty : ls ≠ [])
    (matched : (placed pos ls).foldlM matchBracket brackets = .ok brackets')
    (separated : Separated text)
    (after : Scanned ⟨indents, brackets', true⟩ false (pos + (spaced ls).length) text tokens) :
    Scanned ⟨indents, brackets, unended⟩ false pos (spaced ls ++ text) (placed pos ls ++ tokens) := by
  induction ls generalizing pos brackets unended with
  | nil => exact absurd rfl nonempty
  | cons x ls ih =>
    obtain ⟨c, cs, htext, hread⟩ := stands x List.mem_cons_self
    have hls : ∀ y ∈ ls, y.Stands := fun y hy => stands y (List.mem_cons_of_mem _ hy)
    rw [placed, List.foldlM_cons] at matched
    obtain ⟨inner, hfirst, hrest⟩ := bind_eq_ok.1 matched
    rw [placed, List.cons_append, htext]
    rw [htext] at hfirst hread
    cases ls with
    | nil =>
      obtain rfl : inner = brackets' := Except.ok.inj hrest
      rw [spaced, htext] at after
      rw [spaced, htext]
      exact .token _ (hread pos text separated) hfirst after
    | cons y ls =>
      rw [spaced, htext, List.append_assoc]
      refine .token _ (hread pos _ (by simp [Separated])) hfirst (.blank rfl ?_)
      rw [htext] at hrest
      refine ih hls (by simp) hrest ?_
      have hpos : pos + (c :: cs ++ ' ' :: spaced (y :: ls)).length =
          pos + (c :: cs).length + 1 + (spaced (y :: ls)).length := by
        simp only [List.length_append, List.length_cons]
        omega
      rwa [spaced, htext, hpos] at after

end Lexer

/-- Lexemes that the lexer cuts off, with brackets that are all closed. -/
structure Tidy (ls : List Lexeme) : Prop where
  stands : ∀ x ∈ ls, x.Stands
  nested : Nested (ls.map (·.kind))

namespace Tidy

variable {ls ls' : List Lexeme} {x : Lexeme}

theorem nil : Tidy [] := ⟨by simp, .nil⟩

theorem append (h : Tidy ls) (h' : Tidy ls') : Tidy (ls ++ ls') where
  stands x hx := (List.mem_append.1 hx).elim (h.stands x) (h'.stands x)
  nested := by
    rw [List.map_append]
    exact h.nested.append h'.nested

theorem cons (hx : x.Stands) (hk : x.kind.isBracket = false) (h : Tidy ls) : Tidy (x :: ls) where
  stands := by simpa [hx] using h.stands
  nested := .plain hk h.nested

theorem layout_eq_false (h : Tidy ls) : ∀ x ∈ ls, x.kind.isLayout = false := by
  intro x hx
  obtain ⟨c, cs, -, hread⟩ := h.stands x hx
  exact (Lexer.lexeme_spec (hread 0 [] (by simp [Separated]))).1

theorem bracketed {o c : Mark} (hc : o.closing? = some c) (h : Tidy ls) :
    Tidy (.mark o :: (ls ++ [.mark c])) where
  stands := by
    intro x hx
    simp only [List.mem_cons, List.mem_append, List.not_mem_nil, or_false] at hx
    rcases hx with rfl | hx | rfl
    · exact Lexeme.stands_mark o
    · exact h.stands x hx
    · exact Lexeme.stands_mark c
  nested := by
    rw [List.map_cons, List.map_append]
    exact .pair hc (by simpa using h.layout_eq_false) h.nested .nil

/-- A line of lexemes starts neither with a margin nor with what is left out. -/
theorem exists_head (h : Tidy ls) (hne : ls ≠ []) : ∃ c cs, spaced ls = c :: cs ∧
    Text.isIndent c = false ∧ c ≠ '\n' ∧ c ≠ '\r' ∧ c ≠ '#' := by
  obtain ⟨x, ls, rfl⟩ := List.exists_cons_of_ne_nil hne
  obtain ⟨c, cs, htext, hread⟩ := h.stands x List.mem_cons_self
  have hsep : Separated [] := by simp [Separated]
  obtain ⟨hblank, hline, hcomment, -⟩ := Lexer.lexeme_starts (hread 0 [] hsep)
  have hfirst : ∃ cs, spaced (x :: ls) = c :: cs := by
    cases ls with
    | nil => exact ⟨cs, htext⟩
    | cons y ls => exact ⟨cs ++ ' ' :: spaced (y :: ls), by rw [spaced, htext, List.cons_append]⟩
  obtain ⟨cs, hcs⟩ := hfirst
  simp only [Text.isBlank, Bool.or_eq_false_iff, beq_eq_false_iff_ne] at hblank
  exact ⟨c, cs, hcs, by simp [Text.isIndent, hblank], hline, hblank.1.2, hcomment⟩

/-- A line of lexemes is a text of their tokens, the end of the line and the end of the input. -/
theorem tokenize_eq (h : Tidy ls) (hne : ls ≠ []) : tokenize (spaced ls) = .ok (placed 0 ls ++
    [⟨.newline, (spaced ls).length, []⟩, ⟨.endOfInput, (spaced ls).length, []⟩]) := by
  obtain ⟨ending, hending⟩ : ∃ ending : List Token, [⟨.newline, (spaced ls).length, []⟩,
    ⟨.endOfInput, (spaced ls).length, []⟩] = ending := ⟨_, rfl⟩
  have hlast : Lexer.Scanned ⟨[], [], true⟩ false (0 + (spaced ls).length) [] ending :=
    .finish (by simp) (fun _ => rfl) (by simp [Lexer.finish, ← hending])
  have hnested : Nested (kinds (placed 0 ls)) := by
    rw [kinds_placed]
    exact h.nested
  have hline : Lexer.Scanned .start false 0 (spaced ls ++ []) (placed 0 ls ++ ending) :=
    .lexemes h.stands hne (Lexer.foldlM_matchBracket hnested []) (by simp [Separated]) hlast
  obtain ⟨c, cs, hcs, hstarts⟩ := h.exists_head hne
  rw [List.append_nil, hcs] at hline
  rw [hending, hcs]
  have hscanned : Lexer.Scanned .start true 0 ([] ++ c :: cs) ([] ++ (placed 0 ls ++ ending)) :=
    .line (by simp) hstarts rfl hline
  exact hscanned.scan_eq

end Tidy

end Hoist.Surface
