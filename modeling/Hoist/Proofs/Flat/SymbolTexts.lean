import Mathlib.Data.List.DropRight
import Hoist.Proofs.Flat.Legible

/-!
# The texts of symbols and constants

The number of a generated symbol stands behind the last hash of its text, a global has two colons in
front, and a name starts with a letter or an underscore. So the text of a symbol tells which variable
it is, as long as names are made of the characters of names, and is never the text of a constant.
-/

namespace Hoist

open Hoist.Flat (Symbol)

variable {a b : Symbol}

theorem toList_write (h : a.isGenerated = true) :
    a.write.toList = a.name.toList ++ '#' :: Nat.toDigits 10 a.token := by
  rw [Symbol.write, if_pos h]
  simp

/-- The digits of a generated symbol are what is behind the last hash of its text. -/
theorem rtakeWhile_write (h : a.isGenerated = true) :
    a.write.toList.rtakeWhile (· != '#') = Nat.toDigits 10 a.token := by
  have hdigits : ∀ d ∈ (Nat.toDigits 10 a.token).reverse, (d != '#') = true := fun d hd => by
    have hdigit : d.isDigit = true :=
      Nat.isDigit_of_mem_toDigits (by decide) (by decide) (List.mem_reverse.1 hd)
    rw [bne_iff_ne]
    rintro rfl
    cases hdigit
  rw [toList_write h, List.rtakeWhile]
  simp [List.takeWhile_append_of_pos hdigits]

/-- The texts of generated symbols tell them apart. -/
theorem same_of_write (ha : a.isGenerated = true) (hb : b.isGenerated = true)
    (h : a.write = b.write) : a.same b = true := by
  have hdigits : Nat.toDigits 10 a.token = Nat.toDigits 10 b.token := by
    rw [← rtakeWhile_write ha, ← rtakeWhile_write hb, h]
  have htoken : a.token = b.token := by
    rw [← @Nat.ofDigitChars_ten_toDigits a.token, hdigits, Nat.ofDigitChars_ten_toDigits]
  simp [Symbol.same, ha, htoken]

namespace Flat.Symbol

/-- A symbol that is generated, a global or a builtin, whose name is made of letters, digits,
underscores and slashes and starts like a name. No builtin is named like a constant. -/
structure Printable (s : Symbol) : Prop where
  head : ∃ c ∈ s.name.toList.head?, Text.isLetter c = true ∨ c = '_'
  chars : ∀ c ∈ s.name.toList, Text.isIdent c = true ∨ c = '/'
  place : s.isGenerated = true ∨ s.space ≠ .local_
  unreserved : s.isGenerated = false → s.space = .builtin →
    s.name ≠ "None" ∧ s.name ≠ "True" ∧ s.name ≠ "False"

namespace Printable

theorem chars_of_all {a : String} (h : (a.toList.all fun c => Text.isIdent c || c == '/') = true) :
    ∀ c ∈ a.toList, Text.isIdent c = true ∨ c = '/' := fun c hc => by
  simpa using List.all_eq_true.1 h c hc

/-- The forms of the text of a symbol. -/
theorem write_cases (h : a.Printable) :
    (a.isGenerated = true ∧ a.write.toList = a.name.toList ++ '#' :: Nat.toDigits 10 a.token) ∨
    (a.isGenerated = false ∧ a.space = .global_ ∧ a.write.toList = ':' :: ':' :: a.name.toList) ∨
    (a.isGenerated = false ∧ a.space = .builtin ∧ a.write = a.name) := by
  cases hg : a.isGenerated with
  | true => exact .inl ⟨rfl, toList_write hg⟩
  | false =>
    have hplace := h.place
    rw [hg] at hplace
    cases hspace : a.space with
    | local_ => simp [hspace] at hplace
    | global_ => exact .inr (.inl ⟨rfl, rfl, by simp [write, hg, hspace]⟩)
    | builtin => exact .inr (.inr ⟨rfl, rfl, by simp [write, hg, hspace]⟩)

theorem hash_not_mem (h : a.Printable) : '#' ∉ a.name.toList := fun hmem =>
  absurd (h.chars _ hmem) (by decide)

/-- What the text of a symbol starts with. -/
theorem head_write (h : a.Printable) :
    ∃ c cs, a.write.toList = c :: cs ∧ (Text.isLetter c = true ∨ c = '_' ∨ c = ':') := by
  obtain ⟨c, hc, hletter⟩ := h.head
  obtain ⟨cs, hcs⟩ := List.head?_eq_some_iff.1 hc
  rcases h.write_cases with ⟨-, hw⟩ | ⟨-, -, hw⟩ | ⟨-, -, hw⟩
  · exact ⟨c, _, by rw [hw, hcs]; rfl, hletter.imp_right .inl⟩
  · exact ⟨':', _, hw, .inr (.inr rfl)⟩
  · exact ⟨c, cs, by rw [hw, hcs], hletter.imp_right .inl⟩

theorem plain (h : a.Printable) : Sexp.Plain a.write := by
  have hident : ∀ c, Text.isIdent c = true ∨ c = '/' → Sexp.isPlain c = true := by
    rintro c (hc | rfl)
    · rw [Sexp.isPlain, Bool.not_eq_true']
      by_contra hne
      simp only [Bool.not_eq_false, Bool.or_eq_true, Text.isSpace, beq_iff_eq] at hne
      rcases hne with ((((((((rfl | rfl) | rfl) | rfl) | rfl) | rfl) | rfl) | rfl) | rfl) | rfl <;>
        cases hc
    · decide
  have hname : ∀ c ∈ a.name.toList, Sexp.isPlain c = true := fun c hc => hident c (h.chars c hc)
  have hdigits : ∀ c ∈ Nat.toDigits 10 a.token, Sexp.isPlain c = true := fun c hc =>
    hident c (.inl (by simp [Text.isIdent, Surface.Lexeme.isDigit_toDigits _ c hc]))
  obtain ⟨c, cs, hc, -⟩ := h.head_write
  refine ⟨by rw [hc]; exact List.cons_ne_nil _ _, fun c hc => ?_⟩
  rcases h.write_cases with ⟨-, hw⟩ | ⟨-, -, hw⟩ | ⟨-, -, hw⟩
  · rw [hw, List.mem_append, List.mem_cons] at hc
    rcases hc with hc | rfl | hc
    · exact hname c hc
    · decide
    · exact hdigits c hc
  · rw [hw, List.mem_cons, List.mem_cons] at hc
    rcases hc with rfl | rfl | hc
    · decide
    · decide
    · exact hname c hc
  · exact hname c (hw ▸ hc)

/-- The texts of symbols tell variables apart. -/
theorem same (ha : a.Printable) (hb : b.Printable) (h : a.write = b.write) : a.same b = true := by
  have hhash : ∀ {s : Symbol}, s.Printable → s.isGenerated = false → '#' ∉ s.write.toList := by
    intro s hs hg
    rcases hs.write_cases with ⟨hg', -⟩ | ⟨-, -, hw⟩ | ⟨-, -, hw⟩
    · rw [hg] at hg'
      cases hg'
    · simp [hw, hs.hash_not_mem]
    · rw [hw]
      exact hs.hash_not_mem
  have hmem : ∀ {s : Symbol}, s.isGenerated = true → '#' ∈ s.write.toList := fun hg => by
    simp [toList_write hg]
  have hcolon : ∀ {s : Symbol}, s.Printable → s.name.toList.head? ≠ some ':' := fun hs hc => by
    obtain ⟨c, hc', hletter⟩ := hs.head
    rw [hc] at hc'
    cases hc'
    exact absurd hletter (by decide)
  rcases ha.write_cases with ⟨hga, -⟩ | ⟨hga, hsa, hwa⟩ | ⟨hga, hsa, hwa⟩ <;>
    rcases hb.write_cases with ⟨hgb, -⟩ | ⟨hgb, hsb, hwb⟩ | ⟨hgb, hsb, hwb⟩
  · exact same_of_write hga hgb h
  · exact absurd (h ▸ hmem hga) (hhash hb hgb)
  · exact absurd (h ▸ hmem hga) (hhash hb hgb)
  · exact absurd (h ▸ hmem hgb) (hhash ha hga)
  · rw [h, hwb] at hwa
    have hname : a.name = b.name := String.toList_inj.1 (List.cons.inj (List.cons.inj hwa).2).2.symm
    simp [Symbol.same, hga, hgb, hsa, hsb, hname]
  · rw [h, hwb] at hwa
    exact absurd (by rw [hwa]; rfl) (hcolon hb)
  · exact absurd (h ▸ hmem hgb) (hhash ha hga)
  · rw [← h, hwa] at hwb
    exact absurd (by rw [hwb]; rfl) (hcolon ha)
  · rw [hwa, hwb] at h
    simp [Symbol.same, hga, hgb, hsa, hsb, h]

end Printable

end Flat.Symbol

namespace Literal

variable {v w : Literal}

/-- Whether a constant is a double. -/
def isDouble : Literal → Bool
  | .double _ => true
  | _ => false

/-- The text of an integer is a run of digits, behind a minus if it is negative. -/
theorem toList_write_int (i : Int64) : (Literal.int i).write.toList =
    if 0 ≤ i.toInt then Nat.toDigits 10 i.toInt.toNat else '-' :: Nat.toDigits 10 (-i.toInt).toNat := by
  have hwrite : (Literal.int i).write = toString i.toInt := rfl
  rw [hwrite]
  cases i.toInt with
  | ofNat n => simp [toString, Int.repr]
  | negSucc n =>
    rw [if_neg (by simp)]
    simp [toString, Int.repr, Int.neg_negSucc]

theorem head_write_int (i : Int64) :
    ∃ c cs, (Literal.int i).write.toList = c :: cs ∧ (Text.isDigit c = true ∨ c = '-') := by
  rw [toList_write_int]
  split
  · obtain ⟨c, cs, hc⟩ := List.exists_cons_of_ne_nil
      (Nat.toDigits_ne_nil (n := i.toInt.toNat) (b := 10))
    have hdigit := Surface.Lexeme.isDigit_toDigits i.toInt.toNat c (by rw [hc]; exact List.mem_cons_self)
    exact ⟨c, cs, hc, .inl hdigit⟩
  · exact ⟨_, _, rfl, .inr rfl⟩

theorem plain_write_int (i : Int64) : Sexp.Plain (Literal.int i).write := by
  have hdigits : ∀ n, ∀ c ∈ Nat.toDigits 10 n, Sexp.isPlain c = true := fun n c hc => by
    have hdigit := Surface.Lexeme.isDigit_toDigits n c hc
    rw [Sexp.isPlain, Bool.not_eq_true']
    by_contra hne
    simp only [Bool.not_eq_false, Bool.or_eq_true, Text.isSpace, beq_iff_eq] at hne
    rcases hne with ((((((((rfl | rfl) | rfl) | rfl) | rfl) | rfl) | rfl) | rfl) | rfl) | rfl <;>
      cases hdigit
  obtain ⟨c, cs, hc, -⟩ := head_write_int i
  refine ⟨by rw [hc]; exact List.cons_ne_nil _ _, fun d hd => ?_⟩
  rw [toList_write_int] at hd
  split at hd
  · exact hdigits _ d hd
  · rcases List.mem_cons.1 hd with rfl | hd
    · decide
    · exact hdigits _ d hd

/-- The texts of constants but doubles tell where they end. -/
theorem legible (h : v.isDouble = false) : Sexp.LegibleAtom v.write := by
  cases v with
  | none => exact .plain (.of_all (by decide) rfl)
  | bool b => cases b <;> exact .plain (.of_all (by decide) rfl)
  | int i => exact .plain (plain_write_int i)
  | double x => cases h
  | string s => exact .quoted s

theorem not_letter_of_digit {c : Char} (h : Text.isDigit c = true ∨ c = '-') :
    ¬ Text.isLetter c = true := by
  rcases h with h | rfl
  · simp only [Text.isDigit, Text.isLetter, Char.le_def, UInt32.le_iff_toNat_le, Bool.and_eq_true,
      Bool.or_eq_true, decide_eq_true_eq] at h ⊢
    have hzero : '0'.val.toNat = 48 ∧ '9'.val.toNat = 57 := ⟨rfl, rfl⟩
    have hlower : 'a'.val.toNat = 97 := rfl
    have hupper : 'A'.val.toNat = 65 := rfl
    omega
  · decide

/-- What the text of a constant starts with. -/
theorem head_write (h : v.isDouble = false) : ∃ c cs, v.write.toList = c :: cs ∧
    ((∃ s, v = .string s ∧ c = '\'') ∨
      (∃ i, v = .int i ∧ (Text.isDigit c = true ∨ c = '-')) ∨
      ((v = .none ∨ v = .bool true ∨ v = .bool false) ∧ Text.isLetter c = true)) := by
  cases v with
  | none => exact ⟨_, _, rfl, .inr (.inr ⟨.inl rfl, rfl⟩)⟩
  | bool b =>
    cases b
    · exact ⟨_, _, rfl, .inr (.inr ⟨.inr (.inr rfl), rfl⟩)⟩
    · exact ⟨_, _, rfl, .inr (.inr ⟨.inr (.inl rfl), rfl⟩)⟩
  | int i =>
    obtain ⟨c, cs, hc, hhead⟩ := head_write_int i
    exact ⟨c, cs, hc, .inr (.inl ⟨i, rfl, hhead⟩)⟩
  | double x => cases h
  | string s => exact ⟨_, _, by rw [write, Text.quote, String.toList_ofList], .inl ⟨s, rfl, rfl⟩⟩

theorem write_int_inj {i j : Int64} (h : (Literal.int i).write = (Literal.int j).write) : i = j := by
  have hdigits : ∀ m n, Nat.toDigits 10 m = Nat.toDigits 10 n → m = n := fun m n hmn => by
    rw [← @Nat.ofDigitChars_ten_toDigits m, hmn, Nat.ofDigitChars_ten_toDigits]
  have hminus : ∀ m n, Nat.toDigits 10 m ≠ '-' :: n := fun m n hmn => by
    have := Surface.Lexeme.isDigit_toDigits m '-' (by rw [hmn]; exact List.mem_cons_self)
    cases this
  have hlist := congrArg String.toList h
  rw [toList_write_int, toList_write_int] at hlist
  refine Int64.toInt_inj.1 ?_
  split at hlist <;> split at hlist
  · have := hdigits _ _ hlist
    omega
  · exact absurd hlist (hminus _ _)
  · exact absurd hlist.symm (hminus _ _)
  · have := hdigits _ _ (List.cons.inj hlist).2
    omega

/-- The texts of constants but doubles tell them apart. -/
theorem write_inj (hv : v.isDouble = false) (hw : w.isDouble = false) (h : v.write = w.write) :
    v = w := by
  obtain ⟨c, cs, hc, hfirst⟩ := head_write hv
  obtain ⟨d, ds, hd, hfirst'⟩ := head_write hw
  obtain rfl : c = d := by
    rw [h, hd] at hc
    exact (List.cons.inj hc).1.symm
  rcases hfirst with ⟨s, rfl, rfl⟩ | ⟨i, rfl, hdigit⟩ | ⟨hword, hletter⟩ <;>
    rcases hfirst' with ⟨s', rfl, hquote⟩ | ⟨j, rfl, hdigit'⟩ | ⟨hword', hletter'⟩
  · have hs : (Text.quote s).toList ++ [] = (Text.quote s').toList ++ [] := by
      rw [show Text.quote s = Text.quote s' from h]
    rw [(Surface.quote_append_inj hs).1]
  · exact absurd hdigit' (by decide)
  · exact absurd hletter' (by decide)
  · exact absurd hdigit (by rw [hquote]; decide)
  · rw [write_int_inj h]
  · exact absurd hletter' (not_letter_of_digit hdigit)
  · exact absurd hletter (by rw [hquote]; decide)
  · exact absurd hletter (not_letter_of_digit hdigit')
  · rcases hword with rfl | rfl | rfl <;> rcases hword' with rfl | rfl | rfl <;>
      first | rfl | exact absurd h (by decide)

/-- The text of a symbol is not that of a constant. -/
theorem write_ne_symbol (hv : v.isDouble = false) (ha : a.Printable) : a.write ≠ v.write := by
  intro h
  obtain ⟨c, cs, hc, hfirst⟩ := head_write hv
  obtain ⟨d, ds, hd, hname⟩ := ha.head_write
  obtain rfl : c = d := by
    rw [← h, hd] at hc
    exact (List.cons.inj hc).1.symm
  rcases hfirst with ⟨s, -, rfl⟩ | ⟨i, -, hdigit⟩ | ⟨hword, hletter⟩
  · exact absurd hname (by decide)
  · rcases hname with hletter | hother
    · exact not_letter_of_digit hdigit hletter
    · rcases hdigit with hdigit | rfl
      · rcases hother with rfl | rfl <;> cases hdigit
      · rcases hother with hother | hother <;> cases hother
  -- the words of constants have neither a hash nor colons
  · have hwords : v.write = "None" ∨ v.write = "True" ∨ v.write = "False" := by
      rcases hword with rfl | rfl | rfl
      · exact .inl rfl
      · exact .inr (.inl rfl)
      · exact .inr (.inr rfl)
    rcases ha.write_cases with ⟨-, hw⟩ | ⟨-, -, hw⟩ | ⟨hg, hspace, hw⟩
    · have hhash : '#' ∈ v.write.toList := by rw [← h, hw]; simp
      rcases hwords with hwords | hwords | hwords <;> rw [hwords] at hhash <;>
        exact absurd hhash (by decide)
    · rw [hw] at hd
      rw [← (List.cons.inj hd).1] at hletter
      cases hletter
    · obtain ⟨hnone, htrue, hfalse⟩ := ha.unreserved hg hspace
      rw [← h, hw] at hwords
      rcases hwords with hwords | hwords | hwords
      · exact hnone hwords
      · exact htrue hwords
      · exact hfalse hwords

end Literal

end Hoist
