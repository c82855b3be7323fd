import Hoist.Report.Excerpt
import Mathlib.Data.Nat.Digits.Defs
import Mathlib.Tactic.Common

/-!
# Excerpts stay in their line

An excerpt may be written with machine words alone: column and width are clamped, the line is cut into
parts that must not start past its end, and blanks and tildes are counted down. Whatever words the
column and the width are, no part starts past the end, the parts are the whole line, and the caret
stands under the highlight.
-/

namespace Hoist.Report

/-- The greater one of two words. -/
def larger (a b : UInt64) : UInt64 := if a < b then b else a

/-- The smaller one of two words. -/
def smaller (a b : UInt64) : UInt64 := if b < a then b else a

/-- A word brought between two others, the first of which must not be the greater one. -/
def clamp? (w low high : UInt64) : Option UInt64 :=
  if high < low then none
  else some (if w < low then low else if high < w then high else w)

/-- The part of a text from a place on, cut to a count. There is none from past the end on. -/
def part? (text : List Char) (place count : UInt64) : Option (List Char) :=
  if text.length < place.toNat then none else some ((text.drop place.toNat).take count.toNat)

/-- A blank for each step of an integer down to zero. -/
def padding (n : Int) : List Char := if 0 < n then ' ' :: padding (n - 1) else []
termination_by n.toNat

/-- A tilde for each step of a word down to one. -/
def tildes (w : UInt64) : List Char := if h : 1 < w then '~' :: tildes (w - 1) else []
termination_by w.toNat
decreasing_by
  have := UInt64.lt_iff_toNat_lt.1 h
  rw [UInt64.toNat_sub_of_le _ _ (UInt64.le_of_lt h)]
  simp only [UInt64.reduceToNat] at *
  omega

/-- A line that was cut with words. -/
structure Cut where
  before : List Char
  marked : List Char
  after : List Char
  column : UInt64
  width : UInt64

/-- The cut of a line, unless a clamp has no room or a part of the line starts past its end. -/
def cut? (line : List Char) (column width : UInt64) : Option Cut := do
  let size := line.length.toUInt64
  let column ← clamp? column 1 (size + 1)
  let width ← clamp? width 1 (larger 1 (size + 1 - column))
  let before ← part? line 0 (column - 1)
  let marked ← part? line (column - 1) width
  let after ← part? line (smaller size (column - 1 + marked.length.toUInt64)) (0 - 1)
  return ⟨before, marked, after, column, width⟩

/-- The excerpt of a line that is cut with words. -/
def excerptInWords? (line : List Char) (number column width : UInt64) (escape : String) :
    Option String := do
  let c ← cut? line column width
  let digits := toString number.toNat
  return String.ofList (padding (5 - digits.length)) ++ digits ++ " | " ++ String.ofList c.before ++
    bold ++ escape ++ String.ofList c.marked ++ clear ++ String.ofList c.after ++ "\n" ++
    "      |" ++ String.ofList (List.replicate c.column.toNat ' ') ++ bold ++ escape ++ "^" ++
    String.ofList (tildes c.width) ++ clear ++ "\n"

/-- What is written to a terminal: text that is seen, or an escape that is not. -/
inductive Piece
  | text (seen : List Char)
  | style (code : String)

/-- Pieces as they are written. -/
def written : List Piece → String
  | [] => ""
  | .text s :: ps => String.ofList s ++ written ps
  | .style code :: ps => code ++ written ps

/-- Pieces as they are seen. -/
def seen : List Piece → List Char
  | [] => []
  | .text s :: ps => s ++ seen ps
  | .style _ :: ps => seen ps

namespace Highlight

/-- The line of an excerpt that shows the line itself. -/
def upper (h : Highlight) (number : UInt64) (escape : String) : List Piece :=
  [.text (lineNumber number).toList, .text " | ".toList, .text h.before, .style bold, .style escape,
    .text h.marked, .style clear, .text h.after]

/-- The line of an excerpt that marks the highlight. -/
def lower (h : Highlight) (escape : String) : List Piece :=
  [.text "      |".toList, .text (blanks h.column).toList, .style bold, .style escape, .text ['^'],
    .text (List.replicate (h.width - 1) '~'), .style clear]

variable (line : List Char) (column width : UInt64)

theorem of_column : (of line column width).column = max 1 (min column.toNat (line.length + 1)) := rfl

theorem of_parts : (of line column width).before ++ (of line column width).marked ++
    (of line column width).after = line := by
  rw [of]
  dsimp only
  rw [List.append_assoc, List.take_append_drop, List.take_append_drop]

theorem of_before_length : (of line column width).before.length + 1 = (of line column width).column := by
  simp only [of, List.length_take]
  omega

theorem of_marked_length : (of line column width).marked.length =
    min (max width.toNat 1) (line.length + 1 - (of line column width).column) := by
  simp only [of, List.length_take, List.length_drop]
  omega

/-- There is one mark at least, and one for each character of the highlight. -/
theorem of_width : (of line column width).width = max 1 (of line column width).marked.length := by
  simp only [of, List.length_take, List.length_drop]
  omega

end Highlight

section Words

variable {w low high : UInt64}

theorem clamp?_of_le (h : low ≤ high) :
    ∃ c, clamp? w low high = some c ∧ c.toNat = max low.toNat (min w.toNat high.toNat) := by
  have hle := UInt64.le_iff_toNat_le.1 h
  refine ⟨_, if_neg (UInt64.not_lt.2 h), ?_⟩
  simp only [UInt64.lt_iff_toNat_lt]
  split
  · omega
  · split <;> omega

theorem padding_eq (n : Int) : padding n = List.replicate n.toNat ' ' := by
  fun_induction padding n with
  | case1 n h ih =>
    rw [ih, show n.toNat = (n - 1).toNat + 1 by omega, List.replicate_succ]
  | case2 n h => rw [show n.toNat = 0 by omega, List.replicate_zero]

theorem tildes_eq (w : UInt64) : tildes w = List.replicate (w.toNat - 1) '~' := by
  fun_induction tildes w with
  | case1 w h ih =>
    have hlt := UInt64.lt_iff_toNat_lt.1 h
    rw [ih, UInt64.toNat_sub_of_le _ _ (UInt64.le_of_lt h)]
    simp only [UInt64.reduceToNat] at *
    rw [show w.toNat - 1 = (w.toNat - 1 - 1) + 1 by omega, List.replicate_succ]
    simp
  | case2 w h =>
    have hle := UInt64.le_iff_toNat_le.1 (UInt64.not_lt.1 h)
    simp only [UInt64.reduceToNat] at hle
    rw [show w.toNat - 1 = 0 by omega, List.replicate_zero]

theorem toNat_larger (a b : UInt64) : (larger a b).toNat = max a.toNat b.toNat := by
  rw [larger]
  split <;> rename_i h <;> rw [UInt64.lt_iff_toNat_lt] at h <;> omega

theorem toNat_smaller (a b : UInt64) : (smaller a b).toNat = min a.toNat b.toNat := by
  rw [smaller]
  split <;> rename_i h <;> rw [UInt64.lt_iff_toNat_lt] at h <;> omega

theorem part?_of_le {text : List Char} {place count : UInt64} {n : Nat} (hplace : place.toNat = n)
    (h : n ≤ text.length) : part? text place count = some ((text.drop n).take count.toNat) := by
  subst hplace
  exact if_neg (Nat.not_lt.2 h)

end Words

section Cuts

variable {line : List Char} (hline : line.length < 2 ^ 63) {c w : UInt64}
include hline

theorem toNat_size : line.length.toUInt64.toNat = line.length :=
  UInt64.toNat_ofNat_of_lt' (by rw [UInt64.size]; omega)

theorem toNat_end : (line.length.toUInt64 + 1).toNat = line.length + 1 := by
  rw [UInt64.toNat_add, toNat_size hline]
  simp only [UInt64.reduceToNat]
  omega

theorem clamp?_column (column : UInt64) : ∃ c, clamp? column 1 (line.length.toUInt64 + 1) = some c ∧
    c.toNat = max 1 (min column.toNat (line.length + 1)) := by
  have hroom : 1 ≤ line.length.toUInt64 + 1 := by
    rw [UInt64.le_iff_toNat_le, toNat_end hline]
    simp only [UInt64.reduceToNat]
    omega
  obtain ⟨c, hc, hcolumn⟩ := clamp?_of_le (w := column) hroom
  rw [toNat_end hline] at hcolumn
  exact ⟨c, hc, hcolumn⟩

theorem clamp?_width (width : UInt64) (hc : c.toNat ≤ line.length + 1) :
    ∃ w, clamp? width 1 (larger 1 (line.length.toUInt64 + 1 - c)) = some w ∧
      w.toNat = max 1 (min width.toNat (max 1 (line.length + 1 - c.toNat))) := by
  have hle : c ≤ line.length.toUInt64 + 1 := by rwa [UInt64.le_iff_toNat_le, toNat_end hline]
  have hroom : 1 ≤ larger 1 (line.length.toUInt64 + 1 - c) := by
    rw [UInt64.le_iff_toNat_le, toNat_larger]
    omega
  obtain ⟨w, hw, hwidth⟩ := clamp?_of_le (w := width) hroom
  rw [toNat_larger, UInt64.toNat_sub_of_le _ _ hle, toNat_end hline] at hwidth
  exact ⟨w, hw, hwidth⟩

/-- What is behind the highlight starts at its end or at the end of the line. -/
theorem part?_after {n : Nat} (hplace : c.toNat = n) (hn : n ≤ line.length) :
    part? line (smaller line.length.toUInt64
        (c + ((line.drop n).take w.toNat).length.toUInt64)) (0 - 1) =
      some ((line.drop n).drop w.toNat) := by
  have hmarked : ((line.drop n).take w.toNat).length = min w.toNat (line.length - n) := by
    rw [List.length_take, List.length_drop]
  have hstart : (smaller line.length.toUInt64
      (c + ((line.drop n).take w.toNat).length.toUInt64)).toNat = n + min w.toNat (line.length - n) := by
    rw [toNat_smaller, UInt64.toNat_add, hplace, toNat_size hline, hmarked,
      UInt64.toNat_ofNat_of_lt' (by rw [UInt64.size]; omega)]
    omega
  rw [part?_of_le hstart (by omega), List.drop_drop, List.take_of_length_le]
  · rcases Nat.le_total w.toNat (line.length - n) with h | h
    · rw [Nat.min_eq_left h]
    · rw [Nat.min_eq_right h, List.drop_of_length_le (by omega), List.drop_of_length_le (by omega)]
  -- a count of all ones is no bound
  · rw [List.length_drop]
    simp only [UInt64.reduceSub, UInt64.reduceToNat]
    omega

/-- In the arithmetic of words no clamp lacks room and no part of a line starts past its end, and the
line is cut as it is in the natural numbers. -/
theorem cut?_eq (column width : UInt64) : ∃ c, cut? line column width = some c ∧
    Highlight.of line column width = ⟨c.before, c.marked, c.after, c.column.toNat, c.width.toNat⟩ := by
  obtain ⟨c, hc, hcolumn⟩ := clamp?_column hline column
  obtain ⟨w, hw, hwidth⟩ := clamp?_width hline width (c := c) (by omega)
  have hplace : (c - 1).toNat = c.toNat - 1 := by
    refine UInt64.toNat_sub_of_le _ _ (UInt64.le_iff_toNat_le.2 ?_)
    simp only [UInt64.reduceToNat]
    omega
  have hn : c.toNat - 1 ≤ line.length := by omega
  refine ⟨⟨line.take (c.toNat - 1), (line.drop (c.toNat - 1)).take w.toNat,
    (line.drop (c.toNat - 1)).drop w.toNat, c, w⟩, ?_, by rw [Highlight.of, ← hcolumn, ← hwidth]⟩
  have hbefore : part? line 0 (c - 1) = some (line.take (c.toNat - 1)) := by
    rw [part?_of_le rfl (Nat.zero_le _), hplace]
    rfl
  simp only [cut?, hc, hw, hbefore, part?_of_le hplace hn, part?_after hline hplace hn,
    Option.bind_eq_bind, Option.bind_some, Option.pure_def]

/-- So the excerpt is written, and it is the same. -/
theorem excerptInWords?_eq (number column width : UInt64) (escape : String) :
    excerptInWords? line number column width escape =
      some (excerpt line number column width escape) := by
  obtain ⟨c, hc, hcut⟩ := cut?_eq hline column width
  have hpadding : ∀ n : Nat, ((5 : Int) - n).toNat = 5 - n := fun n => by omega
  simp only [excerptInWords?, hc, excerpt, hcut, lineNumber, blanks, padding_eq, tildes_eq, hpadding,
    Option.bind_eq_bind, Option.bind_some, Option.pure_def]

end Cuts

section Columns

variable {h : Highlight} {line : List Char} {number column width : UInt64} {escape : String}

theorem excerpt_eq_written : excerpt line number column width escape =
    written ((Highlight.of line column width).upper number escape) ++ "\n" ++
      written ((Highlight.of line column width).lower escape) ++ "\n" := by
  simp only [excerpt, written, Highlight.upper, Highlight.lower, String.append_assoc,
    String.ofList_toList, String.append_empty]

theorem seen_upper : seen (h.upper number escape) =
    (lineNumber number).toList ++ " | ".toList ++ (h.before ++ h.marked ++ h.after) := by
  simp [seen, Highlight.upper]

theorem seen_lower : seen (h.lower escape) =
    "      |".toList ++ (List.replicate h.column ' ' ++ '^' :: List.replicate (h.width - 1) '~') := by
  simp [seen, Highlight.lower, blanks]

/-- A number of five digits at most is padded to five. -/
theorem length_lineNumber (hnumber : number.toNat < 100000) :
    (lineNumber number).toList.length = 5 := by
  have hdigits : (toString number.toNat).length ≤ 5 := Nat.repr_length _ 5 (by decide) hnumber
  simp only [lineNumber, blanks, String.toList_append, String.toList_ofList, List.length_append,
    List.length_replicate, String.length_toList]
  omega

end Columns

/-- Whatever the words for column and width are, a line below 2 ^ 63 characters is cut at no place past
its end, and what is seen of its excerpt is the line with its number, all of it, and below it the
marks: a caret under the column, brought to the line, and a tilde for each further character of the
highlight. If the number has five digits at most, the caret is right under the first character of the
highlight. -/
theorem excerpt_keepsToLine {line : List Char} (hline : line.length < 2 ^ 63)
    (number column width : UInt64) (escape : String) :
    let h := Highlight.of line column width
    let tail := List.replicate (max 1 h.marked.length - 1) '~'
    excerptInWords? line number column width escape =
      some (excerpt line number column width escape) ∧
    excerpt line number column width escape =
      written (h.upper number escape) ++ "\n" ++ written (h.lower escape) ++ "\n" ∧
    h.before ++ h.marked ++ h.after = line ∧
    h.column = max 1 (min column.toNat (line.length + 1)) ∧
    h.before.length = h.column - 1 ∧
    h.marked.length = min (max width.toNat 1) (line.length + 1 - h.column) ∧
    seen (h.upper number escape) = (lineNumber number).toList ++ " | ".toList ++ line ∧
    seen (h.lower escape) = "      |".toList ++ (List.replicate h.column ' ' ++ '^' :: tail) ∧
    (number.toNat < 100000 →
      (seen (h.upper number escape)).drop (7 + h.column) = h.marked ++ h.after ∧
      (seen (h.lower escape)).drop (7 + h.column) = '^' :: tail) := by
  intro h tail
  have hparts : h.before ++ h.marked ++ h.after = line := Highlight.of_parts line column width
  have hbefore : h.before.length + 1 = h.column := Highlight.of_before_length line column width
  have hlower : seen (h.lower escape) =
      "      |".toList ++ (List.replicate h.column ' ' ++ '^' :: tail) := by
    rw [seen_lower, Highlight.of_width]
  refine ⟨excerptInWords?_eq hline number column width escape, excerpt_eq_written, hparts,
    Highlight.of_column line column width, by omega, Highlight.of_marked_length line column width,
    by rw [seen_upper, hparts], hlower, fun hnumber => ⟨?_, ?_⟩⟩
  · rw [seen_upper, List.append_assoc h.before, ← List.append_assoc _ h.before]
    refine List.drop_left' ?_
    rw [List.length_append, List.length_append, length_lineNumber hnumber,
      show " | ".toList.length = 3 from rfl]
    omega
  · rw [hlower, ← List.append_assoc]
    refine List.drop_left' ?_
    rw [List.length_append, List.length_replicate, show "      |".toList.length = 7 from rfl]

/-- A width of all ones highlights the rest of the line, and no more. -/
theorem callParameter_keepsToLine :
    ("f(x)".toList.length < 2 ^ 63 ∧ (7 : UInt64).toNat < 100000) ∧
    excerptInWords? "f(x)".toList 7 3 (0 - 1) Severity.error.escape =
      some "    7 | f(\x1b[1m\x1b[31mx)\x1b[0m\n      |   \x1b[1m\x1b[31m^~\x1b[0m\n" ∧
    (seen ((Highlight.of "f(x)".toList 3 (0 - 1)).upper 7 Severity.error.escape)).drop 10 =
      "x)".toList ∧
    (seen ((Highlight.of "f(x)".toList 3 (0 - 1)).lower Severity.error.escape)).drop 10 =
      "^~".toList := by
  have hline : "f(x)".toList.length < 2 ^ 63 := by decide
  have hnumber : (7 : UInt64).toNat < 100000 := by decide
  obtain ⟨hwords, -, -, -, -, -, -, -, hcaret⟩ :=
    excerpt_keepsToLine hline 7 3 (0 - 1) Severity.error.escape
  obtain ⟨hupper, hlower⟩ := hcaret hnumber
  exact ⟨⟨hline, hnumber⟩, hwords.trans (by decide +kernel), hupper.trans (by decide +kernel),
    hlower.trans (by decide +kernel)⟩

end Hoist.Report
