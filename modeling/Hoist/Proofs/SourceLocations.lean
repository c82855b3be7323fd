import Hoist.Flat.Location
import Hoist.Proofs.Surface.Scanned

/-!
# Locations and the lines they point into

The location of an offset counts the line ends before it, the text of a location's line is found by
skipping as many line ends from the front. The two undo each other: behind the line ends counted stands
the line that holds the offset, and the column is the way from its start.
-/

namespace Hoist.Text

variable {front rest text : List Char}

/-- The text behind the last line end has no line ends. -/
theorem not_mem_lastLine (text : List Char) : '\n' ∉ lastLine text := by
  intro h
  have := List.mem_takeWhile_imp (List.mem_reverse.1 h)
  simp at this

theorem lastLine_of_not_mem (h : '\n' ∉ text) : lastLine text = text := by
  have hall : ∀ c ∈ text.reverse, (c != '\n') = true := fun c hc => by
    rw [bne_iff_ne]
    rintro rfl
    exact h (List.mem_reverse.1 hc)
  rw [lastLine, List.takeWhile_eq_self_iff.2 hall, List.reverse_reverse]

/-- What stands before a line end is not in the last line. -/
theorem lastLine_append (front rest : List Char) :
    lastLine (front ++ '\n' :: rest) = lastLine rest := by
  have hreverse : (front ++ '\n' :: rest).reverse = rest.reverse ++ '\n' :: front.reverse := by simp
  rw [lastLine, hreverse, List.takeWhile_append]
  split
  · rename_i hall
    rw [lastLine, (List.takeWhile_sublist _).eq_of_length hall]
    simp
  · rfl

theorem lineEnds_append (front rest : List Char) :
    lineEnds (front ++ '\n' :: rest) = lineEnds front + lineEnds rest + 1 := by
  simp only [lineEnds, List.count_append, List.count_cons_self]
  omega

theorem lineEnds_eq_zero : lineEnds text = 0 ↔ '\n' ∉ text := List.count_eq_zero

/-- A text is all that stands up to its last line end, and its last line. -/
theorem exists_lastLine (text : List Char) : ∃ front, text = front ++ lastLine text ∧
    ∀ c ∈ front.getLast?, c = '\n' := by
  have hsplit := (List.takeWhile_append_dropWhile (p := (· != '\n')) (l := text.reverse)).symm
  refine ⟨(text.reverse.dropWhile (· != '\n')).reverse, ?_, fun c hc => ?_⟩
  · rw [lastLine, ← List.reverse_append, ← hsplit, List.reverse_reverse]
  · have := List.head?_dropWhile_not (· != '\n') text.reverse
    rw [List.getLast?_reverse] at hc
    rw [Option.mem_def.1 hc] at this
    simpa using this

/-- A text is its first line, and what stands from the first line end on. -/
theorem exists_line (text : List Char) : ∃ back, text = line text ++ back ∧
    ∀ c ∈ back.head?, c = '\n' := by
  refine ⟨text.dropWhile (· != '\n'), List.takeWhile_append_dropWhile.symm, fun c hc => ?_⟩
  have := List.head?_dropWhile_not (· != '\n') text
  rw [Option.mem_def.1 hc] at this
  simpa using this

/-- The first line goes on up to the first line end. -/
theorem line_append (h : '\n' ∉ front) (rest : List Char) :
    line (front ++ rest) = front ++ line rest := by
  refine List.takeWhile_append_of_pos fun c hc => ?_
  rw [bne_iff_ne]
  rintro rfl
  exact h hc

end Hoist.Text

namespace Hoist.Flat

/-- Behind the line ends of the front of a text stand the last line of the front and the rest. -/
theorem skipLines_append (behind ahead : List Char) :
    skipLines (Text.lineEnds behind) (behind ++ ahead) = Text.lastLine behind ++ ahead := by
  obtain ⟨n, hn⟩ : ∃ n, Text.lineEnds behind = n := ⟨_, rfl⟩
  induction n generalizing behind with
  | zero => rw [hn, skipLines, Text.lastLine_of_not_mem (Text.lineEnds_eq_zero.1 hn)]
  | succ n ih =>
    obtain ⟨ending, hsplit, hending⟩ := Surface.Lexer.afterLine_split behind
    have hline := Surface.Lexer.not_mem_line behind
    obtain ⟨first, hfirst⟩ : ∃ first, Text.line behind = first := ⟨_, rfl⟩
    obtain ⟨rest, hrest⟩ : ∃ rest, Text.afterLine behind = rest := ⟨_, rfl⟩
    rw [hfirst, hrest] at hsplit
    rw [hfirst] at hline
    rcases hending with rfl | ⟨rfl, hnil⟩
    · have hbehind : behind = first ++ '\n' :: rest := by simpa using hsplit
      have hrestEnds : Text.lineEnds rest = n := by
        rw [hbehind, Text.lineEnds_append, Text.lineEnds_eq_zero.2 hline] at hn
        omega
      have hafter : Text.afterLine (first ++ ['\n'] ++ (rest ++ ahead)) = rest ++ ahead :=
        Surface.Lexer.afterLine_append hline (.inl rfl)
      have htext : behind ++ ahead = first ++ ['\n'] ++ (rest ++ ahead) := by simp [hbehind]
      rw [hn, skipLines, if_neg (by simp [htext]), htext, hafter, ← hrestEnds, ih rest hrestEnds,
        hbehind, Text.lastLine_append]
    · rw [hrest] at hnil
      rw [hsplit, hnil, List.append_nil, List.append_nil, Text.lineEnds_eq_zero.2 hline] at hn
      cases hn

/-- A text around one of its lines: the line has no line ends, and a line end or an end of the text
stands on each side of it. -/
structure Around (text front line back : List Char) : Prop where
  whole : text = front ++ (line ++ back)
  starts : ∀ c ∈ front.getLast?, c = '\n'
  unbroken : '\n' ∉ line
  ends : ∀ c ∈ back.head?, c = '\n'

namespace Source

variable {s : Source} {o o' : Nat}

theorem toNat_column (hsize : s.text.length < UInt64.size) (o : Nat) :
    (s.locate o).column.toNat = (Text.lastLine (s.text.take o)).length := by
  have hlast := (List.takeWhile_prefix (l := (s.text.take o).reverse) (· != '\n')).length_le
  refine UInt64.toNat_ofNat_of_lt' ?_
  simp only [Text.lastLine, List.length_reverse, List.length_take, UInt64.size] at *
  omega

/-- The number of a line counts the line ends before it, also when it wraps around. -/
theorem toNat_line (hsize : s.text.length < UInt64.size) (o : Nat) :
    ((s.locate o).line - s.firstLine).toNat = Text.lineEnds (s.text.take o) := by
  have hcount : Text.lineEnds (s.text.take o) ≤ (s.text.take o).length := List.count_le_length
  have hline : (s.locate o).line - s.firstLine = (Text.lineEnds (s.text.take o)).toUInt64 := by
    rw [locate, UInt64.add_comm, UInt64.add_sub_cancel]
  rw [hline]
  refine UInt64.toNat_ofNat_of_lt' ?_
  simp only [List.length_take, UInt64.size] at *
  omega

/-- Behind the line ends that the number of its line counts stand what is left of the line before an
offset and the text from there on. -/
theorem skipLines_locate (hsize : s.text.length < UInt64.size) (o : Nat) :
    skipLines ((s.locate o).line - s.firstLine).toNat s.text =
      Text.lastLine (s.text.take o) ++ s.text.drop o := by
  rw [toNat_line hsize, ← skipLines_append, List.take_append_drop]

/-- The line of a location goes from the line end before the offset to the one behind it. -/
theorem lineText_locate (hsize : s.text.length < UInt64.size) (o : Nat) :
    (s.locate o).lineText = Text.lastLine (s.text.take o) ++ Text.line (s.text.drop o) := by
  have hsource : (s.locate o).source = s := rfl
  rw [Location.lineText, hsource, skipLines_locate hsize, Text.line_append (Text.not_mem_lastLine _)]

/-- A line and a column belong to one offset. -/
theorem locate_inj (hsize : s.text.length < UInt64.size) (ho : o ≤ s.text.length)
    (ho' : o' ≤ s.text.length) (hline : (s.locate o').line = (s.locate o).line)
    (hcolumn : (s.locate o').column = (s.locate o).column) : o' = o := by
  have hskip := congrArg List.length (skipLines_locate hsize o)
  have hskip' := congrArg List.length (skipLines_locate hsize o')
  rw [List.length_append, List.length_drop, ← toNat_column hsize] at hskip hskip'
  rw [hline, hcolumn] at hskip'
  omega

/-- The location of an offset in a text has the number of the line ends before the offset and the
distance from the start of its line; the text of its line is the line that holds the offset, up to the
line ends around it; and no other offset has the same line and column. -/
theorem locate_inverse (s : Source) (hsize : s.text.length < UInt64.size) (ho : o ≤ s.text.length) :
    ∃ l front back, s.locate? o = some l ∧ l.source = s ∧
      l.line = s.firstLine + ((s.text.take o).count '\n').toUInt64 ∧
      Around s.text front l.lineText back ∧ o = front.length + l.column.toNat ∧
      l.column.toNat ≤ l.lineText.length ∧
      ∀ o' l', s.locate? o' = some l' → l'.line = l.line → l'.column = l.column → o' = o := by
  obtain ⟨front, hfront, hstarts⟩ := Text.exists_lastLine (s.text.take o)
  obtain ⟨back, hback, hends⟩ := Text.exists_line (s.text.drop o)
  have hline := lineText_locate hsize o
  have hcolumn := toNat_column hsize o
  refine ⟨s.locate o, front, back, if_pos ho, rfl, rfl, ⟨?_, hstarts, ?_, hends⟩, ?_, ?_, ?_⟩
  · rw [hline, List.append_assoc, ← hback, ← List.append_assoc, ← hfront, List.take_append_drop]
  · rw [hline, List.mem_append]
    exact fun h => h.elim (Text.not_mem_lastLine _) (Surface.Lexer.not_mem_line _)
  · rw [hcolumn, ← List.length_append, ← hfront, List.length_take, Nat.min_eq_left ho]
  · rw [hcolumn, hline, List.length_append]
    exact Nat.le_add_right _ _
  · intro o' l' hl' hlines hcolumns
    have ho' : o' ≤ s.text.length := by
      by_contra h
      rw [locate?, if_neg h] at hl'
      cases hl'
    rw [locate?, if_pos ho'] at hl'
    obtain rfl := Option.some.inj hl'
    exact locate_inj hsize ho ho' hlines hcolumns

/-- A text whose last line has no end and stands behind an empty one. Its lines are numbered from the
greatest number on. -/
def unended : Source := ⟨0, "u", 18446744073709551615, "ab\n\ncd".toList⟩

/-- At the end of the text, the number of the line has wrapped around. -/
theorem locate_lastLine : (unended.text.length < UInt64.size ∧ 6 ≤ unended.text.length) ∧
    ∃ l front back, unended.locate? 6 = some l ∧ l.source = unended ∧
      l.line = unended.firstLine + ((unended.text.take 6).count '\n').toUInt64 ∧
      Around unended.text front l.lineText back ∧ 6 = front.length + l.column.toNat ∧
      l.column.toNat ≤ l.lineText.length ∧
      ∀ o' l', unended.locate? o' = some l' → l'.line = l.line → l'.column = l.column → o' = 6 :=
  ⟨⟨by decide, by decide⟩, locate_inverse unended (by decide) (by decide)⟩

end Source

end Hoist.Flat
