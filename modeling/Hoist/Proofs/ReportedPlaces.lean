import Hoist.CommandLine
import Hoist.Proofs.SourceLocations
import Hoist.Proofs.Surface.PlacedTrees

/-!
# The places that reports name

A fault of a text is reported with the name of the file, a line and a column, and a failure of lowering
with those of its location. Both find the same line of the text and the same column for the same offset.
The line of a fault is counted from one, whatever number the first line was given.
-/

namespace Hoist.Flat

variable {s : Source} {text : List Char}

namespace Source

/-- Where lines are numbered from one, the number of a line counts the line ends before it and one. -/
theorem toNat_line_fromOne (h : s.firstLine = 1) (hsize : s.text.length + 1 < UInt64.size) (o : Nat) :
    (s.locate o).line.toNat = Text.lineEnds (s.text.take o) + 1 := by
  have hcount : Text.lineEnds (s.text.take o) ≤ s.text.length :=
    List.count_le_length.trans (List.length_take_le' _ _)
  have hline : (s.locate o).line = (Text.lineEnds (s.text.take o) + 1).toUInt64 := by
    rw [locate, h, UInt64.add_comm]
    exact (UInt64.ofNat_add _ _).symm
  rw [hline]
  exact UInt64.toNat_ofNat_of_lt' (by omega)

theorem toNat_column_succ (hsize : s.text.length + 1 < UInt64.size) (o : Nat) :
    ((s.locate o).column + 1).toNat = (Text.lastLine (s.text.take o)).length + 1 := by
  have hlast : (Text.lastLine (s.text.take o)).length ≤ s.text.length := by
    have := (List.takeWhile_sublist (l := (s.text.take o).reverse) (· != '\n')).length_le
    simp only [Text.lastLine, List.length_reverse, List.length_take] at *
    omega
  have hcolumn : (s.locate o).column + 1 =
      ((Text.lastLine (s.text.take o)).length + 1).toUInt64 := (UInt64.ofNat_add _ _).symm
  rw [hcolumn]
  exact UInt64.toNat_ofNat_of_lt' (by omega)

end Source

namespace Location

/-- Name, line and column of a location, the latter two counted from one. -/
def place (l : Location) : String :=
  l.source.url ++ ":" ++ toString l.line.toNat ++ ":" ++ toString (l.column + 1).toNat

/-- The report of a fault whose text starts at a location: the place, the message, and an excerpt of
the line with as much of the text marked as stands in it. -/
def faultReport (l : Location) (fault : Surface.Fault) : String :=
  let width := max 1 (min fault.text.length (l.lineText.length - l.column.toNat))
  Report.bold ++ l.place ++ ": " ++
    (Report.Severity.error.escape ++ Report.Severity.error.name ++ ": " ++ Report.clear ++
      fault.describe ++ "\n") ++
    Report.excerpt l.lineText l.line (l.column + 1) width.toUInt64 Report.Severity.error.escape

theorem traceback_eq (l : Location) : l.traceback = Report.bold ++ l.place ++ Report.clear ++ "\n" ++
    Report.excerpt l.lineText l.line (l.column + 1) 1 Report.Severity.error.escape := by
  simp only [traceback, place, String.append_assoc]

end Location

end Hoist.Flat

namespace Hoist.CommandLine

open Hoist.Flat (Source)
open Hoist.Surface (Fault readModule)

variable {m : Type → Type} [Monad m] [LawfulMonad m] {disk : Disk m} {arguments : List String}
  {request : Request} {text : List Char} {fault : Fault} {url : String}

/-- The source that a request lowers. -/
def Request.source (r : Request) (text : List Char) : Source := ⟨0, r.url, r.firstLine, text⟩

/-- A fault of a text is reported at the location of its start, where lines are numbered from one. -/
theorem fault_report (htext : text ≠ []) (hsize : text.length + 1 < UInt64.size)
    (hpiece : fault.OfText text) : fault.report (some ⟨url, text⟩) =
      ((Source.mk 0 url 1 text).locate fault.start).faultReport fault := by
  have hinside : (Report.Mention.mk fault.text (some fault.start)).inside? text =
      some fault.start := by
    obtain ⟨front, back, hfront, hstart⟩ := hpiece.occurs
    have hle : fault.start + fault.text.length ≤ text.length := by
      rw [hfront, ← hstart]
      simp only [List.length_append]
      omega
    have hsome : text.isEmpty = false := by simpa using htext
    simp [Report.Mention.inside?, hsome, hle]
  obtain ⟨l, hl⟩ : ∃ l, (Source.mk 0 url 1 text).locate fault.start = l := ⟨_, rfl⟩
  have hline := Source.toNat_line_fromOne (s := ⟨0, url, 1, text⟩) rfl hsize fault.start
  have hcolumn := Source.toNat_column_succ (s := ⟨0, url, 1, text⟩) hsize fault.start
  have hlast := Source.toNat_column (s := ⟨0, url, 1, text⟩) (Nat.lt_of_succ_lt hsize) fault.start
  have hlineText := Source.lineText_locate (s := ⟨0, url, 1, text⟩) (Nat.lt_of_succ_lt hsize) fault.start
  have hurl : l.source.url = url := by rw [← hl, Source.locate]
  rw [hl] at hline hcolumn hlast hlineText
  have hwidth : (Text.line (text.drop fault.start)).length = l.lineText.length - l.column.toNat := by
    rw [hlineText, hlast, List.length_append, Nat.add_sub_cancel_left]
  simp only [Fault.report, Fault.mention, Report.mention, hinside, hl, Flat.Location.faultReport,
    Flat.Location.place, hurl, ← hlineText, ← hline, ← hcolumn, hwidth, String.append_assoc]
  simp only [Nat.toUInt64, UInt64.ofNat_toNat]

/-- A command whose file cannot be read as a module ends with the report of the fault. -/
theorem run_of_fault (hrequest : Request.ofArguments arguments = .ok request)
    (hfile : disk.read? request.path = pure (some text)) (hfault : readModule text = .error fault) :
    run disk arguments = pure (.ofTrouble
      (if request.verbose then Lowering.announcement (request.source text) else "")
      (.badUnit (fault.report (some ⟨request.url, text⟩)))) := by
  simp only [run, hrequest, serve, hfile, pure_bind, Lowering.lowerSource, hfault, unitReport,
    Request.source]

/-- A command shows a fault of its file at the column, and with the line, that the traceback of a
failure shows for the same offset. The number of that line counts from one: it is the number that a
traceback shows if the first line was given the number one, and otherwise is as far from it as that
number from one. -/
theorem fault_reported (hrequest : Request.ofArguments arguments = .ok request)
    (hfile : disk.read? request.path = pure (some text)) (htext : text ≠ [])
    (hsize : text.length + 1 < UInt64.size) (hfault : readModule text = .error fault) :
    ∃ shown traced log,
      { request.source text with firstLine := 1 }.locate? fault.start = some shown ∧
      (request.source text).locate? fault.start = some traced ∧
      log = (if request.verbose then Lowering.announcement (request.source text) else "") ∧
      run disk arguments = pure ⟨1, "", log ++ shown.faultReport fault⟩ ∧
      traced.traceback = Report.bold ++ traced.place ++ Report.clear ++ "\n" ++
        Report.excerpt traced.lineText traced.line (traced.column + 1) 1
          Report.Severity.error.escape ∧
      shown.column = traced.column ∧ shown.lineText = traced.lineText ∧
      shown.line + request.firstLine = traced.line + 1 ∧
      (request.firstLine = 1 → shown = traced) := by
  have hpiece := (Surface.readModule_settles text).error fault hfault
  have hlocate : text.length < UInt64.size := Nat.lt_of_succ_lt hsize
  refine ⟨_, _, _, if_pos hpiece.occurs.le, if_pos hpiece.occurs.le, rfl, ?_,
    Flat.Location.traceback_eq _, rfl, ?_, ?_, fun h => ?_⟩
  · rw [run_of_fault hrequest hfile hfault, fault_report htext hsize hpiece]
    rfl
  · rw [Source.lineText_locate hlocate, Source.lineText_locate hlocate]
  · simp only [Source.locate, Request.source]
    ac_rfl
  · rw [Request.source, h]

/-- A disk whose every file holds one text. -/
def uniformDisk (text : List Char) : Disk Id where
  read? _ := some text
  write _ _ := false

/-- A stray character in the second line of a file is shown there. -/
theorem strayCharacter_reported :
    (Request.ofArguments ["lambc", "a.py"] = .ok ⟨"a.py", "a.py", 1, "", false⟩ ∧
      (uniformDisk "x = 1\ny = $\n".toList).read? "a.py" = pure (some "x = 1\ny = $\n".toList) ∧
      "x = 1\ny = $\n".toList ≠ [] ∧ "x = 1\ny = $\n".toList.length + 1 < UInt64.size ∧
      readModule "x = 1\ny = $\n".toList = .error ⟨.strayCharacter, 10, ['$']⟩) ∧
    ∃ shown : Flat.Location, shown.line = 2 ∧ shown.column = 4 ∧
      run (uniformDisk "x = 1\ny = $\n".toList) ["lambc", "a.py"] =
        pure ⟨1, "", "" ++ shown.faultReport ⟨.strayCharacter, 10, ['$']⟩⟩ := by
  have hrequest : Request.ofArguments ["lambc", "a.py"] = .ok ⟨"a.py", "a.py", 1, "", false⟩ := by
    decide +kernel
  have htext : "x = 1\ny = $\n".toList ≠ [] := by decide +kernel
  have hsize : "x = 1\ny = $\n".toList.length + 1 < UInt64.size := by decide +kernel
  have hfault : readModule "x = 1\ny = $\n".toList = .error ⟨.strayCharacter, 10, ['$']⟩ :=
    Surface.readModule_of_error (by decide +kernel)
  have hfile : (uniformDisk "x = 1\ny = $\n".toList).read? "a.py" = pure (some "x = 1\ny = $\n".toList) :=
    rfl
  obtain ⟨shown, traced, log, hshown, -, rfl, hrun, -⟩ :=
    fault_reported hrequest hfile htext hsize hfault
  refine ⟨⟨hrequest, hfile, htext, hsize, hfault⟩, shown, ?_, ?_, hrun⟩
  all_goals
    rw [← Option.some.inj hshown]
    decide +kernel

/-- With the lines of the file numbered from five on, a fault in the first of them is not shown in the
line that a traceback shows for its offset. -/
theorem strayCharacter_misnumbered : ∃ traced,
    Request.ofArguments ["lambc", "a.py", "-line", "5"] = .ok ⟨"a.py", "a.py", 5, "", false⟩ ∧
    readModule "x = $\n".toList = .error ⟨.strayCharacter, 4, ['$']⟩ ∧
    (Source.mk 0 "a.py" 5 "x = $\n".toList).locate? 4 = some traced ∧
    run (uniformDisk "x = $\n".toList) ["lambc", "a.py", "-line", "5"] ≠
      pure ⟨1, "", traced.faultReport ⟨.strayCharacter, 4, ['$']⟩⟩ := by
  have hrequest : Request.ofArguments ["lambc", "a.py", "-line", "5"] =
      .ok ⟨"a.py", "a.py", 5, "", false⟩ := by
    decide +kernel
  have hfault : readModule "x = $\n".toList = .error ⟨.strayCharacter, 4, ['$']⟩ :=
    Surface.readModule_of_error (by decide +kernel)
  refine ⟨_, hrequest, hfault, if_pos (by decide +kernel), ?_⟩
  have hfile : (uniformDisk "x = $\n".toList).read? "a.py" = pure (some "x = $\n".toList) := rfl
  rw [run_of_fault hrequest hfile hfault]
  change Ending.ofTrouble _ _ ≠ Ending.mk _ _ _
  decide +kernel

end Hoist.CommandLine
