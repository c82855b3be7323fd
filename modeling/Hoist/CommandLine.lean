import Hoist.Lowering.Unit

/-!
# The command line

The command reads the file named first, lowers the function in it, and writes the lambdas of its table
in indented form, to the standard output or to a file. An option takes the argument behind its first
mention, wherever that is; an option mentioned last has no value and is passed over.

`run` is the whole command. It reaches the files around it through a `Disk` only.
-/

namespace Hoist.CommandLine

open Hoist.Flat (Source Symbol Table)
open Hoist.Lowering (UnitError)

/-- What a command line asks for. -/
structure Request where
  path : String
  /-- What reports call the text. -/
  url : String
  firstLine : UInt64
  /-- The file that is written, empty for the standard output. -/
  target : String
  verbose : Bool
deriving DecidableEq, Repr

/-- Why a command ends without a table. -/
inductive Trouble
  | usage (program : String)
  | badLineNumber (text : String)
  | unreadable (path : String)
  | unwritable (path : String)
  | badUnit (report : String)
deriving DecidableEq, Repr

namespace Trouble

/-- The exit code: 2 if the command line itself is at fault. -/
def code : Trouble → UInt32
  | .usage _ | .badLineNumber _ => 2
  | .unreadable _ | .unwritable _ | .badUnit _ => 1

/-- What is said of a trouble. -/
def message : Trouble → String
  | .usage program => "usage: " ++ program ++ " <file> [-url U] [-line N] [-o out] [-v]\n"
  | .badLineNumber text => Report.styled .error ("invalid line number " ++ text)
  | .unreadable path => Report.styled .error ("cannot open file " ++ path)
  | .unwritable path => Report.styled .error ("cannot open " ++ path)
  | .badUnit report => report

end Trouble

/-- The argument behind the first mention of an option. -/
def optionValue? (name : String) (arguments : List String) : Option String :=
  match arguments.dropWhile (· != name) with
  | _ :: value :: _ => some value
  | _ => none

/-- A line number: decimal digits alone, of a number below 2 ^ 64. -/
def readLineNumber? (text : String) : Option UInt64 :=
  let digits := text.toList
  if digits.isEmpty || !digits.all Text.isDigit then none
  else
    let n := digits.foldl (fun n c => 10 * n + (c.toNat - '0'.toNat)) 0
    if n < UInt64.size then some n.toUInt64 else none

/-- The request of a command line, whose first argument is the program itself. -/
def Request.ofArguments (arguments : List String) : Except Trouble Request :=
  match arguments with
  | _ :: path :: _ =>
    let line := (optionValue? "-line" arguments).getD "1"
    match readLineNumber? line with
    | none => .error (.badLineNumber line)
    | some firstLine =>
      .ok {
        path := path
        url := (optionValue? "-url" arguments).getD path
        firstLine := firstLine
        target := (optionValue? "-o" arguments).getD ""
        verbose := arguments.contains "-v" }
  | _ => .error (.usage (arguments.headD ""))

/-- The files around a command. -/
structure Disk (m : Type → Type) where
  /-- The text of a file, if it can be read. -/
  read? : String → m (Option (List Char))
  /-- Puts a text in the place of a file, and tells whether that was possible. -/
  write : String → String → m Bool

/-- What a command shows, and the code it ends with. -/
structure Ending where
  code : UInt32
  output : String
  errors : String
deriving DecidableEq, Repr

/-- The ending of a command in trouble, after what was logged before. -/
def Ending.ofTrouble (log : String) (t : Trouble) : Ending := ⟨t.code, "", log ++ t.message⟩

/-- The lambdas of a table, each in indented form and followed by an empty line. -/
def listing (t : Table) : String :=
  String.join (t.lambdas.map fun l => (Sexp.toSexp l).writeIndented 0 ++ "\n")

/-- The report of a unit that has no result. -/
def unitReport (source : Source) : UnitError → String
  | .unreadable fault => fault.report (some ⟨source.url, source.text⟩)
  | .failed failure =>
    match failure.diagnostic? with
    | some d => d.report
    | none => Report.styled .error failure.internalMessage

/-- Serves a request. -/
def serve {m : Type → Type} [Monad m] (disk : Disk m) (request : Request) : m Ending := do
  match ← disk.read? request.path with
  | none => return .ofTrouble "" (.unreadable request.path)
  | some text =>
    let source : Source := ⟨0, request.url, request.firstLine, text⟩
    let o := Lowering.lowerSource source { verbose := request.verbose }
    match o.result with
    | .error e => return .ofTrouble o.log (.badUnit (unitReport source e))
    | .ok entry =>
      let errors := o.log ++ if request.verbose then "entry: " ++ entry.write ++ "\n" else ""
      if request.target.isEmpty then return ⟨0, listing o.table, errors⟩
      if ← disk.write request.target (listing o.table) then return ⟨0, "", errors⟩
      return .ofTrouble o.log (.unwritable request.target)

/-- Runs the command of a command line. -/
def run {m : Type → Type} [Monad m] (disk : Disk m) (arguments : List String) : m Ending :=
  match Request.ofArguments arguments with
  | .error t => return .ofTrouble "" t
  | .ok request => serve disk request

end Hoist.CommandLine
