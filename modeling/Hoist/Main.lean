import Hoist.CommandLine
import Hoist.Text.Bytes

/-!
# The program

Runs the command line over the real files, and turns texts into bytes on the way out.
-/

namespace Hoist

/-- Whether an action comes to its end. -/
def succeeds (action : IO Unit) : IO Bool := do
  try
    action
    return true
  catch _ => return false

/-- The files of the machine. -/
def realDisk : CommandLine.Disk IO where
  read? path := do
    match Text.toName? path with
    | none => return none
    | some name =>
      try
        return some (Text.ofBytes (← IO.FS.readBinFile name))
      catch _ => return none
  write path text := do
    match Text.toName? path with
    | none => return false
    | some name => succeeds (IO.FS.writeBinFile name (Text.toBytes text.toList))

/-- Writes a text to a stream byte by byte. -/
def emit (stream : IO.FS.Stream) (text : String) : IO Unit := do
  stream.write (Text.toBytes text.toList)
  stream.flush

end Hoist

/-- The command, its arguments read as bytes. -/
def main (arguments : List String) : IO UInt32 := do
  let ending ← Hoist.CommandLine.run Hoist.realDisk ("hoist" :: arguments.map Hoist.Text.ofName)
  Hoist.emit (← IO.getStderr) ending.errors
  Hoist.emit (← IO.getStdout) ending.output
  return ending.code
