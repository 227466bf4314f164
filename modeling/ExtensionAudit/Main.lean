import ExtensionAudit.CommandLine.Run
import ExtensionAudit.Snapshot

/-!
# The command line

The program reads the snapshot of a world from its standard input, runs on it with its arguments, prints
what the run prints, and writes the files that the run wrote.
-/

namespace ExtensionAudit

/-- A text for printing. -/
def printable (t : Text) : String := String.ofList (t.map fun c => Char.ofNat c.toNat)

/-- The name of a level. -/
def Level.label : Level → String
  | .debug => "DEBUG"
  | .info => "INFO"
  | .warning => "WARNING"
  | .error => "ERROR"

/-- All lines of a stream. -/
partial def readAll (stream : IO.FS.Stream) (sofar : String) : IO String := do
  let line ← stream.getLine
  if line.isEmpty then return sofar else readAll stream (sofar ++ line)

/-- Write a file where it lies, with the directories above it. -/
def writeOut (loc : Location) (content : Bytes) : IO Unit := do
  IO.FS.createDirAll (printable (Path.ofLocation loc.dropLast))
  IO.FS.writeBinFile (printable (Path.ofLocation loc)) (ByteArray.mk content.toArray)

/-- Run on a world and print what the run tells and prints. -/
def runOn (w : World) (arguments : List String) : IO UInt32 := do
  let (after, outcome) := CommandLine.run (arguments.map Text.ofString) w
  for n in after.journal do
    if outcome.shows n then
      IO.println (n.level.label ++ " - " ++ printable n.message)
  IO.print (printable outcome.printed.flatten)
  IO.eprint (printable outcome.complaints)
  for (loc, content) in Snapshot.written w.files after.files do
    writeOut loc content
  return UInt32.ofNat outcome.code

end ExtensionAudit

def main (arguments : List String) : IO UInt32 := do
  let document ← ExtensionAudit.readAll (← IO.getStdin) ""
  match ExtensionAudit.Snapshot.world? (ExtensionAudit.Text.ofString document) with
  | some w => ExtensionAudit.runOn w arguments
  | none =>
    IO.eprintln "the standard input holds no snapshot"
    return 2
