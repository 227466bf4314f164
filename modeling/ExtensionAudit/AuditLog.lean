import ExtensionAudit.Report.Block
import ExtensionAudit.World

/-!
# The audit log

The audit log is a text file: a heading and one block for each package.

* `AuditLog.reset`: start the log afresh; `AuditLog.append`: write at its end;
* `AuditLog.record`: write the block of a package.
-/

namespace ExtensionAudit.AuditLog

/-- Make the directories above the log, as far as they are missing. -/
def makeParent (fs : FileSystem) (cwd : Location) (log : Path) : FileSystem × Except Failure Unit :=
  if Path.parent log = [] then (fs, .ok ()) else fs.makeDirectories cwd (Path.parent log)

/-- Make the log a file that holds the heading alone. -/
def reset (w : World) (log : Path) : World × Except Failure Unit :=
  match makeParent w.files w.cwd log with
  | (files, .error e) => ({ w with files }, .error e)
  | (files, .ok ()) =>
    match files.overwrite w.cwd log (Utf8.encodeAll Report.header) with
    | (files, .error e) => ({ w with files }, .error e)
    | (files, .ok ()) => ({ w with files }.note (.logReset log), .ok ())

def append (w : World) (log : Path) (t : Text) : World × Except Failure Unit :=
  match w.files.append w.cwd log t with
  | (files, result) => ({ w with files }, result)

/-- Write the block of a package at the end of the log. -/
def record (w : World) (log : Path) (m : Metadata) (r : Report) : World × Except Failure Text :=
  let block := r.block m
  match append w log block with
  | (w, .error e) => (w, .error e)
  | (w, .ok ()) => (w.note (.logged m.name log), .ok block)

end ExtensionAudit.AuditLog
