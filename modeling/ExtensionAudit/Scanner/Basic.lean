import ExtensionAudit.Detect.Exec
import ExtensionAudit.Detect.Url
import ExtensionAudit.Package.Installed
import ExtensionAudit.Report.Basic
import ExtensionAudit.World

/-!
# Scanners

A scanner reads the files of a package one after the other, within a size limit and a time limit.

* `FileSystem.content`: the text of a file within the size limit; `Detect.search`: what a content holds;
* `Scanner`: a package with the limits for its scan; `Scanner.prepare`: a scanner with the limits set now;
* `Scanner.Examination`, `Scanner.examine`: the files of a walk, read until the time is over.
-/

namespace ExtensionAudit

/-! ## Files -/

/-- The text of a regular file that has no more bytes than the limit allows. -/
def FileSystem.content (fs : FileSystem) (cwd : Location) (limit : Int) (p : Path) : Except Failure Text :=
  match fs.stat cwd p with
  | .error e => .error e
  | .ok (.file openable bytes) =>
    if limit < bytes.length then .error (.tooLarge limit bytes.length)
    else if openable then .ok (Text.unifyNewlines (Utf8.decodeLossy bytes))
    else .error (.system .denied p)
  | .ok _ => .error (.notRegular p)

/-- The findings and the URLs of a content. -/
def Detect.search (d : Denylist) (content : Text) : List Finding × List Text :=
  (Detect.execFindings d content, Detect.urls content)

/-- A package and how it is scanned. -/
structure Scanner where
  root : Path
  metadata : Metadata
  denylist : Denylist
  maxFileSize : Int
  timeLimit : Int
  /-- The number of files that were read by all scans so far. -/
  scanned : Nat := 0
  /-- The number of files that no scan so far could read. -/
  skipped : Nat := 0
  /-- The directory of a fetched repository, as long as it is there. -/
  temporary : Option Location := none

namespace Scanner

/-- A scanner of a package, with the limits that are set now. A package without labels is named after its
directory. -/
def prepare (w : World) (root : Path) (metadata : Option Metadata) (denylist : Denylist) :
    Scanner × World :=
  let (maxFileSize, sizeNotices) := Settings.maxFileSize.read w.environment
  let (timeLimit, timeNotices) := Settings.timeLimit.read w.environment
  let metadata := metadata.getD { name := Path.lastComponent root }
  ({ root, metadata, denylist, maxFileSize, timeLimit }, w.noteAll (sizeNotices ++ timeNotices))

/-- What comes of one file: its result, or why it is skipped. -/
def fileResult (s : Scanner) (fs : FileSystem) (cwd : Location) (p : Path) : Except Failure FileResult :=
  match fs.content cwd s.maxFileSize p with
  | .error e => .error e
  | .ok content =>
    let (findings, urls) := Detect.search s.denylist content
    .ok { path := p, findings, urls }

/-- What is told about one file. -/
def fileNotice (p : Path) : Except Failure FileResult → Notice
  | .error e => .unreadable p e
  | .ok f => .searched f.findings.length f.urls.length

/-- The files of a walk, up to the one before which the time is over. -/
structure Examination where
  /-- The files that were reached, each with what came of it. -/
  outcomes : List (Path × Except Failure FileResult)
  /-- The number of files that were not reached. -/
  unread : Nat

namespace Examination

/-- The results of the files that were read. -/
def results (x : Examination) : List FileResult := x.outcomes.filterMap fun o => o.2.toOption

/-- The files that were reached and could not be read. -/
def skipped (x : Examination) : List Path :=
  (x.outcomes.filter fun o => o.2.toOption.isNone).map (·.1)

/-- Was the time over before the last file? -/
def truncated (x : Examination) : Bool := x.unread != 0

/-- What is told about the files. -/
def notices (x : Examination) (s : Scanner) : List Notice :=
  x.outcomes.map (fun o => fileNotice o.1 o.2)
    ++ if x.truncated then [.timeOver s.timeLimit s.metadata.name x.unread] else []

end Examination

/-- Read files in order as long as the time lasts. -/
def examine (s : Scanner) (fs : FileSystem) (cwd : Location) (clock : Clock) (files : List Path) :
    Examination × Clock :=
  let (reached, clock) := clock.reach s.timeLimit files.length
  ({ outcomes := (files.take reached).map fun p => (p, s.fileResult fs cwd p)
     unread := files.length - reached }, clock)

end Scanner

end ExtensionAudit
