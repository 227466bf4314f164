import ExtensionAudit.Finding
import ExtensionAudit.Table

/-!
# Reports

* `FileResult`: what one file contributes;
* `Report`: the findings of a package, their counts, and its URLs with the files they stand in;
* `Report.ofFiles`: the report of some files.
-/

namespace ExtensionAudit

/-- The findings and URLs of one file. -/
structure FileResult where
  path : Text
  findings : List Finding := []
  urls : List Text := []

/-- The result of scanning a package. Groups and URLs stand in order of first appearance. -/
structure Report where
  findings : List Finding := []
  grouped : Table Text Int := []
  urls : Table Text (List Text) := []
  skipped : List Text := []
  truncated : Bool := false
deriving DecidableEq

namespace Report

/-- A package is malicious if anything was found in it. -/
def isMalicious (r : Report) : Bool := !r.findings.isEmpty

/-- Each URL once. -/
def uniqueUrls (r : Report) : List Text := r.urls.map (·.1)

/-- Each URL with each file it stands in. -/
def urlOccurrences (r : Report) : List (Text × Text) :=
  r.urls.flatMap fun (url, paths) => paths.map (url, ·)

end Report

namespace FileResult

/-- The findings of a file, with its path attached. -/
def located (f : FileResult) : List Finding := f.findings.map fun x => { x with path := f.path }

/-- The URLs of a file, each with its path. -/
def occurrences (f : FileResult) : List (Text × Text) := f.urls.map (·, f.path)

end FileResult

namespace Report

/-- How often each label occurs. -/
def tally (findings : List Finding) : Table Text Int :=
  findings.foldl (fun table f => table.alter f.groupKey fun n => n.getD 0 + 1) []

/-- Add a path to the files of a URL, unless it is there. -/
def addPath (path : Text) (paths : Option (List Text)) : List Text :=
  let paths := paths.getD []
  if path ∈ paths then paths else paths ++ [path]

/-- The files of each URL. -/
def provenance (occurrences : List (Text × Text)) : Table Text (List Text) :=
  occurrences.foldl (fun table (url, path) => table.alter url (addPath path)) []

/-- The report of some files, none of them skipped. -/
def ofFiles (files : List FileResult) : Report :=
  let findings := files.flatMap FileResult.located
  { findings
    grouped := tally findings
    urls := provenance (files.flatMap FileResult.occurrences) }

end Report

end ExtensionAudit
