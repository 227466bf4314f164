import ExtensionAudit.AuditLog
import ExtensionAudit.Scanner.Scan

/-!
# Analysis

* `Scanner.scanAndRecord`: scan a package and write its block;
* `Analysis`: the results of some packages, the warnings, and the failure that ended the work early;
* `Package.scan`: the scan of one package;
* `analyzePackage`: the work on one package; `analyze`: the work on packages one after the other.
-/

namespace ExtensionAudit

/-- Scan a package, write its block and tell whether anything was found. -/
def Scanner.scanAndRecord (s : Scanner) (w : World) (log : Path) : Scanner × World × Except Failure Bool :=
  match s.scan w with
  | (s, w, .error e) => (s, w, .error e)
  | (s, w, .ok r) =>
    match AuditLog.record w log s.metadata r with
    | (w, .error e) => (s, w, .error e)
    | (w, .ok _) => (s, w, .ok r.isMalicious)

/-- The packages that were scanned, each with its report, the warnings that went out, and the failure that
ended the work early. -/
structure Analysis where
  results : List (Package × Report) := []
  /-- The names that were warned of. -/
  warned : List Text := []
  failure : Option Failure := none

namespace Analysis

def malicious (a : Analysis) : List (Package × Report) := a.results.filter fun x => x.2.isMalicious

/-- The analysis with one more result in front. If the package is malicious, a warning goes out. -/
def cons (p : Package) (r : Report) (a : Analysis) : Analysis :=
  { a with
    results := (p, r) :: a.results
    warned := if r.isMalicious then p.metadata.name :: a.warned else a.warned }

end Analysis

def Package.scan (p : Package) (w : World) : World × Except Failure Report :=
  let (s, w) := Scanner.prepare w p.path (some p.metadata) Denylist.standard
  let (_, w, result) := s.scan w
  (w, result)

/-- Scan a package and write its block. A package that cannot be scanned because of a file is left out; any
other failure is one of the analysis, and so is one of the log. -/
def analyzePackage (log : Path) (p : Package) (w : World) : World × Except Failure (Option Report) :=
  match p.scan w with
  | (w, .error e) =>
    if e.isFileError then (w.note (.packageFailed p.metadata.name e), .ok none) else (w, .error e)
  | (w, .ok r) =>
    match AuditLog.record w log p.metadata r with
    | (w, .error e) => (w, .error e)
    | (w, .ok _) => (w, .ok (some r))

/-- Scan packages in order and write a block for each, up to the first failure. -/
def analyze (log : Path) : List Package → World → World × Analysis
  | [], w => (w.note .analysisDone, {})
  | p :: rest, w =>
    match analyzePackage log p w with
    | (w, .error e) => (w, { failure := some e })
    | (w, .ok none) => analyze log rest w
    | (w, .ok (some r)) =>
      let (w, a) := analyze log rest w
      (w, a.cons p r)

end ExtensionAudit
