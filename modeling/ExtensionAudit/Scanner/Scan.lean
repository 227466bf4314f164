import ExtensionAudit.Scanner.Remote

/-!
# Scanning a package

* `Scanner.report`: the report of a walk and of the files in it;
* `Scanner.scanDirectory`: the scan of a directory;
* `Scanner.scan`: the scan of a package, be it local or remote.
-/

namespace ExtensionAudit.Scanner

/-- The report of a walk and of the files in it. -/
def report (visits : List Visit) (x : Examination) : Report :=
  { Report.ofFiles x.results with
    skipped := Visit.refusedPaths visits ++ x.skipped
    truncated := x.truncated }

/-- The end of a scan: what is told about its report. -/
def closing (s : Scanner) (r : Report) : Notice :=
  .scanned s.metadata.name r.findings.length r.urls.length r.skipped.length

/-- Walk a directory, then read the files. Nothing is read if there is no telling when the time will be over. -/
def scanDirectory (s : Scanner) (w : World) (root : Path) : Scanner × World × Except Failure Report :=
  let walking := (w.files.walked w.levels w.cwd root).filterMap Visit.notice?
  match w.files.walk w.levels w.cwd root with
  | .error e => (s, w.noteAll walking, .error e)
  | .ok visits =>
    let files := Visit.files visits
    if Clock.isBeyond w.horizon s.timeLimit then
      (s, w.noteAll (walking ++ [Notice.walked files.length root]), .error .limitTooGreat)
    else
      let (x, clock) := s.examine w.files w.cwd w.clock files
      let r := report visits x
      ({ s with scanned := s.scanned + x.results.length, skipped := s.skipped + x.skipped.length },
        { w with clock }.noteAll
          (walking ++ [Notice.walked files.length root] ++ x.notices s ++ [s.closing r]),
        .ok r)

/-- Scan the directory of a package, which is fetched first if the package is remote. -/
def scanRoot (s : Scanner) (w : World) : Scanner × World × Except Failure Report :=
  if Package.isRemote s.root then
    match s.fetch w s.root with
    | (s, w, .error e) => (s, w, .error e)
    | (s, w, .ok root) => s.scanDirectory w root
  else s.scanDirectory w s.root

/-- Scan a package. Whether that succeeds or fails, a fetched repository is removed at the end. -/
def scan (s : Scanner) (w : World) : Scanner × World × Except Failure Report :=
  let (s, w, result) := s.scanRoot (w.note (.scanning s.metadata.name))
  let (s, w) := s.cleanUp w
  (s, w, result)

end ExtensionAudit.Scanner
