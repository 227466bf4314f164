import ExtensionAudit.Scanner.Basic

/-!
# Remote repositories

A remote repository is fetched into a new directory, which is removed after the scan.

* `Scanner.fetch`: fetch a repository; `Scanner.cleanUp`: remove what was fetched.
-/

namespace ExtensionAudit.Scanner

/-- The name of the directory for the `n`-th fetch. -/
def temporaryName? (n : Nat) : Option FileName := FileName.ofText? (text "CLONE" ++ Text.ofNat n)

/-- A name for the directory of the next fetch that no entry of the root has. -/
def freshName? (w : World) : Option FileName :=
  ((List.range' (w.fetched.length + 1) (w.files.entries.length + 1)).filterMap temporaryName?).find?
    fun name => (w.files.node? [name]).isNone

/-- Remove the directory of a fetched repository. -/
def removeTemporary (s : Scanner) (w : World) : Scanner × World :=
  match s.temporary with
  | none => (s, w)
  | some loc => ({ s with temporary := none }, { w with files := w.files.remove loc })

/-- Remove the directory of a fetched repository and tell so, if there is one. -/
def cleanUp (s : Scanner) (w : World) : Scanner × World :=
  match s.temporary with
  | none => (s, w)
  | some _ =>
    let (s, w) := s.removeTemporary w
    (s, w.note .cleaned)

/-- Fetch the repository at an address into a new directory of the root. If that fails, the directory is
removed. -/
def fetch (s : Scanner) (w : World) (address : Text) : Scanner × World × Except Failure Path :=
  match freshName? w with
  | none => (s, w, .error (.system .exists (Path.ofLocation [])))
  | some name =>
    let loc := [name]
    let s := { s with temporary := some loc }
    let w := { w with files := w.files.create [] name (.directory .listing) }.note (.fetching (Path.ofLocation loc))
    let (depth, notices) := Settings.fetchDepth.read w.environment
    let checkout := w.remote w.fetched.length
    let w := { w.noteAll notices with
      files := w.files.plantAll loc checkout.plantings
      fetched := w.fetched ++ [(address, depth)] }
    match checkout.failure with
    | none => (s, w, .ok (Path.ofLocation loc))
    | some reason =>
      let (s, w) := s.removeTemporary w
      (s, w, .error (.checkout reason))

end ExtensionAudit.Scanner
