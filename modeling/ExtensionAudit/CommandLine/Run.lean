import ExtensionAudit.Analysis
import ExtensionAudit.CommandLine.Arguments
import ExtensionAudit.CommandLine.Usage
import ExtensionAudit.Report.Sarif

/-!
# Running the program

* `Outcome`: what a run prints and how it ends; `Outcome.shows`: which notices are shown;
* `CommandLine.warning`, `CommandLine.summary`: what is printed about an analysis;
* `CommandLine.audit`: a run with given options; `CommandLine.run`: a run with given arguments.
-/

namespace ExtensionAudit.CommandLine

/-- What a run prints and how it ends. The notices that are shown go to the standard output too, between the
lines that are printed. -/
structure Outcome where
  /-- The exit code. -/
  code : Nat
  /-- What is printed, one item for each time. -/
  printed : List Text := []
  complaints : Text := []
  /-- The least urgent notices that are shown. -/
  threshold : Level := .info

def Outcome.shows (o : Outcome) (n : Notice) : Bool := o.threshold.rank ≤ n.level.rank

/-- The options that hold without arguments. -/
def standardOptions (env : Settings.Environment) : Options :=
  { packagesDirectory := Settings.packagesDirectory env, log := Settings.logPath env }

def warning (name : Text) : Text := text "Possible malicious code found in extension: " ++ name ++ text "\n"

def warnings (a : Analysis) : List Text := a.warned.map warning

def flaggedLine (name : Text) : Text := text "  - " ++ name ++ text "\n"

def summary (a : Analysis) (log : Path) : List Text :=
  [text "Analysis completed\n",
    text "Extensions scanned: " ++ Text.ofNat a.results.length ++ text "\n",
    text "Extensions flagged: " ++ Text.ofNat a.malicious.length ++ text "\n"]
    ++ a.malicious.map (fun x => flaggedLine x.1.metadata.name)
    ++ [text "Detailed log saved to: " ++ log ++ text "\n"]

/-- Write the SARIF document of some results and say where, if that is asked for. -/
def exportSarif (w : World) (results : List (Package × Report)) :
    Option Path → World × Except Failure (List Text)
  | none | some [] => (w, .ok [])
  | some (c :: rest) =>
    let path := c :: rest
    match Sarif.save w.files w.cwd path (results.map fun x => (x.1.metadata, x.2)) with
    | (files, .error e) => ({ w with files }, .error e)
    | (files, .ok ()) => ({ w with files }, .ok [text "SARIF exported: " ++ path ++ text "\n"])

/-- What is printed by a run with given options, and the failure that ended it. -/
def audit (o : Options) (w : World) : World × List Text × Option Failure :=
  match AuditLog.reset w o.log with
  | (w, .error e) => (w, [], some e)
  | (w, .ok ()) =>
    match Package.targets w.files w.cwd o.path o.packagesDirectory with
    | .error e => (w, [], some e)
    | .ok (packages, notices) =>
      let (w, a) := analyze o.log packages (w.noteAll notices)
      match a.failure with
      | some e => (w, warnings a, some e)
      | none =>
        let printed := warnings a ++ summary a o.log
        match exportSarif w a.results o.sarif with
        | (w, .error e) => (w, printed, some e)
        | (w, .ok lines) => (w, printed ++ lines, none)

/-- Run the program with given arguments. -/
def run (arguments : List Text) (w : World) : World × Outcome :=
  match Request.ofArguments (standardOptions w.environment) arguments with
  | .error e => (w, { code := 2, complaints := complaint e.message })
  | .ok .help => (w, { code := 0, printed := [help] })
  | .ok (.run o) =>
    let threshold := if o.verbose then .debug else .info
    match audit o w with
    | (w, printed, none) => (w, { code := 0, printed, threshold })
    | (w, printed, some e) => (w.note (.runFailed e), { code := 1, printed, threshold })

end ExtensionAudit.CommandLine
