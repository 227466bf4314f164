import ExtensionAudit.Files.Access
import ExtensionAudit.Json.Writer
import ExtensionAudit.Package.Metadata
import ExtensionAudit.Report.Basic

/-!
# SARIF

The findings of all packages as a SARIF 2.1.0 document with one rule.

* `Sarif.level`, `Sarif.result`, `Sarif.document`, `Sarif.render`;
* `Sarif.saveWithin`, `Sarif.save`: a document written to a file.
-/

namespace ExtensionAudit.Sarif

/-- A string as a value. -/
def str (s : String) : Json := .string (text s)

/-- An object with one member, a message. -/
def message (t : Text) : Json := .object [(text "text", .string t)]

/-- The rule of the exec detector. -/
def ruleId : Text := text "potentially-dangerous-exec"

/-- The level of a finding by its kind. -/
def level (kind : Text) : Text := text (if kind = execKind then "warning" else "note")

/-- The description of the rule. -/
def rule : Json := .object [
  (text "id", .string ruleId),
  (text "name", str "PotentiallyDangerousExec"),
  (text "shortDescription", message (text "Detects exec() calls running denylisted commands")),
  (text "fullDescription", message (text ("This rule flags exec() invocations whose argument contains "
    ++ "a shell, network, process control or account management command name."))),
  (text "help", message (text ("Review the invocation and remove the extension if the command is "
    ++ "not expected."))),
  (text "defaultConfiguration", .object [(text "level", .string (level execKind))]),
  (text "properties", .object [
    (text "tags", .array [str "security", str "extensions"]),
    (text "precision", str "low")])]

/-- The result of a finding, with the package it belongs to. -/
def result (m : Metadata) (f : Finding) : Json := .object [
  (text "ruleId", .string ruleId),
  (text "level", .string (level f.kind)),
  (text "message", message (f.kind ++ text ": " ++ f.code)),
  (text "locations", .array [.object [(text "physicalLocation", .object [
    (text "artifactLocation", .object [(text "uri", .string f.path)]),
    (text "region", .object [
      (text "startLine", .integer f.line),
      (text "snippet", message f.code)])])]]),
  (text "properties", .object [
    (text "package", .string m.name),
    (text "version", .string m.version),
    (text "publisher", .string m.publisher)])]

/-- One result per finding, in package order and then in the order of the findings. -/
def results (packages : List (Metadata × Report)) : List Json :=
  packages.flatMap fun (m, r) => r.findings.map (result m)

/-- The document of some packages. -/
def document (packages : List (Metadata × Report)) : Json := .object [
  (text "$schema", str ("https://raw.githubusercontent.com/oasis-tcs/sarif-spec/master/Schemata/"
    ++ "sarif-schema-2.1.0.json")),
  (text "version", str "2.1.0"),
  (text "runs", .array [.object [
    (text "tool", .object [(text "driver", .object [
      (text "name", str "Extension-Auditor"),
      (text "version", str "1.0.0"),
      (text "rules", .array [rule])])]),
    (text "results", .array (results packages))]])]

/-- The text of the document. -/
def render (packages : List (Metadata × Report)) : Text := (document packages).pretty

/-- Write the document of some packages to a file, under a limit on the digits of integers. The file is opened
first, and what was written before a failure stays. -/
def saveWithin (limit : Option Nat) (fs : FileSystem) (cwd : Location) (path : Path)
    (packages : List (Metadata × Report)) : FileSystem × Except Failure Unit :=
  let (written, outcome) := (document packages).dump limit
  match fs.overwrite cwd path (Utf8.encodeAll written) with
  | (fs, .error e) => (fs, .error e)
  | (fs, .ok ()) => (fs, outcome)

/-- Write the document of some packages to a file. -/
def save (fs : FileSystem) (cwd : Location) (path : Path) (packages : List (Metadata × Report)) :
    FileSystem × Except Failure Unit :=
  saveWithin (some Json.maxIntegerDigits) fs cwd path packages

end ExtensionAudit.Sarif
