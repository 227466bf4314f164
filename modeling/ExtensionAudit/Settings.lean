import ExtensionAudit.Notice
import ExtensionAudit.Text.Integer

/-!
# Settings

Settings are environment variables.

* `Settings.Numeric.read`: a setting that is an integer, with the standard value for anything else;
* `Settings.maxFileSize`, `Settings.timeLimit`, `Settings.fetchDepth`;
* `Settings.expandHome`: a path that may start at the home directory;
* `Settings.logPath`, `Settings.packagesDirectory`.
-/

namespace ExtensionAudit.Settings

/-- The environment: values by name. -/
abbrev Environment := Table Text Text

/-- A setting that is an integer. -/
structure Numeric where
  name : Text
  standard : Int

/-- The greatest size in bytes of a file that is read. -/
def maxFileSize : Numeric := ⟨text "MAX_FILE_SIZE", 5242880⟩

/-- The number of seconds for one package. -/
def timeLimit : Numeric := ⟨text "SCAN_TIME_LIMIT", 120⟩

/-- The number of revisions that are fetched of a remote repository. -/
def fetchDepth : Numeric := ⟨text "CLONE_DEPTH", 1⟩

/-- The value of a setting: the standard one if it is not set, and with a notice if it is no integer. -/
def Numeric.read (s : Numeric) (env : Environment) : Int × List Notice :=
  match env.get? s.name with
  | none => (s.standard, [])
  | some value =>
    match Text.integer? value with
    | some n => (n, [])
    | none => (s.standard, [.invalidSetting s.name s.standard])

/-! ## Paths -/

/-- A path that starts with a tilde component starts at the home directory. That directory is known by its variable
alone: without the variable, and for the home of somebody else, the path stays as it is. -/
def expandHome (env : Environment) (p : Path) : Path :=
  match p, env.get? (text "HOME") with
  | c :: rest, some home =>
    if c = CodePoint.ofChar '~' ∧ (rest = [] ∨ rest.head? = some slash) then
      let expanded := Text.dropTrailing home '/' ++ rest
      if expanded = [] then [slash] else expanded
    else p
  | _, _ => p

/-- The path in a variable, or a path below the home directory if the variable is not set or empty. -/
def pathOr (env : Environment) (name below : Text) : Path :=
  match env.get? name with
  | some (c :: rest) => expandHome env (c :: rest)
  | _ => Path.join (expandHome env (text "~")) below

def logPath (env : Environment) : Path :=
  pathOr env (text "AUDIT_LOG_FILE") (text "Documents/ExtensionAuditor/analysis.log")

def packagesDirectory (env : Environment) : Path :=
  pathOr env (text "EXTENSIONS_DIR") (text ".vscode/extensions")

end ExtensionAudit.Settings
