import ExtensionAudit.Files.Path
import ExtensionAudit.Text.Quoted

/-!
# Options

* `Flag`: the options, each with its spellings; `Options`: what they set;
* `UsageError`: why arguments are refused; `UsageError.message`;
* `Request`: what the arguments ask for.
-/

namespace ExtensionAudit.CommandLine

/-- An option that takes a value. -/
inductive Parameter where
  | packagesDirectory
  | path
  | log
  | sarif
deriving DecidableEq

/-- An option. -/
inductive Flag where
  | help
  | parameter (p : Parameter)
  | verbose
deriving DecidableEq

namespace Flag

/-- All options in the order of the help. -/
def all : List Flag :=
  [help, parameter .packagesDirectory, parameter .path, parameter .log, parameter .sarif, verbose]

/-- The spellings of an option, the short one first. -/
def spellings : Flag → List Text
  | help => [text "-h", text "--help"]
  | parameter .packagesDirectory => [text "--extensions-dir"]
  | parameter .path => [text "--path"]
  | parameter .log => [text "--log"]
  | parameter .sarif => [text "--sarif"]
  | verbose => [text "--verbose"]

def label (f : Flag) : Text := (text "/").intercalate f.spellings

def table : List (Text × Flag) := all.flatMap fun f => f.spellings.map (·, f)

end Flag

/-- What the options set. -/
structure Options where
  packagesDirectory : Path
  path : Option Path := none
  log : Path
  sarif : Option Path := none
  verbose : Bool := false
deriving DecidableEq

def Options.set (o : Options) (value : Text) : Parameter → Options
  | .packagesDirectory => { o with packagesDirectory := value }
  | .path => { o with path := some value }
  | .log => { o with log := value }
  | .sarif => { o with sarif := some value }

/-- Why arguments are refused. -/
inductive UsageError where
  /-- The argument is the beginning of several spellings. -/
  | ambiguous (argument : Text) (spellings : List Text)
  /-- The option has no value. -/
  | missingValue (p : Parameter)
  /-- The option takes no value, and one is attached to it. -/
  | needlessValue (f : Flag) (value : Text)
  /-- Some arguments are neither options nor their values. -/
  | unrecognized (arguments : List Text)
deriving DecidableEq

def UsageError.message : UsageError → Text
  | .ambiguous argument spellings =>
    text "ambiguous option: " ++ argument ++ text " could match " ++ (text ", ").intercalate spellings
  | .missingValue p => text "argument " ++ (Flag.parameter p).label ++ text ": expected one argument"
  | .needlessValue f value =>
    text "argument " ++ f.label ++ text ": ignored explicit argument " ++ Text.quoted value
  | .unrecognized arguments =>
    text "unrecognized arguments: " ++ (text " ").intercalate arguments

/-- What the arguments ask for. -/
inductive Request where
  | help
  | run (o : Options)
deriving DecidableEq

end ExtensionAudit.CommandLine
