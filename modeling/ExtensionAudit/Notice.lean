import ExtensionAudit.Failure
import ExtensionAudit.Files.Walk

/-!
# Notices

What the program tells about its work is a list of notices.

* `Notice`: something worth telling; `Notice.level`, `Notice.channel`, `Notice.message`;
* `Visit.notice?`: what a walk tells about a visit.
-/

namespace ExtensionAudit

/-- How urgent a notice is. -/
inductive Level where
  | debug
  | info
  | warning
  | error
deriving DecidableEq

/-- The rank of a level; a more urgent one has a greater rank. -/
def Level.rank : Level → Nat
  | .debug => 0
  | .info => 1
  | .warning => 2
  | .error => 3

/-- The part of the work that a notice is about. -/
inductive Channel where
  | settings
  | walk
  | detection
  | scan
  | auditLog
  | packages
  | commandLine
deriving DecidableEq

/-- Something worth telling. -/
inductive Notice where
  /-- A setting is no integer, and the standard value is taken. -/
  | invalidSetting (name : Text) (standard : Int)
  /-- A walk came to a directory that it had entered before. -/
  | revisited (path : Path)
  /-- A walk came to an entry that is neither a directory nor a regular file. -/
  | nonRegular (path : Path)
  /-- A walk came to a directory that cannot be listed. -/
  | unlistable (path : Path) (failure : Failure)
  /-- A content was searched. -/
  | searched (findings urls : Nat)
  /-- The scan of a package starts. -/
  | scanning (name : Text)
  /-- A remote repository is fetched into a directory. -/
  | fetching (directory : Path)
  /-- The directory of a fetched repository was removed. -/
  | cleaned
  /-- A walk found so many files. -/
  | walked (files : Nat) (root : Path)
  /-- A file cannot be read and is skipped. -/
  | unreadable (path : Path) (failure : Failure)
  /-- The time for a package is over. -/
  | timeOver (limit : Int) (name : Text) (unread : Nat)
  /-- The scan of a package is over. -/
  | scanned (name : Text) (findings urls skipped : Nat)
  /-- The audit log was reset. -/
  | logReset (path : Path)
  /-- The block of a package was written. -/
  | logged (name : Text) (path : Path)
  /-- The manifest of a package cannot be read. -/
  | unreadableManifest (path : Path) (reason : Text)
  /-- The manifest of a package is no object. -/
  | shapelessManifest (path : Path)
  /-- An installed package is left out by its name. -/
  | excluded (name : Text)
  /-- So many installed packages were found. -/
  | discovered (packages : Nat) (directory : Path)
  /-- A package cannot be scanned and is left out. -/
  | packageFailed (name : Text) (failure : Failure)
  /-- All packages were treated. -/
  | analysisDone
  /-- The run failed. -/
  | runFailed (failure : Failure)

namespace Notice

/-- How urgent the notice is. -/
def level : Notice → Level
  | .revisited _ | .nonRegular _ | .searched _ _ | .walked _ _ | .logged _ _ | .excluded _ => .debug
  | .scanning _ | .fetching _ | .cleaned | .scanned _ _ _ _ | .logReset _ | .discovered _ _
  | .analysisDone => .info
  | .invalidSetting _ _ | .unlistable _ _ | .unreadable _ _ | .timeOver _ _ _ | .unreadableManifest _ _
  | .shapelessManifest _ => .warning
  | .packageFailed _ _ | .runFailed _ => .error

/-- The part of the work that the notice is about. -/
def channel : Notice → Channel
  | .invalidSetting _ _ => .settings
  | .revisited _ | .nonRegular _ | .unlistable _ _ => .walk
  | .searched _ _ => .detection
  | .scanning _ | .fetching _ | .cleaned | .walked _ _ | .unreadable _ _ | .timeOver _ _ _
  | .scanned _ _ _ _ => .scan
  | .logReset _ | .logged _ _ => .auditLog
  | .unreadableManifest _ _ | .shapelessManifest _ | .excluded _ | .discovered _ _ | .packageFailed _ _
  | .analysisDone => .packages
  | .runFailed _ => .commandLine

/-- The wording of the notice. -/
def message : Notice → Text
  | .invalidSetting name standard =>
    text "Invalid " ++ name ++ text " env var, using default " ++ Text.ofInt standard
  | .revisited path => text "Skipping already visited directory: " ++ path
  | .nonRegular path => text "Skipping non-regular entry: " ++ path
  | .unlistable path failure => text "Could not read directory: " ++ path ++ text ": " ++ failure.message
  | .searched findings urls =>
    text "Line scan: " ++ Text.ofNat findings ++ text " findings, " ++ Text.ofNat urls ++ text " urls"
  | .scanning name => text "Analyzing extension: " ++ name
  | .fetching directory => text "Cloning repository to " ++ directory ++ text "..."
  | .cleaned => text "Cleaned up temp. files"
  | .walked files root => text "Found " ++ Text.ofNat files ++ text " files under " ++ root
  | .unreadable path failure => text "Could not read file: " ++ path ++ text ": " ++ failure.message
  | .timeOver limit name unread =>
    text "Scan time limit of " ++ Text.ofInt limit ++ text "s reached for " ++ name ++ text ", "
      ++ Text.ofNat unread ++ text " files not scanned"
  | .scanned name findings urls skipped =>
    name ++ text ": " ++ Text.ofNat findings ++ text " findings, " ++ Text.ofNat urls
      ++ text " unique urls, " ++ Text.ofNat skipped ++ text " skipped"
  | .logReset path => text "Initialized analysis log at " ++ path
  | .logged name path => text "Logged analysis for " ++ name ++ text " to " ++ path
  | .unreadableManifest path reason => text "Could not read manifest " ++ path ++ text ": " ++ reason
  | .shapelessManifest path => text "Unexpected manifest format in " ++ path
  | .excluded name => text "Skipping excluded extension: " ++ name
  | .discovered packages directory =>
    text "Discovered " ++ Text.ofNat packages ++ text " extensions in " ++ directory
  | .packageFailed name failure =>
    text "Could not analyze extension " ++ name ++ text ": " ++ failure.message
  | .analysisDone => text "Extensions analysis completed. Check the log file for details."
  | .runFailed failure => text "Analysis failed: " ++ failure.message

end Notice

/-- What a walk tells about a visit. -/
def Visit.notice? : Visit → Option Notice
  | .revisited p => some (.revisited p)
  | .refused p _ => some (.unlistable p (.system .denied p))
  | .unreached p e => some (.unlistable p e)
  | .special p => some (.nonRegular p)
  | .entered _ _ | .file _ | .tooDeep _ => none

end ExtensionAudit
