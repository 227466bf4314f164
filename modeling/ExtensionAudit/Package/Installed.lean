import ExtensionAudit.Package.Manifest

/-!
# Installed packages

* `Package`: a directory or remote address with its labels;
* `Package.subdirectories`: the names of the directories in a directory;
* `Package.discover`: the packages in a directory, less those that are left out by name;
* `Package.isRemote`, `Package.repositoryName`, `Package.targets`: the packages that a run is about.
-/

namespace ExtensionAudit

/-- A package: where it is and what its labels are. -/
structure Package where
  path : Path
  metadata : Metadata
deriving DecidableEq

namespace Package

/-! ## Discovery -/

/-- Is the entry of a listed directory that has the path `p` a directory, links followed? A link that leads to
nothing is none. -/
def isDirectoryEntry (fs : FileSystem) (cwd entry : Location) (p : Path) : Except Failure Bool :=
  match fs.examineEntry cwd entry p with
  | .ok node => .ok node.isDirectory
  | .error (.system .noEntry _) => .ok false
  | .error e => .error e

/-- The names of the directories in a directory. They are told apart from the other entries as they are listed, and
put in order then. -/
def subdirectories (fs : FileSystem) (cwd : Location) (directory : Path) : Except Failure (List FileName) :=
  match fs.openDirectory cwd directory with
  | .error e => .error e
  | .ok dir =>
    match (fs.listing dir).filterM fun n => isDirectoryEntry fs cwd (dir ++ [n]) (Path.join directory n.text) with
    | .error e => .error e
    | .ok names => .ok (names.mergeSort FileName.le)

/-- The name of the program itself, which is not examined. -/
def reservedName : Text := text "extension-auditor"

/-- A directory as a package, unless its name is excluded, and what is told about it. -/
def consider (fs : FileSystem) (cwd : Location) (excluded : List Text) (path : Path) :
    Option Package × List Notice :=
  let (metadata, notices) := Manifest.load fs cwd path
  if metadata.name ∈ excluded then (none, notices ++ [.excluded metadata.name])
  else (some ⟨path, metadata⟩, notices)

/-- The packages in a directory, in the order of the names of their directories, and what is told about
them. -/
def discover (fs : FileSystem) (cwd : Location) (excluded : List Text) (directory : Path) :
    Except Failure (List Package × List Notice) :=
  match subdirectories fs cwd directory with
  | .error e => .error e
  | .ok names =>
    let considered := names.map fun n => consider fs cwd excluded (Path.join directory n.text)
    let packages := considered.filterMap (·.1)
    .ok (packages, considered.flatMap (·.2) ++ [.discovered packages.length directory])

/-! ## Targets -/

/-- What the address of a remote repository begins with. -/
def remoteSchemes : List Text := [text "http://", text "https://", text "git@", text "ssh://"]

/-- Is the path the address of a remote repository? -/
def isRemote (p : Path) : Bool := remoteSchemes.any p.startsWith

/-- What the name of a repository may end with. -/
def repositorySuffix : Text := text ".git"

/-- The name of a remote repository: the last component of its address, without the suffix. -/
def repositoryName (address : Text) : Text :=
  let last := Path.base (Text.dropTrailing address '/')
  if last.endsWith repositorySuffix then last.dropLast.dropLast.dropLast.dropLast else last

/-- The packages that a run is about: the one at a path if a path is given, and else those installed in a
directory. -/
def targets (fs : FileSystem) (cwd : Location) (path : Option Path) (directory : Path) :
    Except Failure (List Package × List Notice) :=
  match path with
  | some (c :: rest) =>
    let p := c :: rest
    if isRemote p then .ok ([⟨p, { name := repositoryName p }⟩], [])
    else
      let (metadata, notices) := Manifest.load fs cwd p
      .ok ([⟨p, metadata⟩], notices)
  | _ => discover fs cwd [reservedName] directory

end Package

end ExtensionAudit
