import ExtensionAudit.Files.Lookup

/-!
# Access to files and directories

* `FileSystem.openDirectory`, `FileSystem.list`: a directory to be listed, and the names in it;
* `FileSystem.read`: the bytes of a file;
* `FileSystem.makeDirectories`: a directory and what is missing above it;
* `FileSystem.openForWriting`, `FileSystem.overwrite`, `FileSystem.append`: writing a file.
-/

namespace ExtensionAudit.FileSystem

/-- The directory at the end of a path, if it can be listed. -/
def openDirectory (fs : FileSystem) (cwd : Location) (p : Path) : Except Failure Location :=
  match fs.locate cwd p with
  | .error e => .error e
  | .ok loc =>
    match fs.node? loc with
    | some (.directory .listing) => .ok loc
    | some (.directory _) => .error (.system .denied p)
    | _ => .error (.system .notDirectory p)

/-- The names in the directory at the end of a path, in order. -/
def list (fs : FileSystem) (cwd : Location) (p : Path) : Except Failure (List FileName) :=
  match fs.openDirectory cwd p with
  | .error e => .error e
  | .ok loc => .ok (fs.names loc)

/-- The bytes of the file at the end of a path. Nothing comes from a device, nor from a pipe: its other end is taken
to be closed, so that nobody waits for it. -/
def read (fs : FileSystem) (cwd : Location) (p : Path) : Except Failure Bytes :=
  match fs.stat cwd p with
  | .error e => .error e
  | .ok (.directory _) => .error (.system .isDirectory p)
  | .ok (.file false _) => .error (.system .denied p)
  | .ok (.file true content) => .ok content
  | .ok _ => .ok []

/-! ## Directories -/

def hasEntry (fs : FileSystem) (cwd : Location) (p : Path) : Bool := (fs.stat cwd p).toOption.isSome

def leadsToDirectory (fs : FileSystem) (cwd : Location) (p : Path) : Bool :=
  (fs.stat cwd p).toOption.any Node.isDirectory

/-- Make one directory; if one is there, all is well. -/
def makeDirectory (fs : FileSystem) (cwd : Location) (p : Path) : FileSystem × Except Failure Unit :=
  let refuse (e : Failure) : FileSystem × Except Failure Unit :=
    (fs, if e.isFileError && fs.leadsToDirectory cwd p then .ok () else .error e)
  match fs.resolve .name cwd p with
  | .error e => refuse e
  | .ok (.entry _) => refuse (.system .exists p)
  | .ok (.vacancy dir name) => (fs.create dir name (.directory .listing), .ok ())

/-- The path above the last name of a path, and that name; slashes at the end do not count. -/
def lastName (p : Path) : Path × Text :=
  if Path.base p = [] then (Path.parent (Path.parent p), Path.base (Path.parent p))
  else (Path.parent p, Path.base p)

theorem length_lastName_lt {p : Path} (h : (lastName p).2 ≠ []) : (lastName p).1.length < p.length := by
  unfold lastName at h ⊢
  split at h
  · next hb =>
    rw [if_pos hb]
    have h1 := Path.length_parent_lt h
    have h2 := Path.length_parent_le p
    have h3 := List.Sublist.length_le (List.dropWhile_sublist (· != slash) (l := p.reverse))
    rw [List.length_reverse] at h3
    show (Path.parent (Path.parent p)).length < p.length
    omega
  · next hb =>
    rw [if_neg hb]
    exact Path.length_parent_lt hb

/-- Make a directory and those above it that are missing. A path that ends in `.` is made with the path
above it. What was made before a failure stays. -/
def makeDirectories (fs : FileSystem) (cwd : Location) (p : Path) : FileSystem × Except Failure Unit :=
  let up := lastName p
  if _h : up.2 ≠ [] ∧ up.1 ≠ [] ∧ fs.hasEntry cwd up.1 = false then
    match makeDirectories fs cwd up.1 with
    | (fs, .error (.system .exists _)) => if up.2 = text "." then (fs, .ok ()) else fs.makeDirectory cwd p
    | (fs, .error e) => (fs, .error e)
    | (fs, .ok ()) => if up.2 = text "." then (fs, .ok ()) else fs.makeDirectory cwd p
  else fs.makeDirectory cwd p
termination_by p.length
decreasing_by exact length_lastName_lt _h.1

/-! ## Writing -/

/-- The location of a file to be written; it is made if it is missing. -/
def openForWriting (fs : FileSystem) (cwd : Location) (p : Path) : Except Failure (FileSystem × Location) :=
  match fs.resolve .write cwd p with
  | .error e => .error e
  | .ok (.vacancy dir name) => .ok (fs.create dir name (.file true []), dir ++ [name])
  | .ok (.entry loc) =>
    match fs.node? loc with
    | some (.directory _) => .error (.system .isDirectory p)
    | some (.file false _) => .error (.system .denied p)
    | _ => .ok (fs, loc)

def contentAt (fs : FileSystem) (loc : Location) : Bytes := ((fs.node? loc).bind Node.content?).getD []

def overwrite (fs : FileSystem) (cwd : Location) (p : Path) (bytes : Bytes) :
    FileSystem × Except Failure Unit :=
  match fs.openForWriting cwd p with
  | .error e => (fs, .error e)
  | .ok (fs, loc) => (fs.setContent loc bytes, .ok ())

/-- Write at the end of a file. The file is opened, and made if it is missing, before a text that cannot
be encoded is refused. -/
def append (fs : FileSystem) (cwd : Location) (p : Path) (t : Text) : FileSystem × Except Failure Unit :=
  match fs.openForWriting cwd p with
  | .error e => (fs, .error e)
  | .ok (fs, loc) =>
    match Utf8.encode t with
    | .error run => (fs, .error (.unencodable run))
    | .ok bytes => (fs.setContent loc (fs.contentAt loc ++ bytes), .ok ())

end ExtensionAudit.FileSystem
