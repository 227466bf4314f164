import ExtensionAudit.Files.Access
import ExtensionAudit.Files.RealPath

/-!
# Walking a directory

A walk visits the entries below a root in name order. Links to directories are followed, and a directory is entered
once for each real path, however many paths lead to it. Each directory in a directory takes a call of its own, and
there may be no more calls in each other than the interpreter allows.

* `Visit`: what happens at one path; `Pending`: an entry that is still to be visited;
* `FileSystem.visits`: the walk from some pending entries on; `FileSystem.visitsOf`: that of a root;
* `FileSystem.walk`: the walk of a root that can be listed;
* `Visit.files`, `Visit.failures`: what a walk is done for;
* `Visit.untilFailure`, `Visit.untilTooDeep`: the part of a walk that a failure does not cut off;
* `FileSystem.walkFiles`: the files below a root, with failures reported or not.
-/

namespace ExtensionAudit

/-- What a walk does at a path. -/
inductive Visit where
  /-- A directory is entered and its entries come next. -/
  | entered (path : Path) (loc : Location)
  /-- The path leads to a directory with a real path that was met before. -/
  | revisited (path : Path)
  /-- The path leads to a directory that refuses to be listed. -/
  | refused (path : Path) (loc : Location)
  /-- The path is that of a directory, but cannot be looked up: it is too long. -/
  | unreached (path : Path) (failure : Failure)
  /-- The path leads to a regular file. -/
  | file (path : Path)
  /-- The path leads to a pipe, a device, or nowhere. -/
  | special (path : Path)
  /-- The path leads to a directory that lies too deep to be walked. -/
  | tooDeep (path : Path)
deriving DecidableEq

namespace Visit

/-- The paths of the regular files, in order. -/
def files (visits : List Visit) : List Path :=
  visits.filterMap fun
    | .file p => some p
    | _ => none

/-- The failure of a visit: why a directory is not listed. -/
def failure? : Visit → Option Failure
  | .refused p _ => some (.system .denied p)
  | .unreached _ e => some e
  | _ => none

/-- The failures at directories that are not listed, in order. -/
def failures (visits : List Visit) : List Failure := visits.filterMap failure?

/-- The paths of the directories that are not listed, in order. -/
def refusedPaths (visits : List Visit) : List Path :=
  visits.filterMap fun
    | .refused p _ => some p
    | .unreached p _ => some p
    | _ => none

def isTooDeep : Visit → Bool
  | .tooDeep _ => true
  | _ => false

/-- The failure with which a visit ends a walk that reports no failures. -/
def ending? (v : Visit) : Option Failure := if v.isTooDeep then some .tooDeep else v.failure?

/-- The visits before the first failure, and that failure. -/
def untilFailure (visits : List Visit) : List Visit × Option Failure :=
  (visits.takeWhile fun v => v.ending?.isNone, visits.findSome? ending?)

/-- The visits before a directory that lies too deep. -/
def untilTooDeep (visits : List Visit) : List Visit := visits.takeWhile fun v => !v.isTooDeep

end Visit

/-- An entry that a walk is still to visit. -/
structure Pending where
  path : Path
  /-- Where the entry itself lies, which may be a link. -/
  entry : Location
  /-- How many calls are left for the directories from here on. -/
  levels : Nat

namespace FileSystem

/-- How many visits there can be from an entry on, with so many calls left: each directory has no more entries than
there are entries at all. -/
def room (fs : FileSystem) : Nat → Nat
  | 0 => 1
  | levels + 1 => (fs.entries.length + 1) * fs.room levels

theorem room_pos (fs : FileSystem) : ∀ levels, 0 < fs.room levels
  | 0 => Nat.one_pos
  | levels + 1 => Nat.mul_pos (Nat.succ_pos _) (fs.room_pos levels)

/-- The weight of pending entries: as many as there could be visits. -/
def weight (fs : FileSystem) : List Pending → Nat
  | [] => 0
  | e :: pending => fs.room e.levels + fs.weight pending

theorem weight_lt_cons (fs : FileSystem) (e : Pending) (pending : List Pending) :
    fs.weight pending < fs.weight (e :: pending) :=
  Nat.lt_add_of_pos_left (fs.room_pos e.levels)

theorem length_names_le (fs : FileSystem) (dir : Location) : (fs.names dir).length ≤ fs.entries.length := by
  rw [names, List.length_mergeSort, listing]
  exact Nat.le_trans (List.length_filterMap_le _ _) (Nat.le_of_eq (List.length_map _))

/-- The entries of a directory that is entered at a path. -/
def pendingIn (fs : FileSystem) (p : Path) (dir : Location) (levels : Nat) : List Pending :=
  (fs.names dir).map fun n => ⟨Path.join p n.text, dir ++ [n], levels⟩

theorem weight_map_append (fs : FileSystem) (p : Path) (dir : Location) (levels : Nat) (pending : List Pending)
    (names : List FileName) :
    fs.weight (names.map (fun n => ⟨Path.join p n.text, dir ++ [n], levels⟩) ++ pending) =
      names.length * fs.room levels + fs.weight pending := by
  induction names with
  | nil => rw [List.map_nil, List.nil_append, List.length_nil, Nat.zero_mul, Nat.zero_add]
  | cons n names ih =>
    rw [List.map_cons, List.cons_append, weight, ih, List.length_cons, Nat.succ_mul, Nat.add_comm (_ * _) (fs.room _),
      Nat.add_assoc]

theorem weight_pendingIn_lt (fs : FileSystem) (p : Path) (dir : Location) (levels : Nat) (e : Pending)
    (pending : List Pending) (h : e.levels = levels + 1) :
    fs.weight (fs.pendingIn p dir levels ++ pending) < fs.weight (e :: pending) := by
  rw [pendingIn, weight_map_append, weight, h, room]
  exact Nat.add_lt_add_right
    (Nat.mul_lt_mul_of_pos_right (Nat.lt_succ_of_le (fs.length_names_le dir)) (fs.room_pos levels)) _

/-- The walk of some pending entries, given the real paths of the directories met so far. The entries of a directory
come before those that were pending. -/
def visits (fs : FileSystem) (cwd : Location) (visited : List Path) : List Pending → List Visit
  | [] => []
  | e :: pending =>
    match fs.examineEntry cwd e.entry e.path with
    | .ok (.directory _) =>
      match _h : e.levels with
      | 0 => .tooDeep e.path :: visits fs cwd visited pending
      | levels + 1 =>
        let key := fs.realPath e.path
        if key ∈ visited then .revisited e.path :: visits fs cwd visited pending
        else match fs.locate cwd e.path with
          | .error failure => .unreached e.path failure :: visits fs cwd (key :: visited) pending
          | .ok loc =>
            if fs.node? loc matches some (.directory .listing) then
              .entered e.path loc :: visits fs cwd (key :: visited) (fs.pendingIn e.path loc levels ++ pending)
            else .refused e.path loc :: visits fs cwd (key :: visited) pending
    | .ok (.file _ _) => .file e.path :: visits fs cwd visited pending
    | _ => .special e.path :: visits fs cwd visited pending
termination_by pending => fs.weight pending
decreasing_by
  all_goals first
    | exact weight_lt_cons fs e pending
    | exact weight_pendingIn_lt fs _ _ _ e pending _h

/-- The root of a walk, if its path leads somewhere. -/
def outset (fs : FileSystem) (levels : Nat) (cwd : Location) (root : Path) : List Pending :=
  match fs.locate cwd root with
  | .error _ => []
  | .ok top => [⟨root, top, levels + 1⟩]

/-- The visits of a root, with `levels` levels of directories below it. -/
def visitsOf (fs : FileSystem) (levels : Nat) (cwd : Location) (root : Path) : List Visit :=
  fs.visits cwd [] (fs.outset levels cwd (Path.absolute cwd root))

/-- The walk of a root. It fails if the root cannot be listed or a directory lies too deep, whatever happens at those
below the root that cannot be listed. -/
def walk (fs : FileSystem) (levels : Nat) (cwd : Location) (root : Path) : Except Failure (List Visit) :=
  match fs.list cwd (Path.absolute cwd root) with
  | .error e => .error e
  | .ok _ =>
    let visits := fs.visitsOf levels cwd root
    if visits.any Visit.isTooDeep then .error .tooDeep else .ok visits

/-- What a walk of a root visits before it fails, if it does. -/
def walked (fs : FileSystem) (levels : Nat) (cwd : Location) (root : Path) : List Visit :=
  match fs.list cwd (Path.absolute cwd root) with
  | .error _ => []
  | .ok _ => Visit.untilTooDeep (fs.visitsOf levels cwd root)

/-- The files below a root, and the failures that were reported on the way. If failures are not reported, the first
one ends the walk. A failure at the root always ends it, and is not reported; and so does a directory that lies too
deep. -/
def walkFiles (fs : FileSystem) (levels : Nat) (cwd : Location) (root : Path) (reporting : Bool) :
    List Failure × Except Failure (List Path) :=
  if reporting then
    (Visit.failures (fs.walked levels cwd root), (fs.walk levels cwd root).map Visit.files)
  else
    match fs.list cwd (Path.absolute cwd root) with
    | .error e => ([], .error e)
    | .ok _ =>
      match Visit.untilFailure (fs.visitsOf levels cwd root) with
      | (visits, none) => ([], .ok (Visit.files visits))
      | (_, some e) => ([], .error e)

end FileSystem

end ExtensionAudit
