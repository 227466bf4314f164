import ExtensionAudit.Failure
import ExtensionAudit.Files.System

/-!
# Looking up a path

A path is followed name by name from the root or the current directory, through directories that let it through. A
link on the way is replaced by its target; at most forty links are followed. Names and paths have a greatest length.
It is assumed that every path can be encoded, and that a directory lets paths through if it can be listed.

* `Route`: what a path asks for;
* `Purpose`: what the last name is wanted for; `Place`: where a path leads;
* `FileSystem.resolve`, `FileSystem.locate`: the place of a path, and the location of what is there;
* `FileSystem.stat`, `FileSystem.examineEntry`: what is there.
-/

namespace ExtensionAudit

/-- One step of a path. -/
inductive Step where
  | stay
  | up
  | down (name : Text)
deriving DecidableEq

/-- What a path asks for: where to start, the steps, and whether the last one must reach a directory. -/
structure Route where
  absolute : Bool
  steps : List Step
  slashed : Bool

/-- The step of a component. An empty component is none. -/
def Step.ofComponent? (c : Text) : Option Step :=
  if c = [] then none
  else if c = text "." then some .stay
  else if c = text ".." then some .up
  else some (.down c)

/-- The route of a path. -/
def Route.ofPath (p : Path) : Route :=
  ⟨Path.isAbsolute p, (Path.components p).filterMap Step.ofComponent?, p.getLast? == some slash⟩

/-- What the entry at the end of a path is wanted for. -/
inductive Purpose where
  /-- The entry is to be there, and a link is followed. -/
  | examine
  /-- A file is to be there or to be made, and a link is followed. -/
  | write
  /-- The name itself is wanted: a link is not followed. -/
  | name
deriving DecidableEq

/-- Where a path leads: to an entry, or to a name that its directory does not have. -/
inductive Place where
  | entry (loc : Location)
  | vacancy (dir : Location) (name : FileName)
deriving DecidableEq

namespace FileSystem

/-- The number of links that one lookup may follow. -/
def maxLinks : Nat := 40

/-- Why no directory has an entry of this name: it is too long, or not a name at all. -/
def nameError (t : Text) : SystemError :=
  if maxNameBytes < Utf8.size t then .nameTooLong else .noEntry

/-- Follow steps from a location. `jump` goes on from a location with the steps of a link's target and
those that were left, and is told whether a directory is asked for. -/
def follow (fs : FileSystem) (purpose : Purpose)
    (jump : Location → List Step → Bool → Except SystemError Place) :
    Location → List Step → Bool → Except SystemError Place
  | loc, [], slashed =>
    if slashed && !fs.isDirectory loc then .error .notDirectory else .ok (.entry loc)
  | loc, step :: rest, slashed =>
    if !fs.isPassable loc then .error (if fs.isDirectory loc then .denied else .notDirectory)
    else match step with
      | .stay => follow fs purpose jump loc rest slashed
      | .up => follow fs purpose jump loc.dropLast rest slashed
      | .down t =>
        if purpose = .write ∧ rest = [] ∧ slashed then .error .isDirectory
        else match FileName.ofText? t with
          | none => .error (nameError t)
          | some name =>
            match fs.node? (loc ++ [name]) with
            | none => if rest = [] then .ok (.vacancy loc name) else .error .noEntry
            | some (.link target) =>
              if purpose = .name ∧ rest = [] then .ok (.entry (loc ++ [name]))
              else if target = [] then .error .noEntry
              else
                let route := Route.ofPath target
                jump (if route.absolute then [] else loc) (route.steps ++ rest)
                  (if rest = [] then slashed || route.slashed else slashed)
            | some _ => follow fs purpose jump (loc ++ [name]) rest slashed

/-- Follow steps from a location through at most `links` links. -/
def followLinks (fs : FileSystem) (purpose : Purpose) :
    Nat → Location → List Step → Bool → Except SystemError Place
  | 0 => follow fs purpose fun _ _ _ => .error .tooManyLinks
  | links + 1 => follow fs purpose (followLinks fs purpose links)

/-- The place of a path seen from `cwd`. -/
def resolve (fs : FileSystem) (purpose : Purpose) (cwd : Location) (p : Path) : Except Failure Place :=
  if nul ∈ p then .error .nulInPath
  else if p = [] then .error (.system .noEntry p)
  else if maxPathBytes ≤ Utf8.size p then .error (.system .nameTooLong p)
  else
    let route := Route.ofPath p
    match fs.followLinks purpose maxLinks (if route.absolute then [] else cwd) route.steps route.slashed with
    | .ok place => .ok place
    | .error e => .error (.system e p)

/-- The location of the entry at the end of a path, links followed. -/
def locate (fs : FileSystem) (cwd : Location) (p : Path) : Except Failure Location :=
  match fs.resolve .examine cwd p with
  | .ok (.entry loc) => .ok loc
  | .ok (.vacancy _ _) => .error (.system .noEntry p)
  | .error e => .error e

/-- The entry at the end of a path, links followed. -/
def stat (fs : FileSystem) (cwd : Location) (p : Path) : Except Failure Node :=
  match fs.locate cwd p with
  | .error e => .error e
  | .ok loc =>
    match fs.node? loc with
    | some node => .ok node
    | none => .error (.system .noEntry p)

/-- The entry of a listed directory that has the path `p`, links followed. The listing itself tells what it is,
unless it is a link; so only the path of a link is looked up. -/
def examineEntry (fs : FileSystem) (cwd : Location) (entry : Location) (p : Path) : Except Failure Node :=
  match fs.node? entry with
  | some (.link _) => fs.stat cwd p
  | some node => .ok node
  | none => .error (.system .noEntry p)

end FileSystem

end ExtensionAudit
