import ExtensionAudit.Json.Reader
import ExtensionAudit.World

/-!
# Snapshots

A snapshot is a JSON object that describes a world: its entries, the current directory, the environment,
how deep walks can go and the readings of the clock.

* `Snapshot.node?`: the entry that an object describes;
* `Snapshot.world?`: the world that a document describes;
* `Snapshot.written`: the files that differ between two worlds.
-/

namespace ExtensionAudit.Snapshot

def member? (value : Json) (name : String) : Option Json :=
  match value with
  | .object members => Table.get? members (text name)
  | _ => none

def text? (value : Json) (name : String) : Option Text :=
  match member? value name with
  | some (.string t) => some t
  | _ => none

def isSet (value : Json) (name : String) : Bool :=
  match member? value name with
  | some (.bool b) => b
  | _ => false

def items (value : Json) (name : String) : List Json :=
  match member? value name with
  | some (.array xs) => xs
  | _ => []

/-- The location that an absolute path names if it goes through no link. -/
def location (p : Path) : Location := (Path.components p).filterMap FileName.ofText?

/-- The entry that an object describes: a file with a text, a link, a pipe or a directory. A file that is
locked cannot be opened. A directory that is locked lets paths through, but it cannot be listed. -/
def node? (value : Json) : Option Node :=
  let accessible := !isSet value "locked"
  match text? value "text", text? value "link" with
  | some content, _ => some (.file accessible (Utf8.encodeAll content))
  | none, some target => some (.link target)
  | none, none =>
    if isSet value "pipe" then some .pipe
    else if isSet value "directory" then some (.directory (if accessible then .listing else .passage))
    else none

/-- An entry with its place. -/
def planting? (value : Json) : Option Planting :=
  match text? value "path", node? value with
  | some p, some node => some ⟨location p, node⟩
  | _, _ => none

/-- The variables of an object: its members that are texts. -/
def environment (value : Json) : Settings.Environment :=
  match member? value "environment" with
  | some (.object members) => members.filterMap fun m =>
      match m.2 with
      | .string t => some (m.1, t)
      | _ => none
  | _ => []

/-- How deep a walk can go, where a document does not tell. -/
def standardLevels : Nat := 900

def levels (value : Json) : Nat :=
  match member? value "levels" with
  | some (.integer n) => n.toNat
  | _ => standardLevels

/-- The readings of the clock, in whole seconds. -/
def clock (value : Json) : Clock :=
  (items value "clock").filterMap fun
    | .integer n => some (n : Rat)
    | _ => none

/-- The world that a document describes. No remote repository can be fetched in it. -/
def world? (document : Text) : Option World :=
  (Json.parse document).map fun value =>
    let cwd := location ((text? value "current").getD [])
    { files := FileSystem.empty.plantAll []
        (⟨cwd, .directory .listing⟩ :: (items value "entries").filterMap planting?)
      cwd
      environment := environment value
      levels := levels value
      clock := clock value
      horizon := none
      remote := fun _ => ⟨[], some (text "no network")⟩
      fetched := []
      journal := [] }

/-- The files whose content is not what it was before. -/
def written (before after : FileSystem) : List (Location × Bytes) :=
  after.entries.filterMap fun e =>
    match e.2.content? with
    | some content =>
      if (before.node? e.1).bind Node.content? = some content then none else some (e.1, content)
    | none => none

end ExtensionAudit.Snapshot
