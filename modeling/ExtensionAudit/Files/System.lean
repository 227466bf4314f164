import ExtensionAudit.Table
import ExtensionAudit.Files.Path

/-!
# File systems

A file system is a finite table from locations to entries. Its root is a directory, and every other entry
lies in a directory.

* `Access`: what a directory allows; `Node`: an entry; `FileSystem`, `FileSystem.node?`, `FileSystem.names`;
* `FileSystem.create`, `FileSystem.exchange`, `FileSystem.setContent`, `FileSystem.remove`: the changes,
  each with what it does to `node?`;
* `FileSystem.plant`: an entry with the directories above it.
-/

namespace ExtensionAudit

/-- What a directory allows. One that can be listed is assumed to let paths through. -/
inductive Access where
  /-- It can be listed. -/
  | listing
  /-- It cannot be listed, but it lets paths through. -/
  | passage
  | nothing
deriving DecidableEq

/-- What both allow. -/
def Access.and : Access → Access → Access
  | .listing, access => access
  | access, .listing => access
  | .passage, .passage => .passage
  | _, _ => .nothing

/-- An entry of a file system. A directory may refuse to be listed or to let paths through, a file to be opened; both
can be examined all the same. -/
inductive Node where
  | directory (access : Access)
  | file (openable : Bool) (content : Bytes)
  | link (target : Path)
  | pipe
  | device

namespace Node

/-- Is the entry a directory? -/
def isDirectory : Node → Bool
  | .directory _ => true
  | _ => false

/-- Is the entry a directory that lets paths through? -/
def isPassable : Node → Bool
  | .directory access => access != .nothing
  | _ => false

/-- Is the entry a regular file? -/
def isFile : Node → Bool
  | .file _ _ => true
  | _ => false

/-- The content of a regular file. -/
def content? : Node → Option Bytes
  | .file _ content => some content
  | _ => none

end Node

/-- An entry to be planted: where it lies below some directory, and what it is. -/
structure Planting where
  path : List FileName
  node : Node

/-- A finite file system. -/
structure FileSystem where
  entries : Table Location Node
  nodup : entries.keys.Nodup
  root_isDirectory : ∃ access, entries.get? [] = some (.directory access)
  parent_isDirectory : ∀ dir name, (entries.get? (dir ++ [name])).isSome →
    ∃ access, entries.get? dir = some (.directory access)

namespace FileSystem

/-- The entry at a location. -/
def node? (fs : FileSystem) (loc : Location) : Option Node := fs.entries.get? loc

/-- Is there a directory at the location? -/
def isDirectory (fs : FileSystem) (loc : Location) : Bool := (fs.node? loc).any Node.isDirectory

/-- Is there a directory at the location that lets paths through? -/
def isPassable (fs : FileSystem) (loc : Location) : Bool := (fs.node? loc).any Node.isPassable

/-- The locations of all directories. -/
def directories (fs : FileSystem) : List Location := fs.entries.keys.filter fs.isDirectory

/-- The name of an entry of `dir`, if the location is one. -/
def nameIn? (dir loc : Location) : Option FileName :=
  if loc.dropLast = dir then loc.getLast? else none

/-- The names of the entries of a directory as it has them. -/
def listing (fs : FileSystem) (dir : Location) : List FileName := fs.entries.keys.filterMap (nameIn? dir)

/-- The names of the entries of a directory, in order. -/
def names (fs : FileSystem) (dir : Location) : List FileName := (fs.listing dir).mergeSort FileName.le

/-- The file system with an empty root. -/
def empty : FileSystem where
  entries := [([], .directory .listing)]
  nodup := by simp [Table.keys]
  root_isDirectory := ⟨.listing, by simp [Table.get?]⟩
  parent_isDirectory := by intro dir name h; simp [Table.get?] at h

instance : Inhabited FileSystem := ⟨empty⟩

theorem isDirectory_iff {fs : FileSystem} {loc : Location} :
    fs.isDirectory loc = true ↔ ∃ access, fs.node? loc = some (.directory access) := by
  rw [isDirectory, Option.any_eq_true]
  constructor
  · rintro ⟨n, hn, hd⟩
    cases n with
    | directory b => exact ⟨b, hn⟩
    | _ => simp [Node.isDirectory] at hd
  · rintro ⟨b, h⟩
    exact ⟨_, h, rfl⟩

theorem isPassable_iff {fs : FileSystem} {loc : Location} :
    fs.isPassable loc = true ↔ ∃ access, fs.node? loc = some (.directory access) ∧ access ≠ .nothing := by
  rw [isPassable, Option.any_eq_true]
  constructor
  · rintro ⟨n, hn, hd⟩
    cases n with
    | directory access => exact ⟨access, hn, by simpa [Node.isPassable] using hd⟩
    | _ => simp [Node.isPassable] at hd
  · rintro ⟨access, hn, hne⟩
    exact ⟨_, hn, by simpa [Node.isPassable] using hne⟩

theorem isDirectory_of_isPassable {fs : FileSystem} {loc : Location} (h : fs.isPassable loc = true) :
    fs.isDirectory loc = true := by
  obtain ⟨access, hn, -⟩ := isPassable_iff.mp h
  exact isDirectory_iff.mpr ⟨access, hn⟩

theorem mem_directories {fs : FileSystem} {loc : Location} :
    loc ∈ fs.directories ↔ fs.isDirectory loc = true := by
  rw [directories, List.mem_filter, and_iff_right_of_imp]
  intro h
  obtain ⟨b, hb⟩ := isDirectory_iff.mp h
  exact Table.mem_keys_of_get?_eq_some hb

/-! ## Changes -/

/-- Put a new entry into a directory. Nothing happens if there is no such directory or the name is taken. -/
def create (fs : FileSystem) (dir : Location) (name : FileName) (node : Node) : FileSystem :=
  if h : fs.isDirectory dir = true ∧ fs.node? (dir ++ [name]) = none then
    { entries := fs.entries.put (dir ++ [name]) node
      nodup := Table.nodup_keys_alter fs.nodup _ _
      root_isDirectory := by
        obtain ⟨b, hb⟩ := fs.root_isDirectory
        exact ⟨b, by rw [Table.put, Table.get?_alter, if_neg (by simp), hb]⟩
      parent_isDirectory := by
        intro d n hs
        have key : ∃ b, fs.entries.get? d = some (.directory b) := by
          rw [Table.put, Table.get?_alter] at hs
          split at hs
          · next e =>
            obtain ⟨rfl, -⟩ := List.append_inj' e rfl
            exact isDirectory_iff.mp h.1
          · exact fs.parent_isDirectory d n hs
        obtain ⟨b, hb⟩ := key
        refine ⟨b, ?_⟩
        rw [Table.put, Table.get?_alter, if_neg, hb]
        intro e
        have := h.2
        rw [node?, e, hb] at this
        simp at this }
  else fs

/-- An exchange leaves every directory a directory. -/
theorem directory_of_exchange {fs : FileSystem} {loc dir : Location} {node : Node} {b : Access}
    (h : (fs.node? loc).any (fun old => old.isDirectory == node.isDirectory) = true)
    (hb : fs.entries.get? dir = some (.directory b)) :
    ∃ b, (fs.entries.put loc node).get? dir = some (.directory b) := by
  rw [Table.put, Table.get?_alter]
  split
  · next e =>
    subst e
    obtain ⟨old, ho, he⟩ := (Option.any_eq_true _ _).mp h
    rw [node?, hb] at ho
    injection ho with ho
    subst ho
    cases node with
    | directory c => exact ⟨c, rfl⟩
    | _ => simp [Node.isDirectory] at he
  · exact ⟨b, hb⟩

/-- Exchange an entry for another one. Nothing happens if nothing is there, or if one of the two is a
directory and the other is not. -/
def exchange (fs : FileSystem) (loc : Location) (node : Node) : FileSystem :=
  if h : (fs.node? loc).any (fun old => old.isDirectory == node.isDirectory) = true then
    { entries := fs.entries.put loc node
      nodup := Table.nodup_keys_alter fs.nodup _ _
      root_isDirectory := by
        obtain ⟨b, hb⟩ := fs.root_isDirectory
        exact directory_of_exchange h hb
      parent_isDirectory := by
        intro d n hs
        have key : ∃ b, fs.entries.get? d = some (.directory b) := by
          rw [Table.put, Table.get?_alter] at hs
          split at hs
          · next e =>
            obtain ⟨old, ho, -⟩ := (Option.any_eq_true _ _).mp h
            exact fs.parent_isDirectory d n (by rw [← e, show fs.entries.get? loc = _ from ho]; rfl)
          · exact fs.parent_isDirectory d n hs
        obtain ⟨b, hb⟩ := key
        exact directory_of_exchange h hb }
  else fs

/-- Replace the content of a file. Nothing happens if there is no file. -/
def setContent (fs : FileSystem) (loc : Location) (content : Bytes) : FileSystem :=
  match fs.node? loc with
  | some (.file openable _) => fs.exchange loc (.file openable content)
  | _ => fs

/-- Remove an entry and all below it. The root stays. -/
def remove (fs : FileSystem) (loc : Location) : FileSystem :=
  if h : loc = [] then fs
  else
    { entries := fs.entries.filter fun e => !loc.isPrefixOf e.1
      nodup := (List.Sublist.map _ List.filter_sublist).nodup fs.nodup
      root_isDirectory := by
        obtain ⟨b, hb⟩ := fs.root_isDirectory
        refine ⟨b, ?_⟩
        rw [Table.get?_filter_keys (fun l : Location => !loc.isPrefixOf l), hb]
        cases loc with
        | nil => exact absurd rfl h
        | cons a l => rfl
      parent_isDirectory := by
        intro d n hs
        rw [Table.get?_filter_keys (fun l : Location => !loc.isPrefixOf l)] at hs ⊢
        split at hs
        · next hp =>
          obtain ⟨b, hb⟩ := fs.parent_isDirectory d n hs
          refine ⟨b, ?_⟩
          rw [if_pos, hb]
          simp only [Bool.not_eq_true', Bool.eq_false_iff, ne_eq, List.isPrefixOf_iff_prefix] at hp ⊢
          exact fun hd => hp (hd.trans (List.prefix_append _ _))
        · simp at hs }

/-! ## What the changes do -/

theorem node?_create {fs : FileSystem} {dir : Location} {name : FileName} {node : Node}
    (hd : fs.isDirectory dir = true) (hv : fs.node? (dir ++ [name]) = none) (loc : Location) :
    (fs.create dir name node).node? loc = if dir ++ [name] = loc then some node else fs.node? loc := by
  rw [create, dif_pos ⟨hd, hv⟩]
  exact Table.get?_alter _ _ _ _

theorem node?_exchange {fs : FileSystem} {loc : Location} {node old : Node}
    (h : fs.node? loc = some old) (hk : old.isDirectory = node.isDirectory) (loc' : Location) :
    (fs.exchange loc node).node? loc' = if loc = loc' then some node else fs.node? loc' := by
  rw [exchange, dif_pos (by rw [h]; simp [hk])]
  exact Table.get?_alter _ _ _ _

theorem node?_setContent {fs : FileSystem} {loc : Location} {openable : Bool} {old : Bytes}
    (h : fs.node? loc = some (.file openable old)) (content : Bytes) (loc' : Location) :
    (fs.setContent loc content).node? loc' =
      if loc = loc' then some (.file openable content) else fs.node? loc' := by
  simp only [setContent, h]
  exact node?_exchange h (by rfl) loc'

/-! ## Planting -/

/-- Make the directories that lead down to an entry, as far as they are missing. -/
def ensureDirectories (fs : FileSystem) (base : Location) (names : List FileName) : FileSystem :=
  (names.foldl (fun (fs, dir) name => (fs.create dir name (.directory .listing), dir ++ [name])) (fs, base)).1

/-- Plant an entry. A file replaces the content of a file, and what refuses access goes on to do so. -/
def plant (fs : FileSystem) (base : Location) (p : Planting) : FileSystem :=
  let fs := fs.ensureDirectories base p.path.dropLast
  let loc := base ++ p.path
  match fs.node? loc, p.node with
  | none, node =>
    match p.path.getLast? with
    | some name => fs.create (base ++ p.path.dropLast) name node
    | none => fs
  | some (.file openable _), .file openable' content => fs.exchange loc (.file (openable && openable') content)
  | some (.directory access), .directory access' => fs.exchange loc (.directory (access.and access'))
  | some _, _ => fs

/-- Plant entries in order. -/
def plantAll (fs : FileSystem) (base : Location) (ps : List Planting) : FileSystem :=
  ps.foldl (fun fs p => fs.plant base p) fs

end FileSystem

end ExtensionAudit
