import Mathlib
import ExtensionAudit.Proofs.Walk.Root

/-!
# Walks end

There are infinitely many paths where links lead around in circles, but a walk goes no deeper than it has levels, and it
tries each real path once at most. Where the path of every link is short, real paths stand for directories: a walk lists
each of these once at most, and so it looks at each entry of the file system once at most.

* `Visit.performed`: the visits of a walk that may give up at its first failure;
* `FileSystem.exists_forall₂_tried`: the directories that a walk tries to list;
* **`FileSystem.length_visits_lt`**: how many visits there are;
* `Walker`, `Walker.Step`, `Walker.Run`: a walk taken visit by visit, with nothing that says beforehand that it ends;
* `Walker.Run.isPrefix`, `Walker.exists_run`: every such walk is a part of one that ends;
* **`Walker.walk_ends`**: what holds of all walks of a root.
-/

namespace ExtensionAudit

/-! ## Visits -/

namespace Visit

/-- Is the visit the last one of a walk that goes on after a failure, or gives up at the first one? -/
def isLast (givesUp : Bool) (v : Visit) : Bool := v.isTooDeep || givesUp && v.failure?.isSome

/-- The visits of a walk that goes on after a failure, or gives up at the first one. -/
def performed (givesUp : Bool) : List Visit → List Visit
  | [] => []
  | v :: vs => v :: if v.isLast givesUp then [] else performed givesUp vs

theorem performed_isPrefix (givesUp : Bool) (vs : List Visit) : performed givesUp vs <+: vs := by
  induction vs with
  | nil => exact List.nil_prefix
  | cons v vs ih =>
    rw [performed, List.prefix_cons_inj]
    split
    · exact List.nil_prefix
    · exact ih

theorem refusedPaths_sublist_tried (vs : List Visit) : (refusedPaths vs).Sublist (tried vs) := by
  rw [refusedPaths, tried]
  induction vs with
  | nil => exact .slnil
  | cons v vs ih =>
    cases v <;> simp only [List.filterMap_cons]
    all_goals first | exact ih.cons_cons _ | exact ih.cons _ | exact ih

end Visit

namespace FileSystem

variable {fs : FileSystem} {cwd : Location}

/-! ## Directories -/

/-- **The directories that a walk tries to list** are as many as the paths at which it tries. -/
theorem exists_forall₂_tried (hshort : fs.HasShortLinks) {paths : List Path} (hn : (paths.map fs.realPath).Nodup)
    (h : ∀ q ∈ paths, Path.isAbsolute q = true ∧ ∃ dir ∈ fs.directories, fs.Arrives cwd q dir) :
    ∃ dirs, List.Forall₂ (fs.Arrives cwd) paths dirs ∧ dirs.Nodup ∧ dirs ⊆ fs.directories := by
  choose! habs dirOf hdir harrives using h
  refine ⟨paths.map dirOf, ?_, ?_, ?_⟩
  · rw [List.forall₂_map_right_iff, List.forall₂_same]
    exact harrives
  · have hreal : paths.map fs.realPath = (paths.map dirOf).map Path.ofLocation := by
      rw [List.map_map]
      exact List.map_congr_left fun q hq => realPath_eq hshort (habs q hq) (harrives q hq)
    exact (hreal ▸ hn).of_map _
  · intro dir hm
    obtain ⟨q, hq, rfl⟩ := List.mem_map.mp hm
    exact hdir q hq

/-! ## Entries -/

/-- The locations of the entries of a directory that is entered. -/
def entriesBelow (fs : FileSystem) : Visit → List Location
  | .entered _ loc => (fs.names loc).map fun n => loc ++ [n]
  | _ => []

theorem length_entriesBelow (v : Visit) : (fs.entriesBelow v).length = (fs.below v).length := by
  cases v <;> simp [entriesBelow, below]

theorem of_mem_entriesBelow {v : Visit} {loc : Location} (h : loc ∈ fs.entriesBelow v) :
    v.directory? = some loc.dropLast ∧ loc ≠ [] ∧ loc ∈ fs.entries.keys := by
  cases v with
  | entered p dir =>
    obtain ⟨name, hname, rfl⟩ := List.mem_map.mp h
    obtain ⟨node, hn⟩ := mem_names.mp hname
    exact ⟨by rw [List.dropLast_concat]; rfl, by simp, Table.mem_keys_of_get?_eq_some hn⟩
  | _ => cases h

section Short

variable (hshort : fs.HasShortLinks) (visited : List Path) {pending : List Pending} (hp : ∀ e ∈ pending, e.Sound fs cwd)
include hshort hp

/-- **No entry is looked at twice** below the directories that a walk enters. -/
theorem nodup_entriesBelow : ((fs.visits cwd visited pending).flatMap fs.entriesBelow).Nodup := by
  rw [List.nodup_flatMap]
  constructor
  · intro v _
    cases v with
    | entered p loc => exact (nodup_names loc).map fun a b h => by simpa using h
    | _ => exact .nil
  · refine (pairwise_directory? hshort visited hp).imp ?_
    intro v v' hne loc hm hm'
    exact hne _ (of_mem_entriesBelow hm).1 (of_mem_entriesBelow hm').1

/-- **How many visits there are**: fewer than pending entries and entries of the file system together. -/
theorem length_visits_lt : (fs.visits cwd visited pending).length < pending.length + fs.entries.length := by
  have hsub : [] :: (fs.visits cwd visited pending).flatMap fs.entriesBelow ⊆ fs.entries.keys := by
    intro loc hm
    rcases List.mem_cons.mp hm with rfl | hm
    · obtain ⟨access, h⟩ := fs.root_isDirectory
      exact Table.mem_keys_of_get?_eq_some h
    · obtain ⟨v, -, hm⟩ := List.mem_flatMap.mp hm
      exact (of_mem_entriesBelow hm).2.2
  -- the root is an entry of no directory, so one entry is left over
  have hroot : [] ∉ (fs.visits cwd visited pending).flatMap fs.entriesBelow := by
    intro hm
    obtain ⟨v, -, hm⟩ := List.mem_flatMap.mp hm
    exact (of_mem_entriesBelow hm).2.1 rfl
  have hnodup : ([] :: (fs.visits cwd visited pending).flatMap fs.entriesBelow).Nodup :=
    List.nodup_cons.mpr ⟨hroot, nodup_entriesBelow hshort visited hp⟩
  have hle := (hnodup.subperm hsub).length_le
  rw [List.length_cons, Table.keys, List.length_map, List.length_flatMap] at hle
  simp only [length_entriesBelow] at hle
  have hperm : ((fs.visits cwd visited pending).map Visit.path).length = _ := (perm_visits visited hp).length_eq
  rw [List.length_map, List.length_append, List.length_map, List.length_flatMap] at hperm
  omega

end Short

end FileSystem

/-! ## Visit by visit -/

/-- A walk on its way: the real paths that it has met, and the entries that come next. -/
structure Walker where
  visited : List Path
  pending : List Pending

namespace Walker

variable {fs : FileSystem} {cwd : Location} {givesUp : Bool}

/-- A walk before its first visit. -/
def start (fs : FileSystem) (levels : ℕ) (cwd : Location) (root : Path) : Walker :=
  ⟨[], fs.outset levels cwd (Path.absolute cwd root)⟩

/-- **One step of a walk.** Nothing is left to do after a directory that lies too deep, nor after a failure if the walk
gives up. -/
inductive Step (fs : FileSystem) (cwd : Location) (givesUp : Bool) : Walker → Visit → Walker → Prop where
  | visit {visited visited' : List Path} {e : Pending} {v : Visit} {next pending : List Pending}
      (h : fs.VisitStep cwd visited e v visited' next) :
      Step fs cwd givesUp ⟨visited, e :: pending⟩ v
        ⟨visited', if v.isLast givesUp then [] else next ++ pending⟩

/-- Some steps of a walk, however far it gets. -/
inductive Run (fs : FileSystem) (cwd : Location) (givesUp : Bool) : Walker → List Visit → Walker → Prop where
  | nil (w : Walker) : Run fs cwd givesUp w [] w
  | cons {w w' w'' : Walker} {v : Visit} {vs : List Visit} (hs : Step fs cwd givesUp w v w')
      (hr : Run fs cwd givesUp w' vs w'') : Run fs cwd givesUp w (v :: vs) w''

/-- **Every run is the beginning of the visits of a walk.** -/
theorem Run.isPrefix {w w' : Walker} {vs : List Visit} (h : Run fs cwd givesUp w vs w') :
    vs <+: Visit.performed givesUp (fs.visits cwd w.visited w.pending) := by
  induction h with
  | nil => exact List.nil_prefix
  | cons hs _ ih =>
    cases hs with
    | visit h =>
      rw [FileSystem.visits_of_step h, Visit.performed, List.prefix_cons_inj]
      -- a walk that has given up visits nothing more
      split at ih
      · next hg => rwa [if_pos hg, ← Visit.performed.eq_1 givesUp, ← FileSystem.visits.eq_1]
      · next hg => rwa [if_neg hg]

/-- **Every walk can be taken to its end.** -/
theorem exists_run (givesUp : Bool) (visited : List Path) {pending : List Pending}
    (hp : ∀ e ∈ pending, e.Sound fs cwd) :
    ∃ w, Run fs cwd givesUp ⟨visited, pending⟩ (Visit.performed givesUp (fs.visits cwd visited pending)) w ∧
      w.pending = [] := by
  refine FileSystem.visits_induction (motive := fun visited pending vs =>
    ∃ w, Run fs cwd givesUp ⟨visited, pending⟩ (Visit.performed givesUp vs) w ∧ w.pending = []) ?_ ?_ visited
    pending hp
  · exact fun visited => ⟨_, .nil _, rfl⟩
  · intro visited e v visited' next pending rest _ hs ih
    have hstep : Step fs cwd givesUp ⟨visited, e :: pending⟩ v _ := .visit hs
    rw [Visit.performed]
    split at hstep
    · next hg =>
      rw [if_pos hg]
      exact ⟨_, .cons hstep (.nil _), rfl⟩
    · next hg =>
      obtain ⟨w, hr, hw⟩ := ih
      rw [if_neg hg]
      exact ⟨w, .cons hstep hr, hw⟩

/-! ## The walk of a root -/

theorem length_visitsOf_le_one {levels : ℕ} {root : Path} {e : Failure}
    (h : fs.list cwd (Path.absolute cwd root) = .error e) : (fs.visitsOf levels cwd root).length ≤ 1 := by
  cases hl : fs.locate cwd (Path.absolute cwd root) with
  | error e' =>
    rw [FileSystem.visitsOf, FileSystem.outset, hl, FileSystem.visits]
    exact Nat.zero_le 1
  | ok top =>
    rw [FileSystem.visitsOf, FileSystem.outset_of_locate hl]
    have hsound : Pending.Sound fs cwd ⟨Path.absolute cwd root, top, levels + 1⟩ := .root hl
    obtain ⟨v, visited, next, hs, heq⟩ := FileSystem.exists_visitStep [] hsound []
    have hnext : next = [] := by
      cases hs with
      | entered _ _ _ hl' hn => rw [FileSystem.list_of_locate hl' hn] at h; cases h
      | _ => rfl
    rw [heq, hnext, List.append_nil, FileSystem.visits]
    rfl

/-- **Walks end.** However a walk of a root is taken, visit by visit, it is a part of one walk that ends. Each path at
which that walk tries to list a directory leads to one, and no two of these paths have the same real path. If the path
of every link is short, these are paths of different directories, so there are no more of them than directories; and
the walk makes no more visits than the file system has entries. If the root can be listed, the visits are those of the
walk, up to the first failure where that ends it. If not, the root is all that is visited. -/
theorem walk_ends (fs : FileSystem) (levels : ℕ) (cwd : Location) (root : Path) (givesUp : Bool) :
    ∃ whole w, Run fs cwd givesUp (start fs levels cwd root) whole w ∧ w.pending = [] ∧
      (∀ vs w', Run fs cwd givesUp (start fs levels cwd root) vs w' → vs <+: whole) ∧
      ((Visit.tried whole).map fs.realPath).Nodup ∧
      (∀ q ∈ Visit.tried whole, ∃ dir ∈ fs.directories, fs.Arrives cwd q dir) ∧
      (Visit.refusedPaths whole).Sublist (Visit.tried whole) ∧
      (fs.HasShortLinks → whole.length ≤ fs.entries.length ∧
        ∃ dirs, List.Forall₂ (fs.Arrives cwd) (Visit.tried whole) dirs ∧ dirs.Nodup ∧ dirs ⊆ fs.directories ∧
          (Visit.tried whole).length ≤ fs.directories.toFinset.card) ∧
      (∀ vs, fs.walk levels cwd root = .ok vs → whole = Visit.performed givesUp vs) ∧
      (∀ e, fs.list cwd (Path.absolute cwd root) = .error e → whole.length ≤ 1) := by
  have hsound := @FileSystem.sound_outset fs levels cwd root
  obtain ⟨w, hr, hw⟩ := exists_run givesUp [] hsound
  rw [← FileSystem.visitsOf] at hr
  have hp := Visit.performed_isPrefix givesUp (fs.visitsOf levels cwd root)
  have htried : (Visit.tried (Visit.performed givesUp (fs.visitsOf levels cwd root))).Sublist
      (Visit.tried (fs.visitsOf levels cwd root)) := hp.sublist.filterMap _
  have hnodup := (FileSystem.nodup_tried [] hsound).1.sublist (htried.map fs.realPath)
  have hdir : ∀ q ∈ Visit.tried (Visit.performed givesUp (fs.visitsOf levels cwd root)), _ :=
    fun q hq => FileSystem.exists_arrives_of_tried [] hsound (htried.subset hq)
  refine ⟨_, w, hr, hw, fun vs w' h => h.isPrefix, hnodup, fun q hq => (hdir q hq).2,
    Visit.refusedPaths_sublist_tried _, ?_, ?_, fun e he => hp.length_le.trans (length_visitsOf_le_one he)⟩
  · intro hshort
    obtain ⟨dirs, harrives, hdirs, hsub⟩ := FileSystem.exists_forall₂_tried hshort hnodup hdir
    refine ⟨?_, dirs, harrives, hdirs, hsub, ?_⟩
    · have hlt : (fs.visitsOf levels cwd root).length < _ := FileSystem.length_visits_lt hshort [] hsound
      have hone : (fs.outset levels cwd (Path.absolute cwd root)).length ≤ 1 := by
        unfold FileSystem.outset
        split <;> simp
      have hle := hp.length_le
      omega
    · rw [harrives.length_eq, ← List.toFinset_card_of_nodup hdirs]
      exact Finset.card_le_card fun loc h => List.mem_toFinset.mpr (hsub (List.mem_toFinset.mp h))
  · intro vs hvs
    rw [(FileSystem.walk_eq_ok_iff.mp hvs).2.1]

end Walker

end ExtensionAudit
