import ExtensionAudit.Files.Walk
import ExtensionAudit.Proofs.RealPath

/-!
# The visits of a walk

A walk takes its pending entries one by one. What it does at an entry depends on what is there and on the real paths met
before, and this is said once; every property of a walk follows from it.

* `FileSystem.mem_names`, `FileSystem.nodup_names`: the names of the entries of a directory;
* `FileSystem.pairwise_text_names`, `FileSystem.names_eq`: these names are in order;
* `Pending.Sound`, `Pending.Sound.exists_arrives`: the entries that come up in a walk, and where their paths lead;
* `FileSystem.VisitStep`, **`FileSystem.visits_induction`**: one visit, and induction along a walk;
* `FileSystem.visits_of_step`: one visit, and the walk goes on;
* `FileSystem.perm_visits`: the paths that are visited;
* `FileSystem.exists_step`: what is visited at each of them;
* `FileSystem.nodup_tried`: no real path is tried twice;
* `FileSystem.Settles`, **`FileSystem.settles_visits`**: what becomes of the entries.
-/

namespace ExtensionAudit

namespace Visit

/-- The path of a visit. -/
def path : Visit → Path
  | .entered p _ => p
  | .revisited p => p
  | .refused p _ => p
  | .unreached p _ => p
  | .file p => p
  | .special p => p
  | .tooDeep p => p

/-- The paths at which a walk tries to list a directory, in order. -/
def tried (visits : List Visit) : List Path :=
  visits.filterMap fun
    | .entered p _ => some p
    | .refused p _ => some p
    | .unreached p _ => some p
    | _ => none

theorem tried_cons (v : Visit) (vs : List Visit) : tried (v :: vs) = tried [v] ++ tried vs := by
  cases v <;> rfl

theorem mem_tried {vs : List Visit} {p : Path} : p ∈ tried vs ↔ ∃ v ∈ vs, p ∈ tried [v] := by
  rw [tried, List.mem_filterMap]
  refine exists_congr fun v => and_congr_right fun _ => ?_
  rw [tried, List.mem_filterMap]
  simp

theorem eq_of_mem_tried {vs : List Visit} {f : Path → Path} (h : ((tried vs).map f).Nodup) {v v' : Visit} {p q : Path}
    (hv : v ∈ vs) (hv' : v' ∈ vs) (hp : p ∈ tried [v]) (hq : q ∈ tried [v']) (hpq : f p = f q) : v = v' := by
  induction vs with
  | nil => cases hv
  | cons u vs ih =>
    rw [tried_cons, List.map_append, List.nodup_append] at h
    have hrest : ∀ {v p}, v ∈ vs → p ∈ tried [v] → f p ∈ (tried vs).map f :=
      fun hv hp => List.mem_map_of_mem (mem_tried.mpr ⟨_, hv, hp⟩)
    rcases List.mem_cons.mp hv with rfl | hin <;> rcases List.mem_cons.mp hv' with rfl | hin'
    · rfl
    · exact absurd hpq (h.2.2 _ (List.mem_map_of_mem hp) _ (hrest hin' hq))
    · exact absurd hpq.symm (h.2.2 _ (List.mem_map_of_mem hq) _ (hrest hin hp))
    · exact ih h.2.1 hin hin'

theorem files_cons (v : Visit) (vs : List Visit) : files (v :: vs) = files [v] ++ files vs := by
  cases v <;> rfl

end Visit

namespace FileSystem

variable {fs : FileSystem} {cwd : Location}

/-! ## The entries of a directory -/

theorem nameIn?_eq_some {dir loc : Location} {name : FileName} :
    nameIn? dir loc = some name ↔ loc = dir ++ [name] := by
  unfold nameIn?
  split
  · next h =>
    rw [List.getLast?_eq_some_iff, ← h]
    constructor
    · rintro ⟨init, rfl⟩
      rw [List.dropLast_concat]
    · intro e
      exact ⟨_, e⟩
  · next h =>
    constructor
    · intro e
      cases e
    · intro e
      exact absurd (by rw [e, List.dropLast_concat]) h

theorem mem_listing {dir : Location} {name : FileName} :
    name ∈ fs.listing dir ↔ ∃ node, fs.node? (dir ++ [name]) = some node := by
  rw [listing, List.mem_filterMap]
  constructor
  · rintro ⟨loc, hk, hn⟩
    rw [nameIn?_eq_some] at hn
    exact hn ▸ Table.exists_get? hk
  · rintro ⟨node, h⟩
    exact ⟨_, Table.mem_keys_of_get?_eq_some h, nameIn?_eq_some.mpr rfl⟩

theorem mem_names {dir : Location} {name : FileName} :
    name ∈ fs.names dir ↔ ∃ node, fs.node? (dir ++ [name]) = some node := by
  rw [names, List.mem_mergeSort, mem_listing]

theorem nodup_listing (dir : Location) : (fs.listing dir).Nodup := by
  refine fs.nodup.filterMap ?_
  intro loc loc' name h h'
  rw [Option.mem_def, nameIn?_eq_some] at h h'
  rw [h, h']

theorem nodup_names (dir : Location) : (fs.names dir).Nodup :=
  (List.mergeSort_perm _ _).nodup_iff.mpr (fs.nodup_listing dir)

end FileSystem

/-! ## Names in order -/

instance : Std.IsLinearOrder CodePoint where
  le_refl c := Nat.le_refl c.toNat
  le_trans _ _ _ := Nat.le_trans
  le_antisymm _ _ h h' := CodePoint.ext (Nat.le_antisymm h h')
  le_total a b := Nat.le_total a.toNat b.toNat

instance : Std.LawfulOrderLT CodePoint := ⟨fun _ _ => Nat.lt_iff_le_and_not_ge⟩

theorem FileName.le_antisymm {a b : FileName} (h : le a b = true) (h' : le b a = true) : a = b :=
  text_injective (List.le_antisymm (of_decide_eq_true h) (of_decide_eq_true h'))

theorem FileName.pairwise_mergeSort (names : List FileName) :
    (names.mergeSort le).Pairwise fun a b => le a b = true := by
  refine List.pairwise_mergeSort (fun a b c hab hbc => ?_) (fun a b => ?_) _
  · exact decide_eq_true (List.le_trans (of_decide_eq_true hab) (of_decide_eq_true hbc))
  · rw [Bool.or_eq_true]
    exact (List.le_total a.text b.text).imp decide_eq_true decide_eq_true

theorem FileName.pairwise_text_mergeSort {names : List FileName} (h : names.Nodup) :
    (names.mergeSort le).Pairwise fun a b => a.text < b.text := by
  have hnodup : (names.mergeSort le).Nodup := (List.mergeSort_perm _ _).nodup_iff.mpr h
  refine ((pairwise_mergeSort names).and hnodup).imp fun {a b} h => ?_
  exact Std.lt_of_le_of_ne (of_decide_eq_true h.1) fun e => h.2 (text_injective e)

namespace FileSystem

variable {fs fs' : FileSystem}

theorem pairwise_names (fs : FileSystem) (dir : Location) :
    (fs.names dir).Pairwise fun a b => FileName.le a b = true := FileName.pairwise_mergeSort _

theorem pairwise_text_names (fs : FileSystem) (dir : Location) :
    (fs.names dir).Pairwise fun a b => a.text < b.text := FileName.pairwise_text_mergeSort (fs.nodup_listing dir)

/-- **Directories with the same names in them** list these in the same order. -/
theorem names_eq {dir dir' : Location} (h : ∀ name, (∃ node, fs.node? (dir ++ [name]) = some node) ↔
    ∃ node, fs'.node? (dir' ++ [name]) = some node) : fs.names dir = fs'.names dir' := by
  have hperm : (fs.names dir).Perm (fs'.names dir') :=
    (List.perm_ext_iff_of_nodup (nodup_names dir) (nodup_names dir')).mpr fun name => by
      rw [mem_names, mem_names, h]
  exact hperm.eq_of_pairwise (fun a b _ _ => FileName.le_antisymm) (pairwise_names fs dir) (pairwise_names fs' dir')

end FileSystem

/-! ## Entries that come up in a walk -/

/-- **The entries that come up in a walk**: its root, and the entries of directories that can be looked up. -/
inductive Pending.Sound (fs : FileSystem) (cwd : Location) : Pending → Prop where
  | root {root : Path} {top : Location} {levels : ℕ} (h : fs.locate cwd (Path.absolute cwd root) = .ok top) :
      Sound fs cwd ⟨Path.absolute cwd root, top, levels⟩
  | entry {p : Path} {dir : Location} {name : FileName} {levels : ℕ} (ha : Path.isAbsolute p = true) (ht : p.IsTidy)
      (h : fs.locate cwd p = .ok dir) (hd : fs.isPassable dir = true)
      (hn : ∃ node, fs.node? (dir ++ [name]) = some node) :
      Sound fs cwd ⟨Path.join p name.text, dir ++ [name], levels⟩

namespace Pending.Sound

open FileSystem

variable {fs : FileSystem} {cwd : Location} {e : Pending}

theorem isAbsolute (h : e.Sound fs cwd) : Path.isAbsolute e.path = true := by
  cases h with
  | root => exact (Path.isNormal_absolute cwd _).isAbsolute
  | entry ha => exact Path.isAbsolute_join ha _

theorem isTidy (h : e.Sound fs cwd) : e.path.IsTidy := by
  cases h with
  | root => exact Path.isTidy_absolute cwd _
  | entry => exact Path.isTidy_join _ _

theorem exists_node (h : e.Sound fs cwd) : ∃ node, fs.node? e.entry = some node := by
  cases h with
  | root h =>
    obtain ⟨node, hn, -⟩ := isSolid_of_locate h
    exact ⟨node, hn⟩
  | entry _ _ _ _ hn => exact hn

theorem arrives (h : e.Sound fs cwd) (hs : fs.IsSolid e.entry) : fs.Arrives cwd e.path e.entry := by
  cases h with
  | root h => exact arrives_of_locate h
  | entry _ _ h hd =>
    obtain ⟨node, hn, hl⟩ := hs
    exact (arrives_of_locate h).join hd hn hl

/-- **What is found at an entry** is there where its path leads. -/
theorem exists_arrives (h : e.Sound fs cwd) {node : Node} (hx : fs.examineEntry cwd e.entry e.path = .ok node) :
    ∃ loc, fs.Arrives cwd e.path loc ∧ fs.node? loc = some node := by
  obtain ⟨old, hn⟩ := h.exists_node
  cases old with
  | link target =>
    simp only [examineEntry, hn] at hx
    obtain ⟨loc, hl, hn⟩ := exists_locate_of_stat hx
    exact ⟨loc, arrives_of_locate hl, hn⟩
  | _ =>
    simp only [examineEntry, hn, Except.ok.injEq] at hx
    exact ⟨e.entry, h.arrives ⟨_, hn, by simp⟩, hx ▸ hn⟩

theorem examineEntry_eq_stat (h : e.Sound fs cwd) (hs : e.path.IsShort) :
    fs.examineEntry cwd e.entry e.path = fs.stat cwd e.path := by
  obtain ⟨node, hn⟩ := h.exists_node
  have hsolid : (∀ path, node ≠ .link path) → fs.stat cwd e.path = .ok node :=
    fun hlink => stat_of_locate ((h.arrives ⟨node, hn, hlink⟩).locate_eq hs) hn
  cases node with
  | link target => simp only [examineEntry, hn]
  | _ => simp only [examineEntry, hn, hsolid (by simp)]

end Pending.Sound

namespace FileSystem

variable {fs : FileSystem} {cwd : Location}

/-! ## One visit -/

/-- **One visit**: what a walk does at an entry, given the real paths met before, with those met after it and the
entries that come next. -/
inductive VisitStep (fs : FileSystem) (cwd : Location) (visited : List Path) (e : Pending) :
    Visit → List Path → List Pending → Prop where
  | entered {access : Access} {levels : ℕ} {loc : Location}
      (hx : fs.examineEntry cwd e.entry e.path = .ok (.directory access)) (hd : e.levels = levels + 1)
      (hv : fs.realPath e.path ∉ visited) (hl : fs.locate cwd e.path = .ok loc)
      (hn : fs.node? loc = some (.directory .listing)) :
      VisitStep fs cwd visited e (.entered e.path loc) (fs.realPath e.path :: visited) (fs.pendingIn e.path loc levels)
  | refused {access refused : Access} {levels : ℕ} {loc : Location}
      (hx : fs.examineEntry cwd e.entry e.path = .ok (.directory access)) (hd : e.levels = levels + 1)
      (hv : fs.realPath e.path ∉ visited) (hl : fs.locate cwd e.path = .ok loc)
      (hn : fs.node? loc = some (.directory refused)) (hne : refused ≠ .listing) :
      VisitStep fs cwd visited e (.refused e.path loc) (fs.realPath e.path :: visited) []
  | unreached {access : Access} {levels : ℕ} {failure : Failure}
      (hx : fs.examineEntry cwd e.entry e.path = .ok (.directory access)) (hd : e.levels = levels + 1)
      (hv : fs.realPath e.path ∉ visited) (hl : fs.locate cwd e.path = .error failure) :
      VisitStep fs cwd visited e (.unreached e.path failure) (fs.realPath e.path :: visited) []
  | revisited {access : Access} {levels : ℕ}
      (hx : fs.examineEntry cwd e.entry e.path = .ok (.directory access)) (hd : e.levels = levels + 1)
      (hv : fs.realPath e.path ∈ visited) : VisitStep fs cwd visited e (.revisited e.path) visited []
  | tooDeep {access : Access} (hx : fs.examineEntry cwd e.entry e.path = .ok (.directory access))
      (hd : e.levels = 0) : VisitStep fs cwd visited e (.tooDeep e.path) visited []
  | file {openable : Bool} {content : Bytes}
      (hx : fs.examineEntry cwd e.entry e.path = .ok (.file openable content)) :
      VisitStep fs cwd visited e (.file e.path) visited []
  | special (h : ∀ node, fs.examineEntry cwd e.entry e.path = .ok node →
      node.isDirectory = false ∧ node.isFile = false) : VisitStep fs cwd visited e (.special e.path) visited []

section Step

variable {visited visited' : List Path} {e : Pending} {v : Visit} {next : List Pending}

theorem exists_visitStep (visited : List Path) (he : e.Sound fs cwd) (pending : List Pending) :
    ∃ v visited' next, fs.VisitStep cwd visited e v visited' next ∧
      fs.visits cwd visited (e :: pending) = v :: fs.visits cwd visited' (next ++ pending) := by
  rw [visits]
  split
  · next access hx =>
    split
    · next hd => exact ⟨_, _, _, .tooDeep hx hd, rfl⟩
    next levels hd =>
    simp only
    split
    · next hv => exact ⟨_, _, _, .revisited hx hd hv, rfl⟩
    next hv =>
    split
    · next failure hl => exact ⟨_, _, _, .unreached hx hd hv hl, rfl⟩
    next loc hl =>
    have hn : fs.node? loc = some (.directory access) := by
      obtain ⟨loc', ha, hn⟩ := he.exists_arrives hx
      exact (arrives_of_locate hl).unique ha ▸ hn
    cases access with
    | listing =>
      rw [if_pos (by rw [hn])]
      exact ⟨_, _, _, .entered hx hd hv hl hn, rfl⟩
    | _ =>
      rw [if_neg (by rw [hn]; simp)]
      exact ⟨_, _, _, .refused hx hd hv hl hn (by simp), rfl⟩
  · next openable content hx => exact ⟨_, _, _, .file hx, rfl⟩
  · next hdirectory hfile =>
    refine ⟨_, _, _, .special fun node hx => ?_, rfl⟩
    cases node with
    | directory access => exact absurd hx (hdirectory access)
    | file openable content => exact absurd hx (hfile openable content)
    | _ => exact ⟨rfl, rfl⟩

theorem VisitStep.path_eq (h : fs.VisitStep cwd visited e v visited' next) : v.path = e.path := by
  cases h <;> rfl

theorem VisitStep.sound (he : e.Sound fs cwd) (h : fs.VisitStep cwd visited e v visited' next) :
    ∀ e' ∈ next, e'.Sound fs cwd := by
  cases h with
  | entered _ _ _ hl hn =>
    intro e' he'
    obtain ⟨name, hname, rfl⟩ := List.mem_map.mp he'
    exact .entry he.isAbsolute he.isTidy hl (isPassable_of_listing hn) (mem_names.mp hname)
  | _ => exact List.forall_mem_nil _

/-- The paths of the entries of a directory that is entered. -/
def below (fs : FileSystem) : Visit → List Path
  | .entered p loc => (fs.names loc).map fun n => Path.join p n.text
  | _ => []

theorem VisitStep.map_path_next (h : fs.VisitStep cwd visited e v visited' next) :
    next.map Pending.path = fs.below v := by
  cases h with
  | entered => exact List.map_map
  | _ => rfl

theorem VisitStep.visited_eq (h : fs.VisitStep cwd visited e v visited' next) :
    visited' = (Visit.tried [v]).map fs.realPath ++ visited := by
  cases h <;> rfl

theorem VisitStep.notMem_visited (h : fs.VisitStep cwd visited e v visited' next) :
    ∀ key ∈ (Visit.tried [v]).map fs.realPath, key ∉ visited := by
  cases h with
  | entered _ _ hv => simpa [Visit.tried] using hv
  | refused _ _ hv => simpa [Visit.tried] using hv
  | unreached _ _ hv => simpa [Visit.tried] using hv
  | _ => simp [Visit.tried]

end Step

/-! ## The visits of a walk -/

/-- **Induction along a walk.** -/
theorem visits_induction {motive : List Path → List Pending → List Visit → Prop}
    (nil : ∀ visited, motive visited [] [])
    (cons : ∀ visited e v visited' next pending rest, e.Sound fs cwd → fs.VisitStep cwd visited e v visited' next →
      motive visited' (next ++ pending) rest → motive visited (e :: pending) (v :: rest))
    (visited : List Path) (pending : List Pending) (hp : ∀ e ∈ pending, e.Sound fs cwd) :
    motive visited pending (fs.visits cwd visited pending) := by
  induction hw : fs.weight pending using Nat.strong_induction_on generalizing visited pending with
  | _ n ih =>
  subst hw
  cases pending with
  | nil =>
    rw [visits]
    exact nil visited
  | cons e pending =>
    obtain ⟨he, hp⟩ := List.forall_mem_cons.mp hp
    obtain ⟨v, visited', next, hs, heq⟩ := exists_visitStep visited he pending
    have hlt : fs.weight (next ++ pending) < fs.weight (e :: pending) := by
      cases hs with
      | entered _ hd => exact fs.weight_pendingIn_lt _ _ _ e pending hd
      | _ => exact fs.weight_lt_cons e pending
    rw [heq]
    exact cons visited e v visited' next pending _ he hs
      (ih _ hlt visited' _ (List.forall_mem_append.mpr ⟨hs.sound he, hp⟩) rfl)

theorem visits_of_step {visited visited' : List Path} {e : Pending} {v : Visit} {next : List Pending}
    (h : fs.VisitStep cwd visited e v visited' next) (pending : List Pending) :
    fs.visits cwd visited (e :: pending) = v :: fs.visits cwd visited' (next ++ pending) := by
  obtain ⟨p, entry, levels⟩ := e
  rw [visits]
  cases h with
  | entered hx hd hv hl hn =>
    cases hd
    simp only [hx, hv, hl, hn, if_false, if_true]
  | @refused _ refused _ _ hx hd hv hl hn hne =>
    cases hd
    cases refused with
    | listing => exact absurd rfl hne
    | _ => simp only [hx, hv, hl, hn, if_false, Bool.false_eq_true, List.nil_append]
  | unreached hx hd hv hl =>
    cases hd
    simp only [hx, hv, hl, if_false, List.nil_append]
  | revisited hx hd hv =>
    cases hd
    simp only [hx, hv, if_true, List.nil_append]
  | tooDeep hx hd =>
    cases hd
    simp only [hx, List.nil_append]
  | file hx => simp only [hx, List.nil_append]
  | special h =>
    split
    · next hx => cases (h _ hx).1
    · next hx => cases (h _ hx).2
    · rfl

section Visits

variable (visited : List Path) {pending : List Pending} (hp : ∀ e ∈ pending, e.Sound fs cwd)
include hp

/-- **The paths that are visited**: those pending, and those below the directories that are entered. -/
theorem perm_visits : ((fs.visits cwd visited pending).map Visit.path).Perm
    (pending.map Pending.path ++ (fs.visits cwd visited pending).flatMap fs.below) := by
  refine visits_induction (motive := fun _ pending vs =>
    (vs.map Visit.path).Perm (pending.map Pending.path ++ vs.flatMap fs.below)) (fun _ => .nil) ?_ visited pending hp
  intro _ e v _ next pending rest _ hs ih
  rw [List.map_cons, hs.path_eq, List.map_cons, List.cons_append, List.flatMap_cons, ← hs.map_path_next]
  refine (ih.trans ?_).cons e.path
  rw [List.map_append, ← List.append_assoc]
  exact List.perm_append_comm.append_right _

theorem exists_step : ∀ v ∈ fs.visits cwd visited pending,
    ∃ e visited visited' next, e.Sound fs cwd ∧ e.path = v.path ∧ fs.VisitStep cwd visited e v visited' next := by
  refine visits_induction (motive := fun _ _ vs => ∀ v ∈ vs, ∃ e visited visited' next, e.Sound fs cwd ∧
    e.path = v.path ∧ fs.VisitStep cwd visited e v visited' next) (fun _ => List.forall_mem_nil _) ?_ visited pending hp
  intro visited e v visited' next _ _ he hs ih
  exact List.forall_mem_cons.mpr ⟨⟨e, _, _, _, he, hs.path_eq.symm, hs⟩, ih⟩

/-- **No real path is tried twice**, nor one that was met before. -/
theorem nodup_tried : ((Visit.tried (fs.visits cwd visited pending)).map fs.realPath).Nodup ∧
    ∀ key ∈ (Visit.tried (fs.visits cwd visited pending)).map fs.realPath, key ∉ visited := by
  refine visits_induction (motive := fun visited _ vs => ((Visit.tried vs).map fs.realPath).Nodup ∧
    ∀ key ∈ (Visit.tried vs).map fs.realPath, key ∉ visited) (fun _ => ⟨.nil, List.forall_mem_nil _⟩) ?_ visited
    pending hp
  -- what is tried at one visit has been met ever after
  intro visited e v visited' next pending rest _ hs ih
  rw [hs.visited_eq] at ih
  rw [Visit.tried_cons, List.map_append]
  have hone : ((Visit.tried [v]).map fs.realPath).Nodup := by cases hs <;> simp [Visit.tried]
  refine ⟨List.nodup_append.mpr ⟨hone, ih.1, ?_⟩, List.forall_mem_append.mpr ⟨hs.notMem_visited, ?_⟩⟩
  · rintro key hkey _ hrest rfl
    exact ih.2 key hrest (List.mem_append_left _ hkey)
  · exact fun key hkey hv => ih.2 key hkey (List.mem_append_right _ hv)

end Visits

/-! ## What becomes of the entries -/

/-- **What becomes of an entry** in a walk: a regular file is a file of it, and the real path of a directory is met. -/
structure Settles (fs : FileSystem) (cwd : Location) (visited : List Path) (vs : List Visit) (e : Pending) : Prop where
  file {openable : Bool} {content : Bytes} (hx : fs.examineEntry cwd e.entry e.path = .ok (.file openable content)) :
    .file e.path ∈ vs
  directory {access : Access} (hx : fs.examineEntry cwd e.entry e.path = .ok (.directory access)) :
    .tooDeep e.path ∈ vs ∨ fs.realPath e.path ∈ visited ∨ fs.realPath e.path ∈ (Visit.tried vs).map fs.realPath

theorem Settles.cons {visited visited' : List Path} {vs : List Visit} {e e' : Pending} {v : Visit}
    {next : List Pending} (hs : fs.VisitStep cwd visited e v visited' next) (h : fs.Settles cwd visited' vs e') :
    fs.Settles cwd visited (v :: vs) e' where
  file hx := List.mem_cons_of_mem _ (h.file hx)
  directory hx := by
    rw [Visit.tried_cons, List.map_append, List.mem_append]
    rcases h.directory hx with h | h | h
    · exact Or.inl (List.mem_cons_of_mem _ h)
    · rw [hs.visited_eq] at h
      rcases List.mem_append.mp h with h | h
      · exact Or.inr (Or.inr (Or.inl h))
      · exact Or.inr (Or.inl h)
    · exact Or.inr (Or.inr (Or.inr h))

theorem VisitStep.settles {visited visited' : List Path} {e : Pending} {v : Visit} {next : List Pending}
    (h : fs.VisitStep cwd visited e v visited' next) (vs : List Visit) : fs.Settles cwd visited (v :: vs) e := by
  have hkey : ∀ p ∈ Visit.tried [v], fs.realPath p ∈ (Visit.tried (v :: vs)).map fs.realPath := by
    intro p hp
    rw [Visit.tried_cons]
    exact List.mem_map_of_mem (List.mem_append_left _ hp)
  constructor
  · intro openable content hx
    cases h with
    | file => exact List.mem_cons_self ..
    | special h => cases (h _ hx).2
    | entered hx' | refused hx' | unreached hx' | revisited hx' | tooDeep hx' => cases hx.symm.trans hx'
  · intro access hx
    cases h with
    | tooDeep => exact Or.inl (List.mem_cons_self ..)
    | revisited _ _ hv => exact Or.inr (Or.inl hv)
    | file hx' => cases hx.symm.trans hx'
    | special h => cases (h _ hx).1
    | entered | refused | unreached => exact Or.inr (Or.inr (hkey e.path (List.mem_singleton_self _)))

/-- **What becomes of the entries** that are pending, and of those of the directories that are entered. -/
theorem settles_visits (visited : List Path) {pending : List Pending} (hp : ∀ e ∈ pending, e.Sound fs cwd) :
    (∀ e ∈ pending, fs.Settles cwd visited (fs.visits cwd visited pending) e) ∧
      ∀ q dir, Visit.entered q dir ∈ fs.visits cwd visited pending → ∃ levels, ∀ e ∈ fs.pendingIn q dir levels,
        fs.Settles cwd visited (fs.visits cwd visited pending) e := by
  refine visits_induction (motive := fun visited pending vs => (∀ e ∈ pending, fs.Settles cwd visited vs e) ∧
    ∀ q dir, Visit.entered q dir ∈ vs → ∃ levels, ∀ e ∈ fs.pendingIn q dir levels, fs.Settles cwd visited vs e)
    ?_ ?_ visited pending hp
  · exact fun _ => ⟨List.forall_mem_nil _, fun _ _ h => by cases h⟩
  intro visited e v visited' next pending rest _ hs ih
  obtain ⟨hnext, hpending⟩ := List.forall_mem_append.mp ih.1
  refine ⟨List.forall_mem_cons.mpr ⟨hs.settles rest, fun e' he' => (hpending e' he').cons hs⟩, ?_⟩
  intro q dir hm
  rcases List.mem_cons.mp hm with rfl | hm
  · cases hs with
    | entered hx hd hv hl hn => exact ⟨_, fun e' he' => (hnext e' he').cons (.entered hx hd hv hl hn)⟩
  · obtain ⟨levels, h⟩ := ih.2 q dir hm
    exact ⟨levels, fun e' he' => (h e' he').cons hs⟩

end FileSystem

end ExtensionAudit
