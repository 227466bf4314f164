import ExtensionAudit.Proofs.Walk.Root

/-!
# What a walk covers

A walk of a directory returns the regular files of all directories that can be reached from it, each once
for every entry that leads to it.

* `FileSystem.Reached`: the directories that can be reached, links followed;
* `FileSystem.Beneath`: the directories that lie below a directory, no link followed;
* `FileSystem.LinksSuffice`: no lookup of a walk is refused because of the number of links alone;
* **`FileSystem.walk_covers`**: the files that a walk returns;
* `FileSystem.walk_misses_link`: a link to a file that a walk does not return.
-/

namespace ExtensionAudit.FileSystem

variable {fs : FileSystem} {levels : ℕ} {cwd : Location} {root : Path} {vs : List Visit}

/-! ## What is to be covered -/

/-- Two paths have the same last name below the same directory. -/
def SameEntry (fs : FileSystem) (cwd : Location) (p q : Path) : Prop :=
  fs.locate cwd (Path.parent p) = fs.locate cwd (Path.parent q) ∧ Path.base p = Path.base q

instance : Std.Symm fun p q => ¬ fs.SameEntry cwd p q := ⟨fun _ _ h h' => h ⟨h'.1.symm, h'.2.symm⟩⟩

/-- An entry of a directory leads to a location, through however many links. -/
def EntryLeads (fs : FileSystem) (dir : Location) (name : FileName) (target : Location) : Prop :=
  ∃ k, fs.Leads k dir [.down name.text] false target

theorem EntryLeads.exists_node {dir target : Location} {name : FileName}
    (h : fs.EntryLeads dir name target) : ∃ node, fs.node? (dir ++ [name]) = some node := by
  obtain ⟨k, h⟩ := h
  generalize hs : [Step.down name.text] = steps at h
  cases h with
  | here => cases hs
  | stay => cases hs
  | up => cases hs
  | down _ hn =>
    injection hs with hs
    injection hs with hs
    exact FileName.text_injective hs ▸ ⟨_, hn⟩
  | link _ hn =>
    injection hs with hs
    injection hs with hs
    exact FileName.text_injective hs ▸ ⟨_, hn⟩

/-- **The directories that can be reached** from a directory: those that an entry of a listable one of them
leads to. -/
inductive Reached (fs : FileSystem) (top : Location) : Location → Prop where
  | top : Reached fs top top
  | entry {dir target : Location} {name : FileName} (hr : Reached fs top dir)
      (hn : fs.node? dir = some (.directory .listing)) (he : fs.EntryLeads dir name target)
      (hd : fs.isDirectory target = true) : Reached fs top target

/-- **The directories that lie at or below a directory**, all directories on the way being listable. -/
inductive Beneath (fs : FileSystem) (top : Location) : Location → Prop where
  | top (hn : fs.node? top = some (.directory .listing)) : Beneath fs top top
  | entry {dir : Location} {name : FileName} (hb : Beneath fs top dir)
      (hn : fs.node? (dir ++ [name]) = some (.directory .listing)) : Beneath fs top (dir ++ [name])

/-- There is a regular file at the location. -/
def IsFileAt (fs : FileSystem) (loc : Location) : Prop :=
  ∃ openable content, fs.node? loc = some (.file openable content)

theorem IsFileAt.exists_node {loc : Location} (h : fs.IsFileAt loc) : ∃ node, fs.node? loc = some node := by
  obtain ⟨openable, content, hn⟩ := h
  exact ⟨_, hn⟩

/-- No visited path that leads somewhere is refused, as too many links or too long a path would be. -/
def LinksSuffice (fs : FileSystem) (cwd : Location) (vs : List Visit) : Prop :=
  ∀ v ∈ vs, ∀ k loc, fs.PathLeads cwd k v.path loc → fs.locate cwd v.path = .ok loc

/-- A walk comes to the directory, or to one above it, at a path that is too long. -/
def Misses (fs : FileSystem) (cwd : Location) (vs : List Visit) (dir : Location) : Prop :=
  ∃ above, above <+: dir ∧ ∃ p ∈ Visit.refusedPaths vs, ¬ p.IsShort ∧ fs.Arrives cwd p above

/-- The path of a file that a walk returns for an entry of a directory. -/
def IsReturned (fs : FileSystem) (cwd : Location) (vs : List Visit) (dir : Location) (name : FileName)
    (p : Path) : Prop :=
  p ∈ Visit.files vs ∧ fs.locate cwd (Path.parent p) = .ok dir ∧ Path.base p = name.text

theorem Beneath.listable {top dir : Location} (h : fs.Beneath top dir) :
    fs.node? dir = some (.directory .listing) := by
  cases h with
  | top hn => exact hn
  | entry _ hn => exact hn

/-! ## The paths of entries -/

section Entry

variable {dir target : Location} {directory : Path} {name : FileName}

/-- **Where the path of an entry leads**, there the entry leads in its directory. -/
theorem entryLeads_of_locate_join (hd : fs.locate cwd directory = .ok dir)
    (h : fs.locate cwd (Path.join directory name.text) = .ok target) : fs.EntryLeads dir name target := by
  obtain ⟨-, k, -, hdir⟩ := locate_eq_ok_iff.mp hd
  obtain ⟨-, k', -, hpath⟩ := locate_eq_ok_iff.mp h
  have ha : Path.isAbsolute (Path.join directory name.text) = Path.isAbsolute directory :=
    congrArg Route.absolute (Route.ofPath_join hdir.ne_nil name)
  have hleads := hpath.leads
  rw [ha, Route.ofPath_join hdir.ne_nil] at hleads
  obtain ⟨k₁, k₂, mid, hfirst, hlast⟩ := hleads.exists_mid (by simp)
  obtain rfl := (hfirst _).unique hdir.leads
  exact ⟨k₂, hlast⟩

theorem locate_join_of_entryLeads (hd : fs.locate cwd directory = .ok dir) (h : fs.EntryLeads dir name target) :
    fs.locate cwd (Path.join directory name.text) = .ok target ∨
      fs.locate cwd (Path.join directory name.text) =
        .error (.system .tooManyLinks (Path.join directory name.text)) ∨
      ¬ (Path.join directory name.text).IsShort := by
  obtain ⟨-, k, -, hdir⟩ := locate_eq_ok_iff.mp hd
  obtain ⟨k', hleads⟩ := h
  by_cases hs : (Path.join directory name.text).IsShort
  case neg => exact Or.inr (Or.inr hs)
  rw [locate_of_pathLeads (hdir.join hleads) hs]
  split
  · exact Or.inl rfl
  · exact Or.inr (Or.inl rfl)

end Entry

/-! ## A walk that succeeds -/

section Walk

variable (hw : fs.walk levels cwd root = .ok vs)
include hw

theorem visits_of_walk : vs = fs.visits cwd [] (fs.outset levels cwd (Path.absolute cwd root)) :=
  (walk_eq_ok_iff.mp hw).2.1

theorem exists_step_of_walk {v : Visit} (hv : v ∈ vs) : ∃ e visited visited' next, e.Sound fs cwd ∧
    e.path = v.path ∧ fs.VisitStep cwd visited e v visited' next := by
  rw [visits_of_walk hw] at hv
  exact exists_step _ sound_outset v hv

theorem isTidy_of_walk {v : Visit} (hv : v ∈ vs) : Path.IsTidy v.path := by
  obtain ⟨e, _, _, _, he, hpath, -⟩ := exists_step_of_walk hw hv
  exact hpath ▸ he.isTidy

theorem locate_of_entered {q : Path} {dir : Location} (hv : Visit.entered q dir ∈ vs) :
    fs.locate cwd q = .ok dir := by
  obtain ⟨e, _, _, _, -, hpath, hs⟩ := exists_step_of_walk hw hv
  cases hs with
  | entered _ _ _ hl => exact hl

theorem isPassable_of_entered {q : Path} {dir : Location} (hv : Visit.entered q dir ∈ vs) :
    fs.isPassable dir = true := by
  obtain ⟨e, _, _, _, -, hpath, hs⟩ := exists_step_of_walk hw hv
  cases hs with
  | entered _ _ _ _ hn => exact isPassable_of_listing hn

theorem exists_settles {q : Path} {dir : Location} {name : FileName} (hv : Visit.entered q dir ∈ vs)
    (hn : ∃ node, fs.node? (dir ++ [name]) = some node) :
    ∃ e : Pending, e.Sound fs cwd ∧ e.path = Path.join q name.text ∧ e.entry = dir ++ [name] ∧
      fs.Settles cwd [] vs e := by
  obtain ⟨e, _, _, _, he, hpath, -⟩ := exists_step_of_walk hw hv
  have ha : Path.isAbsolute q = true ∧ q.IsTidy := by
    rw [show q = e.path from hpath.symm]
    exact ⟨he.isAbsolute, he.isTidy⟩
  have hl := locate_of_entered hw hv
  have hd := isPassable_of_entered hw hv
  have hvs := visits_of_walk hw
  rw [hvs] at hv ⊢
  obtain ⟨levels, h⟩ := (settles_visits [] sound_outset).2 q dir hv
  exact ⟨_, .entry ha.1 ha.2 hl hd hn, rfl, rfl,
    h ⟨Path.join q name.text, dir ++ [name], levels⟩ (List.mem_map.mpr ⟨name, mem_names.mpr hn, rfl⟩)⟩

theorem exists_visit_entry {q : Path} {dir : Location} (hv : Visit.entered q dir ∈ vs) {name : FileName}
    (hn : ∃ node, fs.node? (dir ++ [name]) = some node) : ∃ v ∈ vs, v.path = Path.join q name.text := by
  have hm : Path.join q name.text ∈ vs.map Visit.path := by
    have hvs := visits_of_walk hw
    rw [hvs] at hv ⊢
    rw [(perm_visits [] sound_outset).mem_iff, List.mem_append, List.mem_flatMap]
    exact Or.inr ⟨_, hv, List.mem_map.mpr ⟨name, mem_names.mpr hn, rfl⟩⟩
  obtain ⟨v, hv, hp⟩ := List.mem_map.mp hm
  exact ⟨v, hv, hp⟩

theorem locate_entry_of_linksSuffice (hs : fs.LinksSuffice cwd vs) {q : Path} {dir target : Location}
    {name : FileName} (hv : Visit.entered q dir ∈ vs) (he : fs.EntryLeads dir name target) :
    fs.locate cwd (Path.join q name.text) = .ok target := by
  obtain ⟨v, hv', hp⟩ := exists_visit_entry hw hv he.exists_node
  obtain ⟨-, k, -, hq⟩ := locate_eq_ok_iff.mp (locate_of_entered hw hv)
  obtain ⟨k', hk'⟩ := he
  exact hp ▸ hs v hv' (k + k') target (hp ▸ hq.join hk')

/-! ## Files -/

/-- **A regular file in a directory that is entered** is a file of the walk, however long its path is. -/
theorem mem_files_of_isFileAt {q : Path} {dir : Location} {name : FileName} (hv : Visit.entered q dir ∈ vs)
    (hf : fs.IsFileAt (dir ++ [name])) : Path.join q name.text ∈ Visit.files vs := by
  obtain ⟨e, -, hpath, hentry, hs⟩ := exists_settles hw hv hf.exists_node
  obtain ⟨openable, content, hn⟩ := hf
  have hx : fs.examineEntry cwd e.entry e.path = .ok (.file openable content) := by
    rw [hentry]
    simp only [examineEntry, hn]
  exact List.mem_filterMap.mpr ⟨_, hs.file hx, congrArg some hpath⟩

theorem mem_files_entry {q : Path} {dir loc : Location} {name : FileName}
    (hv : Visit.entered q dir ∈ vs) (hl : fs.locate cwd (Path.join q name.text) = .ok loc)
    (hf : fs.IsFileAt loc) (hn : ∃ node, fs.node? (dir ++ [name]) = some node) :
    Path.join q name.text ∈ Visit.files vs := by
  obtain ⟨e, he, hpath, -, hs⟩ := exists_settles hw hv hn
  obtain ⟨openable, content, hf⟩ := hf
  have hx : fs.examineEntry cwd e.entry e.path = .ok (.file openable content) := by
    rw [he.examineEntry_eq_stat (hpath ▸ isShort_of_locate hl), hpath, stat_of_locate hl hf]
  exact List.mem_filterMap.mpr ⟨_, hs.file hx, congrArg some hpath⟩

/-- **A file of a walk leads to a regular file**, however long its path is. -/
theorem exists_arrives_of_mem_files {p : Path} (hp : p ∈ Visit.files vs) :
    ∃ loc, fs.Arrives cwd p loc ∧ fs.IsFileAt loc := by
  obtain ⟨v, hv, hf⟩ := List.mem_filterMap.mp hp
  obtain ⟨e, _, _, _, he, hpath, hs⟩ := exists_step_of_walk hw hv
  cases hs with
  | file hx =>
    cases hf
    obtain ⟨loc, ha, hn⟩ := he.exists_arrives hx
    exact ⟨loc, ha, _, _, hn⟩
  | _ => cases hf

theorem files_subperm : (Visit.files vs).Subperm (vs.flatMap fs.below) := by
  obtain ⟨⟨top, hl, hn⟩, hvs, -⟩ := walk_eq_ok_iff.mp hw
  have hfiles : ∀ vs : List Visit, (Visit.files vs).Sublist (vs.map Visit.path) := by
    intro vs
    rw [Visit.files, ← List.filterMap_eq_map]
    induction vs with
    | nil => exact .slnil
    | cons v vs ih =>
      cases v <;> simp only [List.filterMap_cons, Function.comp_apply]
      all_goals first | exact ih.cons_cons _ | exact ih.cons _
  -- the root is visited first, and it is no file
  have hx : fs.examineEntry cwd top (Path.absolute cwd root) = .ok (.directory .listing) := by
    simp only [examineEntry, hn]
  obtain ⟨rest, hfirst⟩ : ∃ rest, vs = .entered (Path.absolute cwd root) top :: rest := by
    rw [hvs, visitsOf, outset_of_locate hl]
    exact ⟨_, visits_of_step (.entered hx rfl List.not_mem_nil hl hn) []⟩
  have hperm : (vs.map Visit.path).Perm (Path.absolute cwd root :: vs.flatMap fs.below) := by
    rw [hvs, visitsOf]
    have h := perm_visits [] (@sound_outset fs levels cwd root)
    rwa [outset_of_locate hl] at h ⊢
  generalize vs.flatMap fs.below = paths at hperm ⊢
  rw [hfirst] at hperm ⊢
  exact (hfiles rest).subperm.trans (List.Perm.cons_inv hperm).subperm

theorem entered_of_tried {q : Path} {dir : Location} (hq : q ∈ Visit.tried vs) (ha : fs.Arrives cwd q dir)
    (hn : fs.node? dir = some (.directory .listing)) :
    Visit.entered q dir ∈ vs ∨ q ∈ Visit.refusedPaths vs ∧ ¬ q.IsShort := by
  obtain ⟨v, hv, htried⟩ := List.mem_filterMap.mp hq
  obtain ⟨e, _, _, _, -, -, hs⟩ := exists_step_of_walk hw hv
  cases hs with
  | entered _ _ _ hl =>
    cases htried
    exact Or.inl ((arrives_of_locate hl).unique ha ▸ hv)
  | refused _ _ _ hl hn' hne =>
    cases htried
    rw [(arrives_of_locate hl).unique ha, hn] at hn'
    cases hn'
    exact absurd rfl hne
  | unreached _ _ _ hl =>
    cases htried
    refine Or.inr ⟨List.mem_filterMap.mpr ⟨_, hv, rfl⟩, fun hs => ?_⟩
    rw [ha.locate_eq hs] at hl
    cases hl
  | _ => cases htried

section Short

variable (hshort : fs.HasShortLinks)
include hshort

theorem pairwise_below : (vs.flatMap fs.below).Pairwise fun p q => ¬ fs.SameEntry cwd p q := by
  have hkey : ∀ {q dir}, Visit.entered q dir ∈ vs → ∀ n : FileName,
      fs.locate cwd (Path.parent (Path.join q n.text)) = .ok dir ∧ Path.base (Path.join q n.text) = n.text := by
    intro q dir hv n
    have ht : Path.IsTidy q := isTidy_of_walk hw hv
    rw [Path.parent_join ht, Path.base_join ht.1]
    exact ⟨locate_of_entered hw hv, rfl⟩
  rw [List.pairwise_flatMap]
  constructor
  · intro v hv
    cases v with
    | entered q dir =>
      refine List.pairwise_map.mpr ((nodup_names dir).imp ?_)
      intro a b hab h
      have hb := h.2
      rw [(hkey hv a).2, (hkey hv b).2] at hb
      exact hab (FileName.text_injective hb)
    | _ => exact .nil
  · have hdir : vs.Pairwise fun v v' => ∀ loc, v.directory? = some loc → v'.directory? ≠ some loc := by
      rw [visits_of_walk hw]
      exact pairwise_directory? hshort [] sound_outset
    refine hdir.imp_of_mem ?_
    intro v v' hv hv' hne p hp q hq h
    cases v with
    | entered r dir =>
      cases v' with
      | entered r' dir' =>
        obtain ⟨a, -, rfl⟩ := List.mem_map.mp hp
        obtain ⟨b, -, rfl⟩ := List.mem_map.mp hq
        have hl := h.1
        rw [(hkey hv a).1, (hkey hv' b).1] at hl
        cases hl
        exact hne dir rfl rfl
      | _ => cases hq
    | _ => cases hp

/-- **No entry is returned twice.** -/
theorem pairwise_files : (Visit.files vs).Pairwise fun p q => ¬ fs.SameEntry cwd p q := by
  obtain ⟨paths, hperm, hsub⟩ := files_subperm hw
  exact (hperm.pairwise_iff (symm_of _)).mp ((pairwise_below hw hshort).sublist hsub)

theorem existsUnique_returned {q : Path} {dir : Location} {name : FileName} (hv : Visit.entered q dir ∈ vs)
    (hm : Path.join q name.text ∈ Visit.files vs) : ∃! p, fs.IsReturned cwd vs dir name p := by
  have ht : Path.IsTidy q := isTidy_of_walk hw hv
  have hr : fs.IsReturned cwd vs dir name (Path.join q name.text) := by
    refine ⟨hm, ?_, Path.base_join ht.1 name⟩
    rw [Path.parent_join ht]
    exact locate_of_entered hw hv
  refine ⟨_, hr, fun p hp => ?_⟩
  by_contra hne
  exact (pairwise_files hw hshort).forall hp.1 hm hne ⟨hp.2.1.trans hr.2.1.symm, hp.2.2.trans hr.2.2.symm⟩

/-! ## Directories -/

theorem exists_tried {e : Pending} {dir : Location} (he : e.Sound fs cwd) (hs : fs.Settles cwd [] vs e)
    (hx : ∃ access, fs.examineEntry cwd e.entry e.path = .ok (.directory access))
    (ha : fs.Arrives cwd e.path dir) : ∃ q ∈ Visit.tried vs, fs.Arrives cwd q dir := by
  obtain ⟨-, hvs, hdeep⟩ := walk_eq_ok_iff.mp hw
  obtain ⟨access, hx⟩ := hx
  rcases hs.directory hx with h | h | h
  · cases hdeep _ h
  · cases h
  obtain ⟨q, hq, hkey⟩ := List.mem_map.mp h
  obtain ⟨habs, loc, -, hloc⟩ := exists_arrives_of_tried [] sound_outset (visits_of_walk hw ▸ hq)
  rw [realPath_eq hshort habs hloc, realPath_eq hshort he.isAbsolute ha] at hkey
  exact ⟨q, hq, Path.ofLocation_injective hkey ▸ hloc⟩

variable {top : Location} (ht : fs.locate cwd (Path.absolute cwd root) = .ok top)
include ht

theorem exists_tried_top : ∃ q ∈ Visit.tried vs, fs.Arrives cwd q top := by
  obtain ⟨⟨top', ht', hn⟩, hvs, -⟩ := walk_eq_ok_iff.mp hw
  cases ht.symm.trans ht'
  have hs : fs.Settles cwd [] vs ⟨Path.absolute cwd root, top, levels + 1⟩ := by
    rw [hvs, visitsOf]
    refine (settles_visits [] sound_outset).1 _ ?_
    rw [outset_of_locate ht]
    exact List.mem_singleton_self _
  refine exists_tried hw hshort (.root ht) hs ⟨.listing, ?_⟩ (arrives_of_locate ht)
  simp only [examineEntry, hn]

/-- **Every directory that can be reached is tried** if links suffice, and it is entered if it can be listed. -/
theorem exists_entered_of_reached (hsuffice : fs.LinksSuffice cwd vs) {dir : Location} (h : fs.Reached top dir)
    (hn : fs.node? dir = some (.directory .listing)) : ∃ q, Visit.entered q dir ∈ vs := by
  have henter : ∀ {dir}, (∃ q ∈ Visit.tried vs, fs.Arrives cwd q dir) → fs.node? dir = some (.directory .listing) →
      ∃ q, Visit.entered q dir ∈ vs := by
    rintro dir ⟨q, hq, ha⟩ hn
    rcases entered_of_tried hw hq ha hn with hv | ⟨hp, hs⟩
    · exact ⟨q, hv⟩
    · obtain ⟨v, hv, hvq⟩ := List.mem_filterMap.mp hp
      obtain ⟨k, -, hleads⟩ := ha
      have hpath : v.path = q := by cases v <;> cases hvq <;> rfl
      exact absurd (isShort_of_locate (hsuffice v hv k dir (hpath ▸ hleads))) (hpath ▸ hs)
  refine henter ?_ hn
  clear hn
  induction h with
  | top => exact exists_tried_top hw hshort ht
  | @entry dir target name _ hn he hd ih =>
    obtain ⟨q, hv⟩ := henter ih hn
    have hl := locate_entry_of_linksSuffice hw hsuffice hv he
    obtain ⟨e, hsound, hpath, -, hs⟩ := exists_settles hw hv he.exists_node
    obtain ⟨access, hn'⟩ := isDirectory_iff.mp hd
    refine exists_tried hw hshort hsound hs ⟨access, ?_⟩ (hpath ▸ arrives_of_locate hl)
    rw [hsound.examineEntry_eq_stat (hpath ▸ isShort_of_locate hl), hpath]
    exact stat_of_locate hl hn'

/-- **Every directory beneath the root is entered**, however many links its paths hold, unless the walk comes to it,
or to one above it, at a path that is too long. -/
theorem exists_entered_of_beneath {dir : Location} (h : fs.Beneath top dir) :
    (∃ q, Visit.entered q dir ∈ vs) ∨ fs.Misses cwd vs dir := by
  have henter : ∀ {dir}, (∃ q ∈ Visit.tried vs, fs.Arrives cwd q dir) → fs.node? dir = some (.directory .listing) →
      (∃ q, Visit.entered q dir ∈ vs) ∨ fs.Misses cwd vs dir := by
    rintro dir ⟨q, hq, ha⟩ hn
    rcases entered_of_tried hw hq ha hn with hv | ⟨hp, hs⟩
    · exact Or.inl ⟨q, hv⟩
    · exact Or.inr ⟨dir, List.prefix_refl dir, q, hp, hs, ha⟩
  induction h with
  | top hn => exact henter (exists_tried_top hw hshort ht) hn
  | @entry dir name hb hn ih =>
    rcases ih with ⟨q, hv⟩ | ⟨above, hprefix, hmiss⟩
    · -- an entry that is no link takes no more links than its directory
      obtain ⟨e, hsound, hpath, hentry, hs⟩ := exists_settles hw hv ⟨_, hn⟩
      have hx : fs.examineEntry cwd e.entry e.path = .ok (.directory .listing) := by
        rw [hentry]
        simp only [examineEntry, hn]
      have ha : fs.Arrives cwd e.path (dir ++ [name]) :=
        hentry ▸ hsound.arrives (hentry ▸ isSolid_of_isDirectory (isDirectory_iff.mpr ⟨_, hn⟩))
      exact henter (exists_tried hw hshort hsound hs ⟨.listing, hx⟩ ha) hn
    · exact Or.inr ⟨above, hprefix.trans (List.prefix_append _ _), hmiss⟩

end Short

end Walk

/-! ## The whole walk -/

/-- **What a walk returns.** Let the path of every link be short. A root that can be listed is walked, unless a
directory lies deeper than there are levels. The files lead to regular files, no two of them the same entry. If
lookups suffice, every entry that leads to a regular file is returned from every listable directory that can be
reached. Even if they do not, and unless the walk comes to the directory or to one above it at a path that is too
long, every regular file is returned from every directory beneath the root; and so is every link to one, unless its
own lookup takes too many links or too long a path. -/
theorem walk_covers (fs : FileSystem) (levels : ℕ) (cwd : Location) (root : Path)
    (h : (fs.list cwd (Path.absolute cwd root)).isOk = true) (hshort : fs.HasShortLinks) :
    (fs.walk levels cwd root = .error .tooDeep ∧ ∃ rel loc, rel.length = levels + 1 ∧
      fs.Arrives cwd (Path.beneath (Path.absolute cwd root) rel) loc ∧ fs.isDirectory loc = true) ∨
    ∃ vs top, fs.walk levels cwd root = .ok vs ∧ fs.locate cwd (Path.absolute cwd root) = .ok top ∧
      (∀ p ∈ Visit.files vs, ∃ loc, fs.IsFileAt loc ∧ fs.Arrives cwd p loc ∧
        (p.IsShort → fs.locate cwd p = .ok loc)) ∧
      ((Visit.files vs).Pairwise fun p q => ¬ fs.SameEntry cwd p q) ∧
      (fs.LinksSuffice cwd vs → ∀ dir name target, fs.Reached top dir →
        fs.node? dir = some (.directory .listing) → fs.EntryLeads dir name target → fs.IsFileAt target →
          ∃! p, fs.IsReturned cwd vs dir name p) ∧
      (∀ dir, fs.Beneath top dir → fs.Misses cwd vs dir ∨
        (∀ name, fs.IsFileAt (dir ++ [name]) → ∃! p, fs.IsReturned cwd vs dir name p) ∧
        ∀ name target, fs.EntryLeads dir name target → fs.IsFileAt target →
          (∃! p, fs.IsReturned cwd vs dir name p) ∨
            ∃ v ∈ vs, fs.locate cwd (Path.parent v.path) = .ok dir ∧ Path.base v.path = name.text ∧
              (fs.locate cwd v.path = .error (.system .tooManyLinks v.path) ∨ ¬ v.path.IsShort)) := by
  obtain ⟨top, ht, hn⟩ := locate_of_list h
  rcases walk_cases ht hn levels with hw | hw
  · exact Or.inl ⟨hw, exists_of_walk_eq_tooDeep hw⟩
  refine Or.inr ⟨_, top, hw, ht, ?_, pairwise_files hw hshort, ?_, ?_⟩
  · intro p hp
    obtain ⟨loc, ha, hf⟩ := exists_arrives_of_mem_files hw hp
    exact ⟨loc, hf, ha, ha.locate_eq⟩
  · intro hs dir name target hr hn he hf
    obtain ⟨q, hv⟩ := exists_entered_of_reached hw hshort ht hs hr hn
    exact existsUnique_returned hw hshort hv
      (mem_files_entry hw hv (locate_entry_of_linksSuffice hw hs hv he) hf he.exists_node)
  · intro dir hb
    rcases exists_entered_of_beneath hw hshort ht hb with ⟨q, hv⟩ | hmiss
    case inr => exact Or.inl hmiss
    refine Or.inr ⟨fun name hf => existsUnique_returned hw hshort hv (mem_files_of_isFileAt hw hv hf), ?_⟩
    intro name target he hf
    have hlookup := locate_join_of_entryLeads (locate_of_entered hw hv) he
    rcases hlookup with hl | hrefused
    · exact Or.inl (existsUnique_returned hw hshort hv (mem_files_entry hw hv hl hf he.exists_node))
    · obtain ⟨v, hv', hp⟩ := exists_visit_entry hw hv he.exists_node
      have hq : Path.IsTidy q := isTidy_of_walk hw hv
      refine Or.inr ⟨v, hv', ?_, ?_, hp.symm ▸ hrefused⟩
      · rw [hp, Path.parent_join hq]
        exact locate_of_entered hw hv
      · rw [hp, Path.base_join hq.1]

/-! ## What is missed -/

/-- A package whose directory `z` is first entered by `a`, through forty links. The link `f` in it would be
the forty-first. -/
def decoys : FileSystem := empty.plantAll [] [
  ⟨[.literal "pkg", .literal "a"], .link ((List.replicate 39 (text "l/")).flatten ++ text "z")⟩,
  ⟨[.literal "pkg", .literal "l"], .link (text ".")⟩,
  ⟨[.literal "pkg", .literal "real"], .file true []⟩,
  ⟨[.literal "pkg", .literal "z", .literal "f"], .link (text "../real")⟩]

set_option maxRecDepth 20000 in
theorem walk_decoys : decoys.walk 1 [] (text "/pkg") = .ok [
    .entered (text "/pkg") [.literal "pkg"], .entered (text "/pkg/a") [.literal "pkg", .literal "z"],
    .special (text "/pkg/a/f"), .revisited (text "/pkg/l"), .file (text "/pkg/real"), .revisited (text "/pkg/z")] := by
  cbv

theorem locate_decoys :
    decoys.locate [] (Path.absolute [] (text "/pkg")) = .ok [.literal "pkg"] := by cbv

theorem walk_covers_decoys : (decoys.list [] (Path.absolute [] (text "/pkg"))).isOk = true ∧ decoys.HasShortLinks ∧
    ∃ vs, decoys.walk 1 [] (text "/pkg") = .ok vs ∧
      ∃! p, decoys.IsReturned [] vs [.literal "pkg"] (.literal "real") p := by
  have h : (decoys.list [] (Path.absolute [] (text "/pkg"))).isOk = true := by decide +kernel
  have hshort : decoys.HasShortLinks := by decide +kernel
  rcases walk_covers decoys 1 [] (text "/pkg") h hshort with ⟨hw, -⟩ | ⟨vs, top, hw, ht, -, -, -, hd⟩
  · cases walk_decoys.symm.trans hw
  cases walk_decoys.symm.trans hw
  rw [locate_decoys] at ht
  cases ht
  rcases hd _ (.top (by cbv)) with ⟨_, _, p, hp, -⟩ | ⟨hfiles, -⟩
  · cases hp
  · exact ⟨h, hshort, _, walk_decoys, hfiles _ ⟨true, [], by cbv⟩⟩

/-- **A link to a regular file is not returned** if its directory was entered through too many links, even
though that directory lies beneath the root. -/
theorem walk_misses_link : ¬ ∀ (fs : FileSystem) (levels : ℕ) (cwd : Location) (root : Path) (vs : List Visit)
    (top dir : Location) (name : FileName) (target : Location), fs.walk levels cwd root = .ok vs →
    fs.locate cwd (Path.absolute cwd root) = .ok top → fs.Beneath top dir →
    fs.EntryLeads dir name target → fs.IsFileAt target → ∃! p, fs.IsReturned cwd vs dir name p := by
  intro h
  have hb : decoys.Beneath [.literal "pkg"] [.literal "pkg", .literal "z"] :=
    @Beneath.entry decoys _ [.literal "pkg"] (.literal "z") (.top (by cbv)) (by cbv)
  have he : decoys.followLinks .examine 1 [.literal "pkg", .literal "z"] [.down (text "f")] false =
      .ok (.entry [.literal "pkg", .literal "real"]) := by cbv
  obtain ⟨k, -, hk⟩ := exists_leads (by simp) he
  obtain ⟨p, hp, -⟩ := h decoys 1 [] (text "/pkg") _ _ _ (.literal "f") _ walk_decoys locate_decoys hb ⟨k, hk⟩
    ⟨true, [], by cbv⟩
  have hr : p ∈ [text "/pkg/real"] := hp.1
  rw [List.mem_singleton] at hr
  exact absurd (hr ▸ hp.2.2) (by decide)

end ExtensionAudit.FileSystem
