import ExtensionAudit.Proofs.Walk.Visits

/-!
# The walk of a root

A walk of a root that can be listed makes its visits, or it comes to a directory that lies too deep.

* `FileSystem.openDirectory_eq_ok_iff`, `FileSystem.list_eq_error`: directories that can be listed;
* `FileSystem.sound_outset`, `FileSystem.walk_eq_ok_iff`: the walk of a root and its visits;
* `FileSystem.exists_beneath`, **`FileSystem.exists_of_walk_eq_tooDeep`**: how deep is too deep;
* `FileSystem.isShort_of_mem_visitsOf`: paths are short in walks of few levels;
* `FileSystem.walkFiles_of_walk`, `FileSystem.walkFiles_eq_ok`: the files that are found;
* `Visit.directory?`, **`FileSystem.pairwise_directory?`**: no directory is listed twice where links are short.
-/

namespace ExtensionAudit

namespace FileSystem

variable {fs : FileSystem} {levels : ℕ} {cwd : Location} {root : Path} {vs : List Visit} {p : Path} {top : Location}

/-! ## Directories that can be listed -/

theorem openDirectory_eq_ok_iff : fs.openDirectory cwd p = .ok top ↔
    fs.locate cwd p = .ok top ∧ fs.node? top = some (.directory .listing) := by
  unfold openDirectory
  constructor
  · intro h
    split at h
    · cases h
    next hl =>
    split at h <;> cases h
    next hn => exact ⟨hl, hn⟩
  · rintro ⟨hl, hn⟩
    simp only [hl, hn]

theorem list_eq_ok_iff {names : List FileName} : fs.list cwd p = .ok names ↔
    ∃ top, fs.locate cwd p = .ok top ∧ fs.node? top = some (.directory .listing) ∧ names = fs.names top := by
  unfold list
  constructor
  · intro h
    split at h
    · cases h
    next top ho =>
    obtain ⟨hl, hn⟩ := openDirectory_eq_ok_iff.mp ho
    exact ⟨top, hl, hn, by cases h; rfl⟩
  · rintro ⟨top, hl, hn, rfl⟩
    rw [openDirectory_eq_ok_iff.mpr ⟨hl, hn⟩]

theorem list_of_locate (hl : fs.locate cwd p = .ok top) (hn : fs.node? top = some (.directory .listing)) :
    fs.list cwd p = .ok (fs.names top) :=
  list_eq_ok_iff.mpr ⟨top, hl, hn, rfl⟩

theorem locate_of_list (h : (fs.list cwd p).isOk = true) :
    ∃ top, fs.locate cwd p = .ok top ∧ fs.node? top = some (.directory .listing) := by
  cases hl : fs.list cwd p with
  | error e => rw [hl] at h; cases h
  | ok names =>
    obtain ⟨top, hl, hn, -⟩ := list_eq_ok_iff.mp hl
    exact ⟨top, hl, hn⟩

theorem list_eq_error {e : Failure} (h : fs.list cwd p = .error e) :
    (nul ∈ p ∧ e = .nulInPath) ∨ ∃ error, e = .system error p := by
  unfold list openDirectory at h
  cases hl : fs.locate cwd p with
  | error e' =>
    rw [hl] at h
    cases h
    rcases locate_eq_error hl with ⟨hz, rfl⟩ | ⟨error, -, rfl⟩
    · exact Or.inl ⟨hz, rfl⟩
    · exact Or.inr ⟨error, rfl⟩
  | ok loc =>
    simp only [hl] at h
    split at h <;> cases h
    next hopen =>
    split at hopen <;> cases hopen
    · exact Or.inr ⟨_, rfl⟩
    · exact Or.inr ⟨_, rfl⟩

/-- The directory refuses to be listed. -/
def RefusesListing (fs : FileSystem) (dir : Location) : Prop :=
  ∃ access, fs.node? dir = some (.directory access) ∧ access ≠ .listing

theorem RefusesListing.node?_ne {dir : Location} (h : fs.RefusesListing dir) :
    fs.node? dir ≠ some (.directory .listing) := by
  obtain ⟨access, hn, hne⟩ := h
  rintro hn'
  cases hn.symm.trans hn'
  exact hne rfl

/-! ## The walk and its visits -/

theorem outset_of_locate (hl : fs.locate cwd p = .ok top) : fs.outset levels cwd p = [⟨p, top, levels + 1⟩] := by
  rw [outset, hl]

theorem sound_outset : ∀ e ∈ fs.outset levels cwd (Path.absolute cwd root), e.Sound fs cwd := by
  intro e he
  unfold outset at he
  split at he
  · cases he
  · next top hl =>
    rw [List.mem_singleton] at he
    exact he ▸ .root hl

theorem walk_eq_ok_iff : fs.walk levels cwd root = .ok vs ↔
    (∃ top, fs.locate cwd (Path.absolute cwd root) = .ok top ∧ fs.node? top = some (.directory .listing)) ∧
      vs = fs.visitsOf levels cwd root ∧ ∀ v ∈ vs, v.isTooDeep = false := by
  unfold walk
  constructor
  · intro h
    split at h
    · cases h
    next hl =>
    simp only at h
    split at h
    · cases h
    next hany =>
    cases h
    refine ⟨locate_of_list (by rw [hl]; rfl), rfl, fun v hv => ?_⟩
    rw [← Bool.not_eq_true]
    exact fun hd => hany (List.any_eq_true.mpr ⟨v, hv, hd⟩)
  · rintro ⟨⟨top, hl, hn⟩, rfl, hdeep⟩
    rw [list_of_locate hl hn]
    exact if_neg (by simpa using hdeep)

theorem walk_cases (hl : fs.locate cwd (Path.absolute cwd root) = .ok top)
    (hn : fs.node? top = some (.directory .listing)) (levels : ℕ) :
    fs.walk levels cwd root = .error .tooDeep ∨ fs.walk levels cwd root = .ok (fs.visitsOf levels cwd root) := by
  unfold walk
  rw [list_of_locate hl hn]
  simp only
  split
  · exact Or.inl rfl
  · exact Or.inr rfl

theorem walk_eq_tooDeep_iff : fs.walk levels cwd root = .error .tooDeep ↔
    (fs.list cwd (Path.absolute cwd root)).isOk = true ∧ ∃ v ∈ fs.visitsOf levels cwd root, v.isTooDeep = true := by
  unfold walk
  cases hl : fs.list cwd (Path.absolute cwd root) with
  | error e =>
    have hne : e ≠ .tooDeep := by
      rintro rfl
      rcases list_eq_error hl with ⟨-, h⟩ | ⟨_, h⟩ <;> cases h
    simp [hne, Except.isOk, Except.toBool]
  | ok names => simp [Except.isOk, Except.toBool]

/-! ## How deep a walk goes -/

/-- **Each visited path is that of an entry below the root.** One that is too deep has as many names below it as there
are levels. -/
theorem exists_beneath {n : ℕ} (visited : List Path) {pending : List Pending} (hp : ∀ e ∈ pending, e.Sound fs cwd)
    (hb : ∀ e ∈ pending, ∃ rel, e.path = Path.beneath root rel ∧ rel.length + e.levels = n) :
    ∀ v ∈ fs.visits cwd visited pending, ∃ rel, v.path = Path.beneath root rel ∧ rel.length ≤ n ∧
      (v.isTooDeep = true → rel.length = n ∧ ∃ loc, fs.Arrives cwd v.path loc ∧ fs.isDirectory loc = true) := by
  refine visits_induction (motive := fun _ pending vs =>
    (∀ e ∈ pending, ∃ rel, e.path = Path.beneath root rel ∧ rel.length + e.levels = n) →
    ∀ v ∈ vs, ∃ rel, v.path = Path.beneath root rel ∧ rel.length ≤ n ∧
      (v.isTooDeep = true → rel.length = n ∧ ∃ loc, fs.Arrives cwd v.path loc ∧ fs.isDirectory loc = true))
    (fun _ _ => List.forall_mem_nil _) ?_ visited pending hp hb
  intro visited e v visited' next pending rest he hs ih hb
  obtain ⟨⟨rel, hrel, hn⟩, hb⟩ := List.forall_mem_cons.mp hb
  refine List.forall_mem_cons.mpr ⟨⟨rel, hs.path_eq.trans hrel, by omega, ?_⟩, ih (List.forall_mem_append.mpr ⟨?_, hb⟩)⟩
  · intro hdeep
    cases hs with
    | tooDeep hx hd =>
      obtain ⟨loc, ha, hloc⟩ := he.exists_arrives hx
      exact ⟨by omega, loc, ha, isDirectory_iff.mpr ⟨_, hloc⟩⟩
    | _ => cases hdeep
  · cases hs with
    | entered _ hd =>
      intro e' he'
      obtain ⟨name, -, rfl⟩ := List.mem_map.mp he'
      refine ⟨rel ++ [name], by rw [Path.beneath_concat, hrel], ?_⟩
      rw [List.length_append, List.length_singleton]
      simp only
      omega
    | _ => exact List.forall_mem_nil _

variable (fs levels cwd root) in
theorem exists_beneath_of_visitsOf : ∀ v ∈ fs.visitsOf levels cwd root, ∃ rel,
    v.path = Path.beneath (Path.absolute cwd root) rel ∧ rel.length ≤ levels + 1 ∧
      (v.isTooDeep = true → rel.length = levels + 1 ∧
        ∃ loc, fs.Arrives cwd v.path loc ∧ fs.isDirectory loc = true) := by
  refine exists_beneath [] sound_outset fun e he => ?_
  unfold outset at he
  split at he
  · cases he
  · obtain rfl := List.mem_singleton.mp he
    exact ⟨[], rfl, Nat.zero_add _⟩

/-- **Paths are short in walks of few levels.** -/
theorem isShort_of_mem_visitsOf (h : Utf8.size (Path.absolute cwd root) +
    (levels + 1) * (maxNameBytes + 1) < maxPathBytes) :
    ∀ v ∈ fs.visitsOf levels cwd root, v.path.IsShort := by
  intro v hv
  obtain ⟨rel, hrel, hlen, -⟩ := exists_beneath_of_visitsOf fs levels cwd root v hv
  have hsize := Path.size_beneath_le (Path.absolute cwd root) rel
  have hmul := Nat.mul_le_mul_right (maxNameBytes + 1) hlen
  rw [hrel, Path.IsShort]
  omega

/-- **A walk that is too deep** came to a directory with more names below the root than there are levels. -/
theorem exists_of_walk_eq_tooDeep (h : fs.walk levels cwd root = .error .tooDeep) :
    ∃ rel loc, rel.length = levels + 1 ∧ fs.Arrives cwd (Path.beneath (Path.absolute cwd root) rel) loc ∧
      fs.isDirectory loc = true := by
  obtain ⟨-, v, hv, hdeep⟩ := walk_eq_tooDeep_iff.mp h
  obtain ⟨rel, hrel, -, hd⟩ := exists_beneath_of_visitsOf fs levels cwd root v hv
  obtain ⟨hlen, loc, ha, hloc⟩ := hd hdeep
  exact ⟨rel, loc, hlen, hrel ▸ ha, hloc⟩

/-! ## The files that are found -/

theorem untilTooDeep_eq (h : ∀ v ∈ vs, v.isTooDeep = false) : Visit.untilTooDeep vs = vs :=
  List.takeWhile_eq_self_iff.mpr fun v hv => by rw [h v hv]; rfl

theorem walked_of_walk (h : fs.walk levels cwd root = .ok vs) : fs.walked levels cwd root = vs := by
  obtain ⟨⟨top, hl, hn⟩, rfl, hdeep⟩ := walk_eq_ok_iff.mp h
  rw [walked, list_of_locate hl hn]
  exact untilTooDeep_eq hdeep

theorem walkFiles_of_walk (h : fs.walk levels cwd root = .ok vs) (reporting : Bool) :
    fs.walkFiles levels cwd root reporting =
      if reporting then (Visit.failures vs, .ok (Visit.files vs))
      else ([], match Visit.failures vs with
        | [] => .ok (Visit.files vs)
        | e :: _ => .error e) := by
  have hwalked := walked_of_walk h
  cases reporting with
  | true => simp only [walkFiles, if_true, hwalked, h, Except.map]
  | false =>
    obtain ⟨⟨top, hl, hn⟩, rfl, hdeep⟩ := walk_eq_ok_iff.mp h
    have hending : ∀ v ∈ fs.visitsOf levels cwd root, v.ending? = v.failure? := by
      intro v hv
      rw [Visit.ending?, hdeep v hv]
      rfl
    have hfirst : (fs.visitsOf levels cwd root).findSome? Visit.ending? =
        (Visit.failures (fs.visitsOf levels cwd root)).head? := by
      rw [← List.head?_filterMap, List.filterMap_congr hending]
      rfl
    simp only [walkFiles, list_of_locate hl hn, Visit.untilFailure, hfirst, Bool.false_eq_true, if_false]
    cases hf : Visit.failures (fs.visitsOf levels cwd root) with
    | cons e rest => rfl
    | nil =>
      rw [hf] at hfirst
      have hall : (fs.visitsOf levels cwd root).takeWhile (fun v => v.ending?.isNone) = fs.visitsOf levels cwd root :=
        List.takeWhile_eq_self_iff.mpr fun v hv => by rw [List.findSome?_eq_none_iff.mp hfirst v hv]; rfl
      simp only [List.head?_nil, hall]

theorem walkFiles_eq_ok {reporting : Bool} {errors : List Failure} {files : List Path}
    (h : fs.walkFiles levels cwd root reporting = (errors, .ok files)) :
    ∃ vs, fs.walk levels cwd root = .ok vs ∧ files = Visit.files vs := by
  have hwalk : ∃ vs, fs.walk levels cwd root = .ok vs := by
    cases hw : fs.walk levels cwd root with
    | ok vs => exact ⟨vs, rfl⟩
    | error e =>
      unfold walkFiles at h
      split at h
      · rw [hw] at h
        cases h
      split at h
      · cases h
      next names hlist =>
      split at h
      next visits hv =>
        obtain ⟨top, hl, hn, -⟩ := list_eq_ok_iff.mp hlist
        refine ⟨fs.visitsOf levels cwd root, ?_⟩
        rw [← hw]
        refine walk_eq_ok_iff.mpr ⟨⟨top, hl, hn⟩, rfl, fun v hv' => ?_⟩
        have hnone := List.findSome?_eq_none_iff.mp (congrArg Prod.snd hv) v hv'
        by_contra hdeep
        rw [Visit.ending?, if_pos (by simpa using hdeep)] at hnone
        cases hnone
      · cases h
  obtain ⟨vs, hw⟩ := hwalk
  refine ⟨vs, hw, ?_⟩
  rw [walkFiles_of_walk hw] at h
  split at h
  · cases h
    rfl
  · cases hf : Visit.failures vs with
    | nil => rw [hf] at h; cases h; rfl
    | cons e rest => rw [hf] at h; cases h

end FileSystem

/-! ## Where the paths of links are short -/

/-- The directory that a visit lists, or that refuses to be listed. -/
def Visit.directory? : Visit → Option Location
  | .entered _ loc => some loc
  | .refused _ loc => some loc
  | _ => none

namespace FileSystem

variable {fs : FileSystem} {cwd : Location}

theorem locate_of_directory? (visited : List Path) {pending : List Pending} (hp : ∀ e ∈ pending, e.Sound fs cwd)
    {v : Visit} (hv : v ∈ fs.visits cwd visited pending) {loc : Location} (h : v.directory? = some loc) :
    fs.locate cwd v.path = .ok loc ∧ fs.isDirectory loc = true ∧ v.path ∈ Visit.tried [v] := by
  obtain ⟨e, _, _, _, -, -, hs⟩ := exists_step visited hp v hv
  rw [isDirectory_iff]
  cases hs with
  | entered _ _ _ hl hn => cases h; exact ⟨hl, ⟨_, hn⟩, List.mem_singleton_self _⟩
  | refused _ _ _ hl hn => cases h; exact ⟨hl, ⟨_, hn⟩, List.mem_singleton_self _⟩
  | _ => cases h

theorem exists_arrives_of_tried (visited : List Path) {pending : List Pending} (hp : ∀ e ∈ pending, e.Sound fs cwd)
    {q : Path} (hq : q ∈ Visit.tried (fs.visits cwd visited pending)) :
    Path.isAbsolute q = true ∧ ∃ loc ∈ fs.directories, fs.Arrives cwd q loc := by
  obtain ⟨v, hv, hq⟩ := List.mem_filterMap.mp hq
  obtain ⟨e, _, _, _, he, hpath, hs⟩ := exists_step visited hp v hv
  have key : ∀ {access : Access}, fs.examineEntry cwd e.entry e.path = .ok (.directory access) →
      Path.isAbsolute e.path = true ∧ ∃ loc ∈ fs.directories, fs.Arrives cwd e.path loc := by
    intro access hx
    obtain ⟨loc, ha, hn⟩ := he.exists_arrives hx
    exact ⟨he.isAbsolute, loc, mem_directories.mpr (isDirectory_iff.mpr ⟨_, hn⟩), ha⟩
  cases hs with
  | entered hx | refused hx | unreached hx => cases hq; exact key hx
  | _ => cases hq

/-- **No two visits of a walk list the same directory**, or try to, where the path of every link is short. -/
theorem pairwise_directory? (hshort : fs.HasShortLinks) (visited : List Path) {pending : List Pending}
    (hp : ∀ e ∈ pending, e.Sound fs cwd) : (fs.visits cwd visited pending).Pairwise fun v v' =>
      ∀ loc, v.directory? = some loc → v'.directory? ≠ some loc := by
  have hn := (nodup_tried visited hp).1
  rw [List.Nodup, List.pairwise_map, Visit.tried, List.pairwise_filterMap] at hn
  refine hn.imp_of_mem fun {v v'} hv hv' hne loc h h' => ?_
  have hkey : ∀ {v : Visit}, v ∈ fs.visits cwd visited pending → v.directory? = some loc →
      fs.realPath v.path = Path.ofLocation loc := by
    intro v hv h
    obtain ⟨hl, -, htried⟩ := locate_of_directory? visited hp hv h
    obtain ⟨e, _, _, _, he, hpath, -⟩ := exists_step visited hp v hv
    exact realPath_eq hshort (hpath ▸ he.isAbsolute) (arrives_of_locate hl)
  have hpath := (hkey hv h).trans (hkey hv' h').symm
  cases v <;> cases h <;> cases v' <;> cases h' <;> exact hne _ rfl _ rfl hpath

end FileSystem

end ExtensionAudit
