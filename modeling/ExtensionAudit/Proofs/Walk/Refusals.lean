import Mathlib
import ExtensionAudit.Proofs.Walk.Coverage
import ExtensionAudit.Proofs.Walk.Emptied
import ExtensionAudit.Proofs.Walk.Ending

/-!
# Directories that cannot be listed

A walk comes to a directory below its root that cannot be listed. It reports that and goes on, or it ends there and
then. Either way it does the same up to there; and a walk that goes on finds the files that it would find if there
were nothing to be listed in these directories. That is not to say that they are empty: such a directory may let paths
through, and then a link may lead to a file in it.

* `FileSystem.FindsDirectory`: a directory is found at a path;
* `FileSystem.ComesToFailure`, **`FileSystem.failure?_iff`**: where a failure is reported;
* `FileSystem.exists_failing`: the directories that are reported;
* `FileSystem.visitsBlanking`, **`FileSystem.visitsBlanking_refusedPaths`**: a walk by other listings;
* **`FileSystem.walkFiles_agree`**: the two ways to deal with a failure;
* `FileSystem.walkFiles_through_refusal`: a file that is found in a directory that cannot be listed.
-/

namespace ExtensionAudit

/-! ## Visits -/

namespace Visit

/-- The directories that refuse to be listed, in order. -/
def refusedDirectories (visits : List Visit) : List Location :=
  visits.filterMap fun
    | .refused _ loc => some loc
    | _ => none

variable {vs : List Visit}

theorem mem_refusedDirectories {dir : Location} : dir ∈ refusedDirectories vs ↔ ∃ p, .refused p dir ∈ vs := by
  rw [refusedDirectories, List.mem_filterMap]
  constructor
  · rintro ⟨v, hv, h⟩
    cases v <;> cases h
    exact ⟨_, hv⟩
  · rintro ⟨p, hp⟩
    exact ⟨_, hp, rfl⟩

theorem mem_refusedPaths {v : Visit} {e : Failure} (hv : v ∈ vs) (h : v.failure? = some e) :
    v.path ∈ refusedPaths vs := by
  refine List.mem_filterMap.mpr ⟨v, hv, ?_⟩
  cases v <;> cases h <;> rfl

theorem files_map_allowed (dirs : List Location) : files (vs.map (allowed dirs)) = files vs := by
  rw [files, List.filterMap_map]
  refine List.filterMap_congr fun v _ => ?_
  cases v with
  | refused p dir =>
    by_cases hd : dir ∈ dirs <;> simp [allowed, hd]
  | _ => rfl

theorem failures_map_allowed {dirs : List Location} (h : ∀ dir ∈ refusedDirectories vs, dir ∈ dirs)
    (hreached : ∀ v ∈ vs, ∀ p failure, v ≠ .unreached p failure) : failures (vs.map (allowed dirs)) = [] := by
  rw [failures, List.filterMap_map, List.filterMap_eq_nil_iff]
  intro v hv
  cases v with
  | refused p dir =>
    have hd := h dir (mem_refusedDirectories.mpr ⟨p, hv⟩)
    simp only [Function.comp_apply, allowed, if_pos hd, failure?]
  | unreached p failure => exact absurd rfl (hreached _ hv p failure)
  | _ => rfl

theorem isTooDeep_allowed (dirs : List Location) (v : Visit) : (v.allowed dirs).isTooDeep = v.isTooDeep := by
  cases v with
  | refused p dir => by_cases hd : dir ∈ dirs <;> simp [allowed, hd, isTooDeep]
  | _ => rfl

end Visit

namespace FileSystem

variable {fs : FileSystem} {levels : ℕ} {cwd : Location} {root : Path} {vs : List Visit}

/-! ## What is reported -/

/-- **A directory is found at a path**: the path leads there, or it is too long to be looked up, and the entry at its
end is that directory. -/
def FindsDirectory (fs : FileSystem) (cwd : Location) (p : Path) (dir : Location) : Prop :=
  fs.isDirectory dir = true ∧ (fs.locate cwd p = .ok dir ∨
    ¬ p.IsShort ∧ ∃ above name, fs.locate cwd (Path.parent p) = .ok above ∧ Path.base p = FileName.text name ∧
      dir = above ++ [name])

/-- A directory is found at a path where it cannot be listed, and was found at no path that was visited before. -/
structure ComesToFailure (fs : FileSystem) (cwd : Location) (before : List Visit) (p : Path) (dir : Location)
    (e : Failure) : Prop where
  finds : fs.FindsDirectory cwd p dir
  fails : fs.list cwd p = .error e
  first : ∀ u ∈ before, ¬ fs.FindsDirectory cwd u.path dir

theorem findsDirectory_iff {e : Pending} (he : e.Sound fs cwd) {dir : Location} :
    fs.FindsDirectory cwd e.path dir ↔ (∃ access, fs.examineEntry cwd e.entry e.path = .ok (.directory access)) ∧
      fs.Arrives cwd e.path dir := by
  constructor
  · rintro ⟨hd, hl | ⟨hlong, above, name, hl, hbase, rfl⟩⟩
    · obtain ⟨access, hn⟩ := isDirectory_iff.mp hd
      refine ⟨⟨access, ?_⟩, arrives_of_locate hl⟩
      rw [he.examineEntry_eq_stat (isShort_of_locate hl), stat_of_locate hl hn]
    · cases he with
      | root h => exact absurd (isShort_of_locate h) hlong
      | entry ha ht h hpass hn =>
        rw [Path.parent_join ht, h] at hl
        rw [Path.base_join ht.1] at hbase
        cases hl
        cases FileName.text_injective hbase
        obtain ⟨access, hn⟩ := isDirectory_iff.mp hd
        exact ⟨⟨access, by simp only [examineEntry, hn]⟩, (arrives_of_locate h).join hpass hn (by simp)⟩
  · rintro ⟨⟨access, hx⟩, ha⟩
    obtain ⟨loc, ha', hn⟩ := he.exists_arrives hx
    obtain rfl := ha.unique ha'
    refine ⟨isDirectory_iff.mpr ⟨access, hn⟩, ?_⟩
    by_cases hs : e.path.IsShort
    · exact Or.inl (ha.locate_eq hs)
    -- no link is examined at a path that is too long
    refine Or.inr ⟨hs, ?_⟩
    cases he with
    | root h => exact absurd (isShort_of_locate h) hs
    | @entry p above name _ _ ht h hpass hentry =>
      refine ⟨above, name, by rw [Path.parent_join ht, h], Path.base_join ht.1 name, ?_⟩
      obtain ⟨node, hentry⟩ := hentry
      cases node with
      | link target =>
        simp only [examineEntry, hentry] at hx
        obtain ⟨_, hl, -⟩ := exists_locate_of_stat hx
        exact absurd (isShort_of_locate hl) hs
      | _ => exact ha.unique ((arrives_of_locate h).join hpass hentry (by simp))

theorem exists_of_forall₂ {α β : Type*} {R : α → β → Prop} {as : List α} {bs : List β} (h : List.Forall₂ R as bs) :
    ∀ a ∈ as, ∃ b ∈ bs, R a b := by
  induction h with
  | nil => exact List.forall_mem_nil _
  | cons hab _ ih =>
    exact List.forall_mem_cons.mpr ⟨⟨_, List.mem_cons_self .., hab⟩, fun a ha =>
      (ih a ha).imp fun b hb => ⟨List.mem_cons_of_mem _ hb.1, hb.2⟩⟩

section Short

variable (hshort : fs.HasShortLinks)
include hshort

theorem VisitStep.mem_visited_iff {visited visited' : List Path} {e : Pending} {v : Visit} {next : List Pending}
    (he : e.Sound fs cwd) (hv : v.isTooDeep = false) (h : fs.VisitStep cwd visited e v visited' next) {dir : Location} :
    Path.ofLocation dir ∈ visited' ↔ fs.FindsDirectory cwd e.path dir ∨ Path.ofLocation dir ∈ visited := by
  have hkey : fs.FindsDirectory cwd e.path dir → fs.realPath e.path = Path.ofLocation dir :=
    fun hd => realPath_eq hshort he.isAbsolute ((findsDirectory_iff he).mp hd).2
  -- where a directory is tried, its real path is met
  have htried : ∀ {access : Access}, fs.examineEntry cwd e.entry e.path = .ok (.directory access) →
      (Path.ofLocation dir ∈ fs.realPath e.path :: visited ↔
        fs.FindsDirectory cwd e.path dir ∨ Path.ofLocation dir ∈ visited) := by
    intro access hx
    rw [List.mem_cons]
    refine or_congr ⟨fun heq => ?_, fun hd => (hkey hd).symm⟩ Iff.rfl
    obtain ⟨loc, ha, -⟩ := he.exists_arrives hx
    rw [realPath_eq hshort he.isAbsolute ha] at heq
    exact (findsDirectory_iff he).mpr ⟨⟨access, hx⟩, Path.ofLocation_injective heq ▸ ha⟩
  have hnone : (¬ ∃ access, fs.examineEntry cwd e.entry e.path = .ok (.directory access)) →
      (Path.ofLocation dir ∈ visited ↔ fs.FindsDirectory cwd e.path dir ∨ Path.ofLocation dir ∈ visited) :=
    fun hx => (or_iff_right fun hd => hx ((findsDirectory_iff he).mp hd).1).symm
  cases h with
  | entered hx | refused hx | unreached hx => exact htried hx
  | revisited _ _ hmet => exact (or_iff_right_of_imp fun hd => hkey hd ▸ hmet).symm
  | tooDeep => cases hv
  | file hx =>
    refine hnone ?_
    rintro ⟨access, hx'⟩
    cases hx.symm.trans hx'
  | special hx =>
    refine hnone ?_
    rintro ⟨access, hx'⟩
    cases (hx _ hx').1

theorem exists_step_at (visited : List Path) {pending : List Pending} (hp : ∀ e ∈ pending, e.Sound fs cwd)
    {before after : List Visit} {v : Visit} (h : fs.visits cwd visited pending = before ++ v :: after)
    (hdeep : ∀ u ∈ before, u.isTooDeep = false) :
    ∃ (e : Pending) (now visited' : List Path) (next : List Pending), e.Sound fs cwd ∧ e.path = v.path ∧
      fs.VisitStep cwd now e v visited' next ∧ ∀ dir, Path.ofLocation dir ∈ now ↔
        (∃ u ∈ before, fs.FindsDirectory cwd u.path dir) ∨ Path.ofLocation dir ∈ visited := by
  refine visits_induction (motive := fun visited _ vs => ∀ before, vs = before ++ v :: after →
    (∀ u ∈ before, u.isTooDeep = false) →
    ∃ (e : Pending) (now visited' : List Path) (next : List Pending), e.Sound fs cwd ∧ e.path = v.path ∧
      fs.VisitStep cwd now e v visited' next ∧ ∀ dir, Path.ofLocation dir ∈ now ↔
        (∃ u ∈ before, fs.FindsDirectory cwd u.path dir) ∨ Path.ofLocation dir ∈ visited)
    ?_ ?_ visited pending hp before h hdeep
  · intro _ before h
    simp at h
  intro visited e u visited' next pending rest he hs ih before h hdeep
  cases before with
  | nil =>
    obtain ⟨rfl, -⟩ := List.cons_eq_cons.mp h
    exact ⟨e, visited, visited', next, he, hs.path_eq.symm, hs, fun dir => by simp⟩
  | cons w before =>
    rw [List.cons_append, List.cons_eq_cons] at h
    obtain ⟨rfl, h⟩ := h
    obtain ⟨hu, hdeep⟩ := List.forall_mem_cons.mp hdeep
    obtain ⟨e', now, now', next', he', hpath, hs', hnow⟩ := ih before h hdeep
    refine ⟨e', now, now', next', he', hpath, hs', fun dir => ?_⟩
    rw [hnow dir, hs.mem_visited_iff hshort he hu, ← hs.path_eq, List.exists_mem_cons_iff, or_assoc, or_left_comm]

section Walk

variable (hw : fs.walk levels cwd root = .ok vs)
include hw

/-- **A failure is reported where a walk first finds a directory and cannot list it**, and nowhere else. -/
theorem failure?_iff {before after : List Visit} {v : Visit} (h : vs = before ++ v :: after) (e : Failure) :
    v.failure? = some e ↔ ∃ dir, fs.ComesToFailure cwd before v.path dir e := by
  obtain ⟨-, hvs, hdeep⟩ := walk_eq_ok_iff.mp hw
  obtain ⟨hbefore, hv, -⟩ : (∀ u ∈ before, u.isTooDeep = false) ∧ v.isTooDeep = false ∧ _ := by
    rwa [h, List.forall_mem_append, List.forall_mem_cons] at hdeep
  obtain ⟨e', now, visited', next, he, hpath, hs, hnow⟩ := exists_step_at hshort [] sound_outset
    (hvs.symm.trans h) hbefore
  simp only [List.not_mem_nil, or_false] at hnow
  -- the directory that is found has been met if it was found before
  have hkey : ∀ {dir}, fs.FindsDirectory cwd e'.path dir → fs.realPath e'.path = Path.ofLocation dir :=
    fun hd => realPath_eq hshort he.isAbsolute ((findsDirectory_iff he).mp hd).2
  have hfirst : ∀ {dir}, fs.FindsDirectory cwd e'.path dir → fs.realPath e'.path ∉ now →
      ∀ u ∈ before, ¬ fs.FindsDirectory cwd u.path dir := by
    intro dir hd hmet u hu hfinds
    rw [hkey hd, hnow dir] at hmet
    exact hmet ⟨u, hu, hfinds⟩
  rw [← hpath]
  constructor
  · intro hf
    cases hs with
    | refused hx _ hmet hl hn =>
      cases hf
      have hd := (findsDirectory_iff he).mpr ⟨⟨_, hx⟩, arrives_of_locate hl⟩
      exact ⟨_, hd, by simp only [list, openDirectory, hl, hn], hfirst hd hmet⟩
    | unreached hx _ hmet hl =>
      cases hf
      obtain ⟨loc, ha, -⟩ := he.exists_arrives hx
      have hd := (findsDirectory_iff he).mpr ⟨⟨_, hx⟩, ha⟩
      exact ⟨_, hd, by simp only [list, openDirectory, hl], hfirst hd hmet⟩
    | _ => cases hf
  · rintro ⟨dir, hd, hfails, hnone⟩
    obtain ⟨⟨access, hx⟩, ha⟩ := (findsDirectory_iff he).mp hd
    cases hs with
    | entered _ _ _ hl hn => rw [list_of_locate hl hn] at hfails; cases hfails
    | refused _ _ _ hl hn =>
      simp only [list, openDirectory, hl, hn] at hfails
      cases hfails
      rfl
    | unreached _ _ _ hl =>
      simp only [list, openDirectory, hl] at hfails
      cases hfails
      rfl
    | revisited _ _ hmet =>
      rw [hkey hd, hnow dir] at hmet
      obtain ⟨u, hu, hfinds⟩ := hmet
      exact absurd hfinds (hnone u hu)
    | tooDeep => cases hv
    | file hx' => cases hx.symm.trans hx'
    | special hx' => cases (hx' _ hx).1

/-- **The directories that are reported** are different ones, and any that refuses to be listed is one of them if it is
found at all. -/
theorem exists_failing : ∃ dirs, List.Forall₂ (fs.Arrives cwd) (Visit.refusedPaths vs) dirs ∧ dirs.Nodup ∧
    ∀ dir, fs.RefusesListing dir → (∃ v ∈ vs, fs.FindsDirectory cwd v.path dir) → dir ∈ dirs := by
  have hvs := (walk_eq_ok_iff.mp hw).2.1
  have hsub := Visit.refusedPaths_sublist_tried vs
  obtain ⟨dirs, harrives, hnodup, -⟩ := exists_forall₂_tried hshort
    ((hvs ▸ (nodup_tried [] sound_outset).1 : ((Visit.tried vs).map fs.realPath).Nodup).sublist (hsub.map _))
    fun q hq => exists_arrives_of_tried [] sound_outset (hvs ▸ hsub.subset hq)
  refine ⟨dirs, harrives, hnodup, fun dir hn hfound => ?_⟩
  -- the first visit that finds the directory fails
  classical
  obtain ⟨v, hv⟩ := Option.isSome_iff_exists.mp (List.find?_isSome.mpr
    (show ∃ v ∈ vs, decide (fs.FindsDirectory cwd v.path dir) = true by simpa using hfound))
  obtain ⟨hfinds, before, after, hsplit, hfirst⟩ := List.find?_eq_some_iff_append.mp hv
  have hd : fs.FindsDirectory cwd v.path dir := of_decide_eq_true hfinds
  have hmem : v ∈ vs := by rw [hsplit]; exact List.mem_append_right _ (List.mem_cons_self ..)
  obtain ⟨e, _, _, _, he, hpath, -⟩ := exists_step_of_walk hw hmem
  have ha : fs.Arrives cwd v.path dir := hpath ▸ ((findsDirectory_iff he).mp (hpath.symm ▸ hd)).2
  obtain ⟨failure, hfails⟩ : ∃ failure, fs.list cwd v.path = .error failure := by
    cases hl : fs.list cwd v.path with
    | error failure => exact ⟨failure, rfl⟩
    | ok names =>
      obtain ⟨loc, hloc, hlisted, -⟩ := list_eq_ok_iff.mp hl
      rw [(arrives_of_locate hloc).unique ha] at hlisted
      exact absurd hlisted hn.node?_ne
  have hfailure := (failure?_iff hshort hw hsplit failure).mpr
    ⟨dir, hd, hfails, fun u hu hu' => by simpa [hu'] using hfirst u hu⟩
  obtain ⟨dir', hdir', ha'⟩ := exists_of_forall₂ harrives _ (Visit.mem_refusedPaths hmem hfailure)
  exact ha'.unique ha ▸ hdir'

end Walk

end Short

/-! ## Listings -/

/-- The walk of some pending entries for which the directories at the paths `blank` have no entries. Paths lead where
they lead in the file system. -/
def visitsBlanking (fs : FileSystem) (cwd : Location) (blank : List Path)
    (visited : List Path) : List Pending → List Visit
  | [] => []
  | e :: pending =>
    match fs.examineEntry cwd e.entry e.path with
    | .ok (.directory _) =>
      match _h : e.levels with
      | 0 => .tooDeep e.path :: visitsBlanking fs cwd blank visited pending
      | levels + 1 =>
        let key := fs.realPath e.path
        if key ∈ visited then .revisited e.path :: visitsBlanking fs cwd blank visited pending
        else if e.path ∈ blank then .entered e.path e.entry :: visitsBlanking fs cwd blank (key :: visited) pending
        else match fs.locate cwd e.path with
          | .error failure => .unreached e.path failure :: visitsBlanking fs cwd blank (key :: visited) pending
          | .ok loc =>
            if fs.node? loc matches some (.directory .listing) then
              .entered e.path loc ::
                visitsBlanking fs cwd blank (key :: visited) (fs.pendingIn e.path loc levels ++ pending)
            else .refused e.path loc :: visitsBlanking fs cwd blank (key :: visited) pending
    | .ok (.file _ _) => .file e.path :: visitsBlanking fs cwd blank visited pending
    | _ => .special e.path :: visitsBlanking fs cwd blank visited pending
termination_by pending => fs.weight pending
decreasing_by
  all_goals first
    | exact weight_lt_cons fs e pending
    | exact weight_pendingIn_lt fs _ _ _ e pending _h

/-- A visit where a directory that cannot be listed may have been taken for an empty one. -/
inductive Visit.Blanked (blank : List Path) : Visit → Visit → Prop where
  | same {v : Visit} (h : v.path ∉ blank ∨ v.failure? = none) : Blanked blank v v
  | blank {v : Visit} {e : Failure} {entry : Location} (h : v.path ∈ blank) (hf : v.failure? = some e) :
      Blanked blank v (.entered v.path entry)

/-- **A walk for which some directories have no entries that cannot be listed** does what the walk does that cannot list
them, but for their failures. -/
theorem visitsBlanking_forall₂ (blank visited : List Path) {pending : List Pending}
    (hp : ∀ e ∈ pending, e.Sound fs cwd)
    (h : ∀ p dir, Visit.entered p dir ∈ fs.visits cwd visited pending → p ∉ blank) :
    List.Forall₂ (Visit.Blanked blank) (fs.visits cwd visited pending)
      (fs.visitsBlanking cwd blank visited pending) := by
  refine visits_induction (motive := fun visited pending vs => (∀ p dir, Visit.entered p dir ∈ vs → p ∉ blank) →
    List.Forall₂ (Visit.Blanked blank) vs (fs.visitsBlanking cwd blank visited pending)) ?_ ?_ visited pending hp h
  · intro visited _
    rw [visitsBlanking]
    exact .nil
  intro visited e v visited' next pending rest _ hs ih h
  have ih := ih fun p dir hm => h p dir (List.mem_cons_of_mem _ hm)
  obtain ⟨p, entry, levels⟩ := e
  rw [visitsBlanking]
  cases hs with
  | entered hx hd hmet hl hn =>
    cases hd
    have hblank := h p _ (List.mem_cons_self ..)
    simp only [hx, hmet, hblank, hl, hn, if_false, if_true]
    exact .cons (.same (Or.inr rfl)) ih
  | @refused _ refused _ _ hx hd hmet hl hn hne =>
    cases hd
    by_cases hblank : p ∈ blank
    · simp only [hx, hmet, hblank, if_false, if_true]
      exact .cons (.blank hblank rfl) ih
    cases refused with
    | listing => exact absurd rfl hne
    | _ =>
      simp only [hx, hmet, hblank, hl, hn, if_false, Bool.false_eq_true]
      exact .cons (.same (Or.inl hblank)) ih
  | unreached hx hd hmet hl =>
    cases hd
    by_cases hblank : p ∈ blank
    · simp only [hx, hmet, hblank, if_false, if_true]
      exact .cons (.blank hblank rfl) ih
    · simp only [hx, hmet, hblank, hl, if_false]
      exact .cons (.same (Or.inl hblank)) ih
  | revisited hx hd hmet =>
    cases hd
    simp only [hx, hmet, if_true]
    exact .cons (.same (Or.inr rfl)) ih
  | tooDeep hx hd =>
    cases hd
    simp only [hx]
    exact .cons (.same (Or.inr rfl)) ih
  | file hx =>
    simp only [hx]
    exact .cons (.same (Or.inr rfl)) ih
  | special hx =>
    split
    · next hx' => cases (hx _ hx').1
    · next hx' => cases (hx _ hx').2
    · exact .cons (.same (Or.inr rfl)) ih

theorem visitsBlanking_nil (visited : List Path) {pending : List Pending} (hp : ∀ e ∈ pending, e.Sound fs cwd) :
    fs.visitsBlanking cwd [] visited pending = fs.visits cwd visited pending := by
  refine (List.forall₂_eq_eq_eq ▸ (visitsBlanking_forall₂ [] visited hp (by simp)).imp fun v v' hv => ?_).symm
  cases hv with
  | same => rfl
  | blank h => cases h

section Blanked

variable {blank : List Path} {vs' : List Visit} (h : List.Forall₂ (Visit.Blanked blank) vs vs')
include h

theorem files_eq_of_blanked : Visit.files vs' = Visit.files vs := by
  induction h with
  | nil => rfl
  | @cons v v' vs vs' hv _ ih =>
    rw [Visit.files_cons v, Visit.files_cons v', ih]
    cases hv with
    | same => rfl
    | blank _ hf => cases v <;> cases hf <;> rfl

theorem failures_eq_nil_of_blanked (hblank : ∀ v ∈ vs, ∀ e, v.failure? = some e → v.path ∈ blank) :
    Visit.failures vs' = [] := by
  rw [Visit.failures, List.filterMap_eq_nil_iff]
  induction h with
  | nil => exact List.forall_mem_nil _
  | cons hv _ ih =>
    obtain ⟨hb, hblank⟩ := List.forall_mem_cons.mp hblank
    refine List.forall_mem_cons.mpr ⟨?_, ih hblank⟩
    cases hv with
    | same h => exact h.elim (fun hn => Option.eq_none_iff_forall_ne_some.mpr fun e he => hn (hb e he)) id
    | blank => rfl

end Blanked

/-- **A walk for which the directories have no entries that cannot be listed** finds the same files, and nothing
fails. -/
theorem visitsBlanking_refusedPaths (hw : fs.walk levels cwd root = .ok vs) :
    let vs' := fs.visitsBlanking cwd (Visit.refusedPaths vs) [] (fs.outset levels cwd (Path.absolute cwd root))
    Visit.failures vs' = [] ∧ Visit.files vs' = Visit.files vs := by
  have hvs := visits_of_walk hw
  have hnodup := (nodup_tried [] (@sound_outset fs levels cwd root)).1
  rw [← hvs] at hnodup
  -- a path at which a directory is entered is not one at which another attempt fails
  have hentered : ∀ p dir, Visit.entered p dir ∈ vs → p ∉ Visit.refusedPaths vs := by
    intro p dir hv hp
    obtain ⟨v, hv', hp⟩ := List.mem_filterMap.mp hp
    have heq : p ∈ Visit.tried [v] → Visit.entered p dir = v := fun hq =>
      Visit.eq_of_mem_tried hnodup hv hv' (List.mem_singleton_self p) hq rfl
    cases v <;> cases hp <;> cases heq (List.mem_singleton_self _)
  have h := visitsBlanking_forall₂ (Visit.refusedPaths vs) [] (@sound_outset fs levels cwd root)
    (by rwa [← hvs])
  rw [← hvs] at h
  exact ⟨failures_eq_nil_of_blanked h fun v hv e he => Visit.mem_refusedPaths hv he, files_eq_of_blanked h⟩

/-! ## The two ways to deal with a failure -/

theorem walk_emptied {dirs : List Location} (hshort : fs.HasShortLinks)
    (hdirs : ∀ dir ∈ dirs, fs.RefusesListing dir) (hw : fs.walk levels cwd root = .ok vs)
    (h : ∀ v ∈ vs, fs.StaysPut dirs cwd v.path) (hreached : ∀ v ∈ vs, ∀ p failure, v ≠ .unreached p failure) :
    (fs.emptied dirs).walk levels cwd root = .ok (vs.map (Visit.allowed dirs)) := by
  obtain ⟨⟨top, hl, hn⟩, hvs, hdeep⟩ := walk_eq_ok_iff.mp hw
  have hx : fs.examineEntry cwd top (Path.absolute cwd root) = .ok (.directory .listing) := by
    simp only [examineEntry, hn]
  have hfirst : Visit.entered (Path.absolute cwd root) top ∈ vs := by
    rw [hvs, visitsOf, outset_of_locate hl, visits_of_step (.entered hx rfl List.not_mem_nil hl hn)]
    exact List.mem_cons_self ..
  have htop : top ∉ dirs := fun hm => (hdirs top hm).node?_ne hn
  obtain ⟨hl', -, hn'⟩ := (show fs.StaysPut dirs cwd (Path.absolute cwd root) from h _ hfirst).locate_emptied hl hn
  rw [if_neg htop] at hn'
  have hvisits : (fs.emptied dirs).visitsOf levels cwd root = vs.map (Visit.allowed dirs) := by
    have hsound : ∀ e ∈ fs.outset levels cwd (Path.absolute cwd root), e.Sound (fs.emptied dirs) cwd := by
      rw [outset_of_locate hl, ← outset_of_locate hl']
      exact sound_outset
    rw [visitsOf, outset_of_locate hl', ← outset_of_locate hl, hvs, visitsOf]
    rw [hvs] at h hreached
    exact visits_emptied hshort hdirs [] sound_outset hsound h hreached
  refine walk_eq_ok_iff.mpr ⟨⟨top, hl', hn'⟩, hvisits.symm, fun v' hv' => ?_⟩
  obtain ⟨v, hv, rfl⟩ := List.mem_map.mp hv'
  rw [Visit.isTooDeep_allowed, hdeep v hv]

/-- **The two ways to deal with a failure agree.** If the root cannot be listed, the walk ends with the same failure
either way, and nothing is reported. Otherwise, unless a directory lies too deep, a walk that reports failures returns
files; one that does not report failures ends with the first one that would have been reported, or returns the same
files if there is none. The files are those of the walk for which the directories that are reported have no entries,
while every path leads where it leads.

Let the path of every link be short. Then a failure is reported at each visit that first finds a directory which
cannot be listed there, in the order of the visits, and no directory is reported twice. If the directories that refuse
to be listed can be emptied so that every visited path leads where it led, or still leads nowhere, and if none is too
long, the files are those of the file system where they are empty. -/
theorem walkFiles_agree (fs : FileSystem) (levels : ℕ) (cwd : Location) (root : Path) :
    (∀ e, fs.list cwd (Path.absolute cwd root) = .error e →
      ∀ reporting, fs.walkFiles levels cwd root reporting = ([], .error e)) ∧
    ∀ names, fs.list cwd (Path.absolute cwd root) = .ok names →
      (fs.walk levels cwd root = .error .tooDeep ∧ ∃ rel loc, rel.length = levels + 1 ∧
        fs.Arrives cwd (Path.beneath (Path.absolute cwd root) rel) loc ∧ fs.isDirectory loc = true) ∨
      ∃ vs, fs.walk levels cwd root = .ok vs ∧
        fs.walkFiles levels cwd root true = (vs.filterMap Visit.failure?, .ok (Visit.files vs)) ∧
        fs.walkFiles levels cwd root false = ([], match vs.filterMap Visit.failure? with
          | [] => .ok (Visit.files vs)
          | e :: _ => .error e) ∧
        fs.visitsBlanking cwd [] [] (fs.outset levels cwd (Path.absolute cwd root)) = vs ∧
        (∃ vs', fs.visitsBlanking cwd (Visit.refusedPaths vs) [] (fs.outset levels cwd (Path.absolute cwd root)) = vs' ∧
          Visit.failures vs' = [] ∧ Visit.files vs' = Visit.files vs) ∧
        (fs.HasShortLinks →
          (∀ before v after, vs = before ++ v :: after → ∀ e, v.failure? = some e ↔
            ∃ dir, fs.ComesToFailure cwd before v.path dir e) ∧
          (∃ dirs, List.Forall₂ (fs.Arrives cwd) (Visit.refusedPaths vs) dirs ∧ dirs.Nodup ∧
            ∀ dir, fs.RefusesListing dir → (∃ v ∈ vs, fs.FindsDirectory cwd v.path dir) →
              dir ∈ dirs) ∧
          ((∀ v ∈ vs, fs.StaysPut (Visit.refusedDirectories vs) cwd v.path ∧ ∀ p failure, v ≠ .unreached p failure) →
            ∀ reporting, (fs.emptied (Visit.refusedDirectories vs)).walkFiles levels cwd root reporting =
              ([], .ok (Visit.files vs)))) := by
  refine ⟨fun e h reporting => ?_, fun names h => ?_⟩
  · simp only [walkFiles, walked, walk, h]
    exact ite_self _
  obtain ⟨top, hl, hn, -⟩ := list_eq_ok_iff.mp h
  rcases walk_cases hl hn levels with hdeep | hw
  · exact Or.inl ⟨hdeep, exists_of_walk_eq_tooDeep hdeep⟩
  generalize fs.visitsOf levels cwd root = vs at hw
  have hvs := visits_of_walk hw
  refine Or.inr ⟨vs, hw, walkFiles_of_walk hw true, walkFiles_of_walk hw false, ?_,
    ⟨_, rfl, visitsBlanking_refusedPaths hw⟩, fun hshort => ⟨?_, exists_failing hshort hw, ?_⟩⟩
  · rw [visitsBlanking_nil [] sound_outset, ← hvs]
  · exact fun before v after hsplit e => failure?_iff hshort hw hsplit e
  · intro hstays reporting
    have hdirs : ∀ dir ∈ Visit.refusedDirectories vs, fs.RefusesListing dir := by
      intro dir hd
      obtain ⟨p, hp⟩ := Visit.mem_refusedDirectories.mp hd
      obtain ⟨_, _, _, _, -, -, hs⟩ := exists_step_of_walk hw hp
      cases hs with
      | refused _ _ _ _ hn hne => exact ⟨_, hn, hne⟩
    have hreached := fun v hv => (hstays v hv).2
    rw [walkFiles_of_walk (walk_emptied hshort hdirs hw (fun v hv => (hstays v hv).1) hreached),
      Visit.failures_map_allowed (fun _ hd => hd) hreached, Visit.files_map_allowed]
    exact ite_self _

/-- A directory `d` that cannot be listed, and a link to it that is visited first. -/
def gate : FileSystem := empty.plantAll [] [
  ⟨[.literal "r", .literal "a"], .link (text "d")⟩,
  ⟨[.literal "r", .literal "d"], .directory .nothing⟩,
  ⟨[.literal "r", .literal "d", .literal "f"], .file true []⟩,
  ⟨[.literal "r", .literal "e"], .file true []⟩]

theorem walk_gate : gate.walk 1 [] (text "/r") = .ok [
    .entered (text "/r") [.literal "r"],
    .refused (text "/r/a") [.literal "r", .literal "d"],
    .revisited (text "/r/d"),
    .file (text "/r/e")] := by cbv

theorem walkFiles_agree_gate : gate.HasShortLinks ∧
    gate.walkFiles 1 [] (text "/r") true = ([.system .denied (text "/r/a")], .ok [text "/r/e"]) ∧
      gate.walkFiles 1 [] (text "/r") false = ([], .error (.system .denied (text "/r/a"))) ∧
      (gate.emptied [[.literal "r", .literal "d"]]).walkFiles 1 [] (text "/r") false = ([], .ok [text "/r/e"]) := by
  have hlist : gate.list [] (Path.absolute [] (text "/r")) = .ok [.literal "a", .literal "d", .literal "e"] := by cbv
  have hshort : gate.HasShortLinks := by decide +kernel
  rcases (walkFiles_agree gate 1 [] (text "/r")).2 _ hlist with ⟨hdeep, -⟩ | ⟨vs, hw, hreport, hfirst, -, -, hempty⟩
  · cases walk_gate.symm.trans hdeep
  cases walk_gate.symm.trans hw
  obtain ⟨-, -, hempty⟩ := hempty hshort
  have hlead : ∀ p ∈ [text "/r", text "/r/a", text "/r/d", text "/r/e"],
      (gate.emptied [[.literal "r", .literal "d"]]).locate [] p = gate.locate [] p := by
    simp only [List.forall_mem_cons]
    exact ⟨by cbv, by cbv, by cbv, by cbv, by simp⟩
  refine ⟨hshort, hreport, hfirst, hempty (fun v hv => ⟨fun loc => ?_, ?_⟩) false⟩
  · have heq := hlead v.path (List.mem_map_of_mem (f := Visit.path) hv)
    exact ⟨heq.trans, heq.symm.trans⟩
  · rintro p failure rfl
    simp at hv

/-- A directory `d` that cannot be listed, with a file in it to which a link leads. -/
def ajar : FileSystem := empty.plantAll [] [
  ⟨[.literal "r", .literal "d"], .directory .passage⟩,
  ⟨[.literal "r", .literal "d", .literal "f"], .file true []⟩,
  ⟨[.literal "r", .literal "l"], .link (text "d/f")⟩]

/-- **A file may be found in a directory that cannot be listed**, but lets paths through: a link leads to it, and would
lead nowhere if the directory were empty. -/
theorem walkFiles_through_refusal : ¬ ∀ (fs : FileSystem) (levels : ℕ) (cwd : Location) (root : Path) (vs : List Visit),
    fs.walk levels cwd root = .ok vs → (fs.walkFiles levels cwd root true).2 =
      ((fs.emptied (Visit.refusedDirectories vs)).walkFiles levels cwd root true).2 := by
  intro h
  have hw : ajar.walk 1 [] (text "/r") = .ok [
      .entered (text "/r") [.literal "r"],
      .refused (text "/r/d") [.literal "r", .literal "d"],
      .file (text "/r/l")] := by cbv
  have hfiles : ajar.walkFiles 1 [] (text "/r") true =
      ([.system .denied (text "/r/d")], .ok [text "/r/l"]) := by cbv
  have hempty : (ajar.emptied [[.literal "r", .literal "d"]]).walkFiles 1 [] (text "/r") true = ([], .ok []) := by cbv
  have hsame := h ajar 1 [] (text "/r") _ hw
  rw [hfiles] at hsame
  cases hsame.trans (congrArg Prod.snd hempty)

end FileSystem

end ExtensionAudit
