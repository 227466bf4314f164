import Mathlib
import ExtensionAudit.Proofs.Walk.Root

/-!
# Emptied directories

Directories that refuse to be listed are emptied, and can be listed then. A path that led through such a directory to
an entry in it leads nowhere afterwards, and one that was not let through may lead back out of it. If no visited path
is lost or found in this way, and none is too long, a walk does what it did before, but nothing refuses to be listed.

* `FileSystem.emptied`, `FileSystem.node?_emptied`: the file system where some directories are empty;
* `Visit.allowed`: a visit where some directories do not refuse to be listed;
* `FileSystem.StaysPut`: a path leads where it led, and nowhere if it led nowhere;
* **`FileSystem.visits_emptied`**: a walk where every visited path does so.
-/

namespace ExtensionAudit

/-- The visit, but the directories `dirs` do not refuse to be listed. -/
def Visit.allowed (dirs : List Location) : Visit → Visit
  | .refused p loc => if loc ∈ dirs then .entered p loc else .refused p loc
  | v => v

namespace FileSystem

variable {fs : FileSystem} {cwd : Location} {dirs : List Location}

/-! ## Emptying directories -/

/-- The entry, but a directory can be listed. -/
def unlocked : Node → Node
  | .directory _ => .directory .listing
  | node => node

/-- Does the location lie below one of the directories? -/
def liesBelow (dirs : List Location) (loc : Location) : Bool :=
  dirs.any fun dir => dir.isPrefixOf loc && dir != loc

theorem liesBelow_iff {loc : Location} : liesBelow dirs loc = true ↔ ∃ dir ∈ dirs, dir <+: loc ∧ dir ≠ loc := by
  simp [liesBelow]

theorem liesBelow_concat {loc : Location} {name : FileName} :
    liesBelow dirs (loc ++ [name]) = true ↔ loc ∈ dirs ∨ liesBelow dirs loc = true := by
  rw [liesBelow_iff, liesBelow_iff]
  constructor
  · rintro ⟨dir, hdir, hp, hne⟩
    have hp' : dir <+: loc := (List.prefix_concat_iff.mp hp).resolve_left hne
    by_cases he : dir = loc
    · exact Or.inl (he ▸ hdir)
    · exact Or.inr ⟨dir, hdir, hp', he⟩
  · rintro (hdir | ⟨dir, hdir, hp, -⟩)
    · exact ⟨loc, hdir, List.prefix_append _ _, by simp⟩
    · refine ⟨dir, hdir, hp.trans (List.prefix_append _ _), ?_⟩
      rintro rfl
      simpa using hp.length_le

theorem get?_emptied (fs : FileSystem) (dirs : List Location) (loc : Location) :
    Table.get? ((fs.entries.filter fun e => !liesBelow dirs e.1).map fun e =>
      (e.1, if e.1 ∈ dirs then unlocked e.2 else e.2)) loc =
      if liesBelow dirs loc then none
      else (fs.node? loc).map fun node => if loc ∈ dirs then unlocked node else node := by
  rw [Table.get?_map (fun l node => if l ∈ dirs then unlocked node else node),
    Table.get?_filter_keys (fun l => !liesBelow dirs l)]
  cases liesBelow dirs loc <;> rfl

/-- The file system where the directories `dirs` can be listed and are empty. -/
def emptied (fs : FileSystem) (dirs : List Location) : FileSystem where
  entries := (fs.entries.filter fun e => !liesBelow dirs e.1).map fun e =>
    (e.1, if e.1 ∈ dirs then unlocked e.2 else e.2)
  nodup := by
    rw [Table.keys, List.map_map]
    exact (List.Sublist.map _ List.filter_sublist).nodup fs.nodup
  root_isDirectory := by
    obtain ⟨access, hn⟩ := fs.root_isDirectory
    have hroot : liesBelow dirs [] = false := by
      rw [Bool.eq_false_iff, ne_eq, liesBelow_iff]
      rintro ⟨dir, -, hp, hne⟩
      exact hne (List.prefix_nil.mp hp)
    rw [get?_emptied, hroot, node?, hn]
    by_cases hd : [] ∈ dirs
    · exact ⟨.listing, by simp [hd, unlocked]⟩
    · exact ⟨access, by simp [hd]⟩
  parent_isDirectory := by
    intro dir name h
    rw [get?_emptied] at h ⊢
    split at h
    · cases h
    next hb =>
    rw [liesBelow_concat, not_or] at hb
    rw [Option.isSome_map] at h
    obtain ⟨access, hn⟩ := fs.parent_isDirectory dir name h
    exact ⟨access, by rw [if_neg hb.2, node?, hn, Option.map_some, if_neg hb.1]⟩

theorem node?_emptied (fs : FileSystem) (dirs : List Location) (loc : Location) : (fs.emptied dirs).node? loc =
    if liesBelow dirs loc then none
    else (fs.node? loc).map fun node => if loc ∈ dirs then unlocked node else node := get?_emptied fs dirs loc

theorem node?_of_emptied {loc : Location} {node : Node} (h : (fs.emptied dirs).node? loc = some node) :
    liesBelow dirs loc = false ∧ ∃ old, fs.node? loc = some old ∧ node = if loc ∈ dirs then unlocked old else old := by
  rw [node?_emptied] at h
  split at h
  · cases h
  next hb =>
  obtain ⟨old, hold, rfl⟩ := Option.map_eq_some_iff.mp h
  exact ⟨by simpa using hb, old, hold, rfl⟩

theorem link_of_emptied {loc : Location} {path : Path} (h : (fs.emptied dirs).node? loc = some (.link path)) :
    fs.node? loc = some (.link path) := by
  obtain ⟨-, old, hold, he⟩ := node?_of_emptied h
  cases old with
  | link => split at he <;> cases he <;> exact hold
  | _ => split at he <;> cases he

/-! ## Walks -/

theorem HasShortLinks.emptied (hshort : fs.HasShortLinks) : (fs.emptied dirs).HasShortLinks := by
  exact fun loc path hn => hshort loc path (link_of_emptied hn)

theorem node?_emptied_of_exists {loc : Location} {node : Node} (h : ∃ node, (fs.emptied dirs).node? loc = some node)
    (hn : fs.node? loc = some node) : liesBelow dirs loc = false ∧
      (fs.emptied dirs).node? loc = some (if loc ∈ dirs then unlocked node else node) := by
  obtain ⟨node', hn'⟩ := h
  obtain ⟨hb, old, hold, rfl⟩ := node?_of_emptied hn'
  cases hn.symm.trans hold
  exact ⟨hb, hn'⟩

theorem names_emptied {loc : Location} (hb : liesBelow dirs loc = false) :
    (fs.emptied dirs).names loc = if loc ∈ dirs then [] else fs.names loc := by
  split
  · next hd =>
    rw [List.eq_nil_iff_forall_not_mem]
    intro name hm
    obtain ⟨node, hn⟩ := mem_names.mp hm
    have := (node?_of_emptied hn).1
    rw [Bool.eq_false_iff, ne_eq, liesBelow_concat, not_or] at this
    exact this.1 hd
  · next hd =>
    refine names_eq fun name => ?_
    have hbelow : liesBelow dirs (loc ++ [name]) = false := by
      rw [Bool.eq_false_iff, ne_eq, liesBelow_concat, not_or]
      exact ⟨hd, by simp [hb]⟩
    rw [node?_emptied, hbelow, ← Option.isSome_iff_exists, ← Option.isSome_iff_exists]
    simp

/-- A lookup of the path finds what it found before the directories were emptied, and nothing if it found nothing. -/
def StaysPut (fs : FileSystem) (dirs : List Location) (cwd : Location) (p : Path) : Prop :=
  ∀ loc, fs.locate cwd p = .ok loc ↔ (fs.emptied dirs).locate cwd p = .ok loc

theorem StaysPut.locate_emptied {p : Path} {loc : Location} {node : Node} (hp : fs.StaysPut dirs cwd p)
    (hl : fs.locate cwd p = .ok loc) (hn : fs.node? loc = some node) :
    (fs.emptied dirs).locate cwd p = .ok loc ∧ liesBelow dirs loc = false ∧
      (fs.emptied dirs).node? loc = some (if loc ∈ dirs then unlocked node else node) := by
  have hl' := (hp loc).mp hl
  obtain ⟨node', hn', -⟩ := isSolid_of_locate hl'
  exact ⟨hl', node?_emptied_of_exists ⟨node', hn'⟩ hn⟩

section Step

variable {e : Pending} {v : Visit} {visited visited' : List Path} {next : List Pending}

theorem examineEntry_emptied (he : e.Sound (fs.emptied dirs) cwd) (hp : fs.StaysPut dirs cwd e.path) {node : Node}
    (hx : fs.examineEntry cwd e.entry e.path = .ok node) :
    (fs.emptied dirs).examineEntry cwd e.entry e.path = .ok node ∨
      (fs.emptied dirs).examineEntry cwd e.entry e.path = .ok (unlocked node) := by
  have hor : ∀ {loc : Location} {node' : Node},
      (fs.emptied dirs).node? loc = some (if loc ∈ dirs then unlocked node' else node') →
      (fs.emptied dirs).node? loc = some node' ∨ (fs.emptied dirs).node? loc = some (unlocked node') := by
    intro loc node' h
    split at h
    · exact Or.inr h
    · exact Or.inl h
  cases hn : fs.node? e.entry with
  | none => simp only [examineEntry, hn] at hx; cases hx
  | some old =>
    have hn' := hor (node?_emptied_of_exists he.exists_node hn).2
    cases old with
    | link target =>
      simp only [examineEntry, hn] at hx
      obtain ⟨loc, hl, hloc⟩ := exists_locate_of_stat hx
      obtain ⟨hl', -, hloc'⟩ := hp.locate_emptied hl hloc
      have hlink : (fs.emptied dirs).node? e.entry = some (.link target) := hn'.elim id id
      simp only [examineEntry, hlink]
      exact (hor hloc').imp (stat_of_locate hl') (stat_of_locate hl')
    | _ =>
      simp only [examineEntry, hn] at hx
      cases hx
      rcases hn' with hn' | hn' <;> simp [examineEntry, hn', unlocked]

theorem examineEntry_of_emptied (hp : fs.StaysPut dirs cwd e.path) {node : Node}
    (hx : (fs.emptied dirs).examineEntry cwd e.entry e.path = .ok node) :
    ∃ old, fs.examineEntry cwd e.entry e.path = .ok old ∧ (node = old ∨ node = unlocked old) := by
  cases hn : (fs.emptied dirs).node? e.entry with
  | none => simp only [examineEntry, hn] at hx; cases hx
  | some node' =>
    obtain ⟨-, old, hold, he⟩ := node?_of_emptied hn
    cases old with
    | link target =>
      obtain rfl : node' = .link target := he.trans (ite_self (Node.link target))
      simp only [examineEntry, hn] at hx
      obtain ⟨loc, hl, hloc⟩ := exists_locate_of_stat hx
      obtain ⟨-, old, hold', he⟩ := node?_of_emptied hloc
      simp only [examineEntry, hold]
      exact ⟨old, stat_of_locate ((hp loc).mpr hl) hold', by split at he <;> simp [he]⟩
    | _ =>
      simp only [examineEntry, hold]
      split at he <;> subst he <;> simp only [unlocked, examineEntry, hn] at hx <;> cases hx <;>
        exact ⟨_, rfl, by simp [unlocked]⟩

theorem exists_arrives_emptied (he : e.Sound fs cwd) (he' : e.Sound (fs.emptied dirs) cwd)
    (hp : fs.StaysPut dirs cwd e.path) {node : Node} (hx : fs.examineEntry cwd e.entry e.path = .ok node) :
    ∃ loc, fs.Arrives cwd e.path loc ∧ (fs.emptied dirs).Arrives cwd e.path loc := by
  obtain ⟨old, hn⟩ := he.exists_node
  cases old with
  | link target =>
    simp only [examineEntry, hn] at hx
    obtain ⟨loc, hl, -⟩ := exists_locate_of_stat hx
    exact ⟨loc, arrives_of_locate hl, arrives_of_locate ((hp loc).mp hl)⟩
  | _ =>
    refine ⟨e.entry, he.arrives ⟨_, hn, by simp⟩, he'.arrives ⟨_, (node?_emptied_of_exists he'.exists_node hn).2, ?_⟩⟩
    split <;> simp [unlocked]

theorem VisitStep.emptied (hshort : fs.HasShortLinks) (hdirs : ∀ dir ∈ dirs, fs.RefusesListing dir)
    (he : e.Sound fs cwd) (he' : e.Sound (fs.emptied dirs) cwd) (hp : fs.StaysPut dirs cwd e.path)
    (hv : ∀ failure, v ≠ .unreached e.path failure) (h : fs.VisitStep cwd visited e v visited' next) :
    (fs.emptied dirs).VisitStep cwd visited e (v.allowed dirs) visited' next := by
  -- a directory is found where it was found, and has the real path that it had
  have hdirectory : ∀ {access : Access}, fs.examineEntry cwd e.entry e.path = .ok (.directory access) →
      (∃ access, (fs.emptied dirs).examineEntry cwd e.entry e.path = .ok (.directory access)) ∧
        (fs.emptied dirs).realPath e.path = fs.realPath e.path := by
    intro access hx
    refine ⟨(examineEntry_emptied he' hp hx).elim (fun h => ⟨_, h⟩) fun h => ⟨_, h⟩, ?_⟩
    obtain ⟨loc, ha, ha'⟩ := exists_arrives_emptied he he' hp hx
    rw [realPath_eq hshort he.isAbsolute ha, realPath_eq hshort.emptied he.isAbsolute ha']
  cases h with
  | @entered _ levels loc hx hd hmet hl hn =>
    have hloc : loc ∉ dirs := fun hm => (hdirs loc hm).node?_ne hn
    obtain ⟨⟨_, hx'⟩, hkey⟩ := hdirectory hx
    obtain ⟨hl', hb, hn'⟩ := hp.locate_emptied hl hn
    rw [if_neg hloc] at hn'
    have hs := VisitStep.entered hx' hd (hkey ▸ hmet) hl' hn'
    rwa [pendingIn, names_emptied hb, if_neg hloc, hkey] at hs
  | @refused _ _ levels loc hx hd hmet hl hn hne =>
    obtain ⟨⟨_, hx'⟩, hkey⟩ := hdirectory hx
    obtain ⟨hl', hb, hn'⟩ := hp.locate_emptied hl hn
    rw [Visit.allowed]
    split
    · next hloc =>
      rw [if_pos hloc] at hn'
      have hs := VisitStep.entered hx' hd (hkey ▸ hmet) hl' hn'
      rwa [pendingIn, names_emptied hb, if_pos hloc, hkey] at hs
    · next hloc =>
      rw [if_neg hloc] at hn'
      have hs := VisitStep.refused hx' hd (hkey ▸ hmet) hl' hn' hne
      rwa [hkey] at hs
  | unreached => exact absurd rfl (hv _)
  | revisited hx hd hmet =>
    obtain ⟨⟨_, hx'⟩, hkey⟩ := hdirectory hx
    exact .revisited hx' hd (hkey ▸ hmet)
  | tooDeep hx hd =>
    obtain ⟨⟨_, hx'⟩, -⟩ := hdirectory hx
    exact .tooDeep hx' hd
  | file hx => exact .file ((examineEntry_emptied he' hp hx).elim id id)
  | special hx =>
    refine .special fun node hx' => ?_
    obtain ⟨old, hold, rfl | rfl⟩ := examineEntry_of_emptied hp hx'
    · exact hx node hold
    · obtain ⟨hd, hf⟩ := hx old hold
      cases old <;> cases hd <;> exact ⟨rfl, hf⟩

end Step

/-- **A walk after directories have been emptied** that could not be listed, if every visited path leads where it led.
-/
theorem visits_emptied (hshort : fs.HasShortLinks) (hdirs : ∀ dir ∈ dirs, fs.RefusesListing dir)
    (visited : List Path) {pending : List Pending} (hsound : ∀ e ∈ pending, e.Sound fs cwd)
    (hsound' : ∀ e ∈ pending, e.Sound (fs.emptied dirs) cwd)
    (h : ∀ v ∈ fs.visits cwd visited pending, fs.StaysPut dirs cwd v.path)
    (hreached : ∀ v ∈ fs.visits cwd visited pending, ∀ p failure, v ≠ .unreached p failure) :
    (fs.emptied dirs).visits cwd visited pending = (fs.visits cwd visited pending).map (Visit.allowed dirs) := by
  refine visits_induction (motive := fun visited pending vs => (∀ e ∈ pending, e.Sound (fs.emptied dirs) cwd) →
    (∀ v ∈ vs, fs.StaysPut dirs cwd v.path) → (∀ v ∈ vs, ∀ p failure, v ≠ .unreached p failure) →
    (fs.emptied dirs).visits cwd visited pending = vs.map (Visit.allowed dirs)) ?_ ?_ visited pending hsound hsound' h
    hreached
  · intro visited _ _ _
    rw [visits]
    rfl
  intro visited e v visited' next pending rest he hs ih hsound' h hreached
  obtain ⟨he', hsound'⟩ := List.forall_mem_cons.mp hsound'
  obtain ⟨hp, h⟩ := List.forall_mem_cons.mp h
  obtain ⟨hv, hreached⟩ := List.forall_mem_cons.mp hreached
  have hs' := hs.emptied hshort hdirs he he' (hs.path_eq ▸ hp) fun failure => hv e.path failure
  rw [visits_of_step hs', List.map_cons,
    ih (List.forall_mem_append.mpr ⟨hs'.sound he', hsound'⟩) h hreached]

end FileSystem

end ExtensionAudit
