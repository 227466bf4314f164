import Mathlib
import ExtensionAudit.Proofs.Walk.Visits

/-!
# Two walks in lockstep

Two walks, in one file system or in two, do the same at each step if their paths lead to entries that look alike and
the directories among these have the same names in them. Then their visits are the same one by one. All this is for
paths that are short: where the places of two walks differ, so do the lengths of their paths.

* `FileSystem.Lockstep`: what makes two walks do the same;
* `Visit.Like`, `Visit.forall₂_files`, `FileSystem.Lockstep.step`: what they do at one entry each;
* **`FileSystem.Lockstep.visits`**: the visits of the two walks.
-/

namespace ExtensionAudit

/-! ## Visits -/

/-- Two visits do the same, at paths and locations that correspond to each other. -/
inductive Visit.Like (R : Path → Path → Prop) (S : Location → Location → Prop) : Visit → Visit → Prop where
  | entered {p q : Path} {a b : Location} (hp : R p q) (hl : S a b) : Like R S (.entered p a) (.entered q b)
  | revisited {p q : Path} (hp : R p q) : Like R S (.revisited p) (.revisited q)
  | refused {p q : Path} {a b : Location} (hp : R p q) (hl : S a b) : Like R S (.refused p a) (.refused q b)
  | file {p q : Path} (hp : R p q) : Like R S (.file p) (.file q)
  | special {p q : Path} (hp : R p q) : Like R S (.special p) (.special q)
  | tooDeep {p q : Path} (hp : R p q) : Like R S (.tooDeep p) (.tooDeep q)

namespace Visit

variable {R : Path → Path → Prop} {S : Location → Location → Prop} {vs vs' : List Visit}

theorem forall₂_files (h : List.Forall₂ (Like R S) vs vs') : List.Forall₂ R (files vs) (files vs') := by
  refine List.rel_filterMap (fun v v' hv => ?_) h
  cases hv with
  | file hp => exact .some hp
  | _ => exact .none

theorem forall₂_refusedPaths (h : List.Forall₂ (Like R S) vs vs') :
    List.Forall₂ R (refusedPaths vs) (refusedPaths vs') := by
  refine List.rel_filterMap (fun v v' hv => ?_) h
  cases hv with
  | refused hp => exact .some hp
  | _ => exact .none

theorem isShort_of_mem_files (h : ∀ v ∈ vs, v.path.IsShort) {p : Path} (hp : p ∈ files vs) : p.IsShort := by
  obtain ⟨v, hv, hf⟩ := List.mem_filterMap.mp hp
  have hs := h v hv
  cases v <;> cases hf
  exact hs

theorem any_isTooDeep_eq (h : List.Forall₂ (Like R S) vs vs') : vs.any isTooDeep = vs'.any isTooDeep := by
  induction h with
  | nil => rfl
  | cons hv _ ih =>
    rw [List.any_cons, List.any_cons, ih]
    cases hv <;> rfl

end Visit

namespace FileSystem

variable {fs fs' : FileSystem} {cwd cwd' : Location} {R : Path → Path → Prop} {S : Location → Location → Prop}

/-- **What makes two walks do the same.** Short paths that correspond to each other lead nowhere, or to locations that
do so too, and these look alike. Real paths are those of locations. -/
structure Lockstep (fs fs' : FileSystem) (cwd cwd' : Location) (R : Path → Path → Prop)
    (S : Location → Location → Prop) : Prop where
  locate {p q : Path} (h : R p q) (hp : p.IsShort) (hq : q.IsShort) :
    ((∀ a, fs.locate cwd p ≠ .ok a) ∧ ∀ b, fs'.locate cwd' q ≠ .ok b) ∨
      ∃ a b, fs.locate cwd p = .ok a ∧ fs'.locate cwd' q = .ok b ∧ S a b
  realPath_left {p q : Path} {a : Location} (h : R p q) (ha : fs.locate cwd p = .ok a) :
    fs.realPath p = Path.ofLocation a
  realPath_right {p q : Path} {b : Location} (h : R p q) (hb : fs'.locate cwd' q = .ok b) :
    fs'.realPath q = Path.ofLocation b
  shape_eq {a b : Location} (h : S a b) : (fs.node? a).map shape = (fs'.node? b).map shape
  eq_iff {a b a' b' : Location} (h : S a b) (h' : S a' b') : a = a' ↔ b = b'
  names_eq {a b : Location} (h : S a b) : fs.names a = fs'.names b
  join {p q : Path} (h : R p q) (name : FileName) : R (Path.join p name.text) (Path.join q name.text)

theorem kind_eq_of_shape {node node' : Node} (h : shape node = shape node') :
    node.isDirectory = node'.isDirectory ∧ node.isFile = node'.isFile := by
  cases node <;> cases node' <;> cases h <;> exact ⟨rfl, rfl⟩

/-- Pending entries of two walks correspond to each other. -/
def SamePending (R : Path → Path → Prop) (e e' : Pending) : Prop := R e.path e'.path ∧ e.levels = e'.levels

/-- Real paths correspond to each other if they are those of locations that do. -/
def SameKey (S : Location → Location → Prop) (key key' : Path) : Prop :=
  ∃ a b, S a b ∧ key = Path.ofLocation a ∧ key' = Path.ofLocation b

namespace Lockstep

variable {a b : Location} {e e' : Pending} {visited visited' next : List Path}

theorem exists_node (h : Lockstep fs fs' cwd cwd' R S) (hab : S a b) {node : Node} (hn : fs.node? a = some node) :
    ∃ node', fs'.node? b = some node' ∧ shape node' = shape node := by
  have hs := h.shape_eq hab
  rw [hn, Option.map_some, eq_comm, Option.map_eq_some_iff] at hs
  exact hs

theorem node?_directory (h : Lockstep fs fs' cwd cwd' R S) (hab : S a b) {access : Access}
    (hn : fs.node? a = some (.directory access)) : fs'.node? b = some (.directory access) := by
  obtain ⟨node', hn', hs⟩ := h.exists_node hab hn
  cases node' <;> cases hs
  exact hn'

theorem mem_iff (h : Lockstep fs fs' cwd cwd' R S) (hab : S a b) (hv : List.Forall₂ (SameKey S) visited visited') :
    Path.ofLocation a ∈ visited ↔ Path.ofLocation b ∈ visited' := by
  induction hv with
  | nil => simp
  | cons hkey _ ih =>
    obtain ⟨c, d, hcd, rfl, rfl⟩ := hkey
    have ha : Path.ofLocation a = Path.ofLocation c ↔ a = c := ⟨Path.ofLocation_injective, congrArg _⟩
    have hb : Path.ofLocation b = Path.ofLocation d ↔ b = d := ⟨Path.ofLocation_injective, congrArg _⟩
    rw [List.mem_cons, List.mem_cons, ih, ha, hb, h.eq_iff hab hcd]

section Step

variable (h : Lockstep fs fs' cwd cwd' R S) (he : e.Sound fs cwd) (he' : e'.Sound fs' cwd') (hp : SamePending R e e')
  (hs : e.path.IsShort) (hs' : e'.path.IsShort)
include h he he' hp hs hs'

theorem exists_examineEntry {node : Node} (hx : fs.examineEntry cwd e.entry e.path = .ok node) :
    ∃ a b node', fs.locate cwd e.path = .ok a ∧ fs'.locate cwd' e'.path = .ok b ∧ S a b ∧ fs.node? a = some node ∧
      fs'.examineEntry cwd' e'.entry e'.path = .ok node' ∧ shape node' = shape node := by
  rw [he.examineEntry_eq_stat hs] at hx
  obtain ⟨a, hl, hn⟩ := exists_locate_of_stat hx
  rcases h.locate hp.1 hs hs' with ⟨hnone, -⟩ | ⟨a', b, ha, hb, hab⟩
  · exact absurd hl (hnone a)
  cases hl.symm.trans ha
  obtain ⟨node', hn', hshape⟩ := h.exists_node hab hn
  exact ⟨a, b, node', hl, hb, hab, hn, (he'.examineEntry_eq_stat hs').trans (stat_of_locate hb hn'), hshape⟩

/-- **One visit of each of two walks.** -/
theorem step (hv : List.Forall₂ (SameKey S) visited visited')
    {v : Visit} {entries : List Pending} (hstep : fs.VisitStep cwd visited e v next entries) :
    ∃ v' next' entries', fs'.VisitStep cwd' visited' e' v' next' entries' ∧ Visit.Like R S v v' ∧
      List.Forall₂ (SameKey S) next next' ∧ List.Forall₂ (SamePending R) entries entries' := by
  have hlevels := hp.2
  -- a directory at the one entry is one at the other entry, with the corresponding real path
  have hdirectory : ∀ {access : Access}, fs.examineEntry cwd e.entry e.path = .ok (.directory access) →
      ∃ a b, fs.locate cwd e.path = .ok a ∧ fs'.locate cwd' e'.path = .ok b ∧ S a b ∧
        fs'.examineEntry cwd' e'.entry e'.path = .ok (.directory access) ∧
        fs.realPath e.path = Path.ofLocation a ∧ fs'.realPath e'.path = Path.ofLocation b := by
    intro access hx
    obtain ⟨a, b, node', ha, hb, hab, -, hx', hshape⟩ := h.exists_examineEntry he he' hp hs hs' hx
    cases node' <;> cases hshape
    exact ⟨a, b, ha, hb, hab, hx', h.realPath_left hp.1 ha, h.realPath_right hp.1 hb⟩
  cases hstep with
  | entered hx hd hmet hl hn =>
    obtain ⟨a, b, ha, hb, hab, hx', hkey, hkey'⟩ := hdirectory hx
    cases hl.symm.trans ha
    rw [hkey, h.mem_iff hab hv, ← hkey'] at hmet
    refine ⟨_, _, _, .entered hx' (hlevels ▸ hd) hmet hb (h.node?_directory hab hn), .entered hp.1 hab,
      .cons ⟨_, b, hab, hkey, hkey'⟩ hv, ?_⟩
    rw [pendingIn, pendingIn, ← h.names_eq hab, List.forall₂_map_left_iff, List.forall₂_map_right_iff,
      List.forall₂_same]
    exact fun name _ => ⟨h.join hp.1 name, rfl⟩
  | refused hx hd hmet hl hn hne =>
    obtain ⟨a, b, ha, hb, hab, hx', hkey, hkey'⟩ := hdirectory hx
    cases hl.symm.trans ha
    rw [hkey, h.mem_iff hab hv, ← hkey'] at hmet
    exact ⟨_, _, _, .refused hx' (hlevels ▸ hd) hmet hb (h.node?_directory hab hn) hne, .refused hp.1 hab,
      .cons ⟨_, b, hab, hkey, hkey'⟩ hv, .nil⟩
  | unreached hx hd hmet hl =>
    obtain ⟨a, -, ha, -⟩ := hdirectory hx
    cases hl.symm.trans ha
  | revisited hx hd hmet =>
    obtain ⟨a, b, ha, hb, hab, hx', hkey, hkey'⟩ := hdirectory hx
    rw [hkey, h.mem_iff hab hv, ← hkey'] at hmet
    exact ⟨_, _, _, .revisited hx' (hlevels ▸ hd) hmet, .revisited hp.1, hv, .nil⟩
  | tooDeep hx hd =>
    obtain ⟨-, -, -, -, -, hx', -⟩ := hdirectory hx
    exact ⟨_, _, _, .tooDeep hx' (hlevels ▸ hd), .tooDeep hp.1, hv, .nil⟩
  | file hx =>
    obtain ⟨-, -, node', -, -, -, -, hx', hshape⟩ := h.exists_examineEntry he he' hp hs hs' hx
    cases node' <;> cases hshape
    exact ⟨_, _, _, .file hx', .file hp.1, hv, .nil⟩
  | special hx =>
    refine ⟨_, _, _, .special fun node' hx' => ?_, .special hp.1, hv, .nil⟩
    rw [he'.examineEntry_eq_stat hs'] at hx'
    obtain ⟨b, hl', hn'⟩ := exists_locate_of_stat hx'
    rcases h.locate hp.1 hs hs' with ⟨-, hnone⟩ | ⟨a, b', hl, hb, hab⟩
    · exact absurd hl' (hnone b)
    cases hl'.symm.trans hb
    obtain ⟨node, hn, -⟩ := isSolid_of_locate hl
    obtain ⟨node₁, hn₁, hshape⟩ := h.exists_node hab hn
    cases hn'.symm.trans hn₁
    obtain ⟨hd, hf⟩ := hx node ((he.examineEntry_eq_stat hs).trans (stat_of_locate hl hn))
    obtain ⟨hd', hf'⟩ := kind_eq_of_shape hshape
    exact ⟨hd'.trans hd, hf'.trans hf⟩

end Step

/-- **The visits of two walks in lockstep** are the same one by one, if no visited path is too long. -/
theorem visits (h : Lockstep fs fs' cwd cwd' R S) {pending pending' : List Pending}
    (hsound : ∀ e ∈ pending, e.Sound fs cwd)
    (hsound' : ∀ e ∈ pending', e.Sound fs' cwd') (hv : List.Forall₂ (SameKey S) visited visited')
    (hp : List.Forall₂ (SamePending R) pending pending')
    (hpaths : ∀ v ∈ fs.visits cwd visited pending, v.path.IsShort)
    (hpaths' : ∀ v ∈ fs'.visits cwd' visited' pending', v.path.IsShort) :
    List.Forall₂ (Visit.Like R S) (fs.visits cwd visited pending) (fs'.visits cwd' visited' pending') := by
  refine visits_induction (motive := fun visited pending vs => ∀ visited' pending',
    (∀ e ∈ pending', e.Sound fs' cwd') → List.Forall₂ (SameKey S) visited visited' →
    List.Forall₂ (SamePending R) pending pending' → (∀ v ∈ vs, v.path.IsShort) →
    (∀ v ∈ fs'.visits cwd' visited' pending', v.path.IsShort) →
    List.Forall₂ (Visit.Like R S) vs (fs'.visits cwd' visited' pending'))
    ?_ ?_ visited pending hsound visited' pending' hsound' hv hp hpaths hpaths'
  · intro visited visited' pending' _ _ hp _ _
    cases hp
    rw [FileSystem.visits]
    exact .nil
  · intro visited e v next entries pending rest he hs ih visited' pending' hsound' hv hp hpaths hpaths'
    cases hp with
    | @cons _ e' _ pending' hee' hp =>
      obtain ⟨he', hlater⟩ := List.forall_mem_cons.mp hsound'
      obtain ⟨hpath, hpaths⟩ := List.forall_mem_cons.mp hpaths
      have hpath' : e'.path.IsShort := by
        obtain ⟨v', _, _, hs', heq⟩ := exists_visitStep visited' he' pending'
        rw [heq] at hpaths'
        exact hs'.path_eq ▸ hpaths' v' (List.mem_cons_self ..)
      obtain ⟨v', next', entries', hs', hlike, hnext, hentries⟩ :=
        h.step he he' hee' (hs.path_eq ▸ hpath) hpath' hv hs
      rw [visits_of_step hs'] at hpaths' ⊢
      exact .cons hlike (ih _ _ (List.forall_mem_append.mpr ⟨hs'.sound he', hlater⟩) hnext
        (List.rel_append hentries hp) hpaths (List.forall_mem_cons.mp hpaths').2)

end Lockstep

end FileSystem

end ExtensionAudit
