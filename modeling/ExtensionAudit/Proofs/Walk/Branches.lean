import Mathlib
import ExtensionAudit.Proofs.Branches

/-!
# Walks while files are written

What a walk does at directories does not depend on the files that it finds beside them. And if no file comes or goes, it
does the same at all.

* `FileSystem.leadsDown`, `Visit.isBranch`: the pending entries and the visits that are about directories;
* `FileSystem.SameBranches.visitStep`, **`FileSystem.SameBranches.filter_visits`**: the same visits of directories;
* `FileSystem.SameBranches.any_isTooDeep_eq`: whether a walk is too deep;
* **`FileSystem.SameShape.visitsOf_eq`**: writing files that are there changes no walk.
-/

namespace ExtensionAudit

/-- Is the visit one of a directory? -/
def Visit.isBranch : Visit → Bool
  | .file _ => false
  | .special _ => false
  | _ => true

theorem Visit.isBranch_of_isTooDeep {v : Visit} (h : v.isTooDeep = true) : v.isBranch = true := by
  cases v <;> cases h
  rfl

namespace FileSystem

variable {fs fs' : FileSystem} {cwd : Location} {visited visited' : List Path} {e : Pending} {v : Visit}
  {next pending pending' : List Pending}

/-- Is a directory found at the entry? -/
def leadsDown (fs : FileSystem) (cwd : Location) (e : Pending) : Bool :=
  (fs.examineEntry cwd e.entry e.path).toOption.any Node.isDirectory

theorem leadsDown_iff : fs.leadsDown cwd e = true ↔
    ∃ access, fs.examineEntry cwd e.entry e.path = .ok (.directory access) := by
  unfold leadsDown
  cases fs.examineEntry cwd e.entry e.path with
  | error => simp [Except.toOption]
  | ok node => cases node <;> simp [Except.toOption, Node.isDirectory]

theorem VisitStep.isBranch_eq (h : fs.VisitStep cwd visited e v visited' next) :
    v.isBranch = fs.leadsDown cwd e := by
  cases h with
  | entered hx | refused hx | unreached hx | revisited hx | tooDeep hx => exact (leadsDown_iff.mpr ⟨_, hx⟩).symm
  | file hx => rw [leadsDown, hx]; rfl
  | special h =>
    refine (Bool.eq_false_iff.mpr fun hd => ?_).symm
    obtain ⟨access, hx⟩ := leadsDown_iff.mp hd
    cases (h _ hx).1

/-- The entries that come next after a visit. -/
def nextOf (fs : FileSystem) (levels : ℕ) : Visit → List Pending
  | .entered p loc => fs.pendingIn p loc levels
  | _ => []

/-! ## Other files -/

namespace SameBranches

theorem examineEntry (h : fs.SameBranches fs') {access : Access}
    (hx : fs.examineEntry cwd e.entry e.path = .ok (.directory access)) :
    fs'.examineEntry cwd e.entry e.path = .ok (.directory access) := by
  cases hn : fs.node? e.entry with
  | none => simp only [FileSystem.examineEntry, hn] at hx; cases hx
  | some node =>
    cases node with
    | link target =>
      simp only [FileSystem.examineEntry, hn] at hx
      obtain ⟨loc, hl, hloc⟩ := exists_locate_of_stat hx
      simp only [FileSystem.examineEntry, (h _ _ rfl).mp hn]
      exact stat_of_locate (h.locate hl (isDirectory_iff.mpr ⟨_, hloc⟩)) ((h _ _ rfl).mp hloc)
    | directory =>
      simp only [FileSystem.examineEntry, hn] at hx
      cases hx
      simp only [FileSystem.examineEntry, (h _ _ rfl).mp hn]
    | _ =>
      simp only [FileSystem.examineEntry, hn] at hx
      cases hx

theorem leadsDown_eq (h : fs.SameBranches fs') : fs'.leadsDown cwd = fs.leadsDown cwd := by
  funext e
  rw [Bool.eq_iff_iff, leadsDown_iff, leadsDown_iff]
  exact ⟨fun ⟨b, hx⟩ => ⟨b, h.symm.examineEntry hx⟩, fun ⟨b, hx⟩ => ⟨b, h.examineEntry hx⟩⟩

/-- **What a walk does at a directory** does not depend on files. -/
theorem visitStep (h : fs.SameBranches fs') (he : e.Sound fs cwd) (hs : fs.VisitStep cwd visited e v visited' next)
    (hb : v.isBranch = true) : ∃ levels, next = fs.nextOf levels v ∧
      fs'.VisitStep cwd visited e v visited' (fs'.nextOf levels v) := by
  have hkey := h.realPath_eq e.path
  cases hs with
  | entered hx hd hv hl hn =>
    refine ⟨_, rfl, ?_⟩
    rw [← hkey] at hv ⊢
    exact .entered (h.examineEntry hx) hd hv (h.locate hl (isDirectory_iff.mpr ⟨_, hn⟩)) ((h _ _ rfl).mp hn)
  | refused hx hd hv hl hn hne =>
    refine ⟨0, rfl, ?_⟩
    rw [← hkey] at hv ⊢
    exact .refused (h.examineEntry hx) hd hv (h.locate hl (isDirectory_iff.mpr ⟨_, hn⟩)) ((h _ _ rfl).mp hn) hne
  | unreached hx hd hv hl =>
    -- the path leads to the directory, so it cannot be looked up for its length alone
    obtain ⟨loc, ha, -⟩ := he.exists_arrives hx
    have hlong : ¬ e.path.IsShort := by
      intro hshort
      rw [ha.locate_eq hshort] at hl
      cases hl
    obtain ⟨_, _, hleads⟩ := ha
    rw [locate_of_not_isShort hleads.nul_notMem hlong] at hl
    refine ⟨0, rfl, ?_⟩
    rw [← hkey] at hv ⊢
    exact .unreached (h.examineEntry hx) hd hv ((locate_of_not_isShort hleads.nul_notMem hlong).trans hl)
  | revisited hx hd hv =>
    refine ⟨0, rfl, ?_⟩
    rw [← hkey] at hv
    exact .revisited (h.examineEntry hx) hd hv
  | tooDeep hx hd => exact ⟨0, rfl, .tooDeep (h.examineEntry hx) hd⟩
  | file => cases hb
  | special => cases hb

theorem filter_nextOf (h : fs.SameBranches fs') (levels : ℕ) (v : Visit) :
    (fs'.nextOf levels v).filter (fs.leadsDown cwd) = (fs.nextOf levels v).filter (fs.leadsDown cwd) := by
  cases v with
  | entered p loc =>
    rw [nextOf, nextOf, pendingIn, pendingIn, List.filter_map, List.filter_map]
    refine congrArg _ ?_
    -- the names of the directories among the entries are the same, and in the same order
    have hmem : ∀ {fs fs' : FileSystem}, fs.SameBranches fs' → ∀ name, name ∈ fs.names loc →
        fs.leadsDown cwd ⟨Path.join p name.text, loc ++ [name], levels⟩ = true → name ∈ fs'.names loc := by
      intro fs fs' h name _ hd
      obtain ⟨access, hx⟩ := leadsDown_iff.mp hd
      rw [mem_names]
      have hx' := h.examineEntry hx
      cases hn : fs'.node? (loc ++ [name]) with
      | none => simp only [FileSystem.examineEntry, hn] at hx'; cases hx'
      | some node => exact ⟨node, rfl⟩
    have hperm : ((fs'.names loc).filter (fs.leadsDown cwd ∘ fun n => ⟨Path.join p n.text, loc ++ [n], levels⟩)).Perm
        ((fs.names loc).filter (fs.leadsDown cwd ∘ fun n => ⟨Path.join p n.text, loc ++ [n], levels⟩)) := by
      refine (List.perm_ext_iff_of_nodup ((nodup_names loc).filter _) ((nodup_names loc).filter _)).mpr fun name => ?_
      rw [List.mem_filter, List.mem_filter]
      exact and_congr_left fun hd =>
        ⟨fun hm => hmem h.symm name hm (h.leadsDown_eq ▸ hd), fun hm => hmem h name hm hd⟩
    exact hperm.eq_of_pairwise (fun a b _ _ => FileName.le_antisymm) ((pairwise_names fs' loc).filter _)
      ((pairwise_names fs loc).filter _)
  | _ => rfl

end SameBranches

theorem filter_visits_append {skipped : List Pending} (hp : ∀ e ∈ skipped, e.Sound fs cwd)
    (hskip : ∀ e ∈ skipped, fs.leadsDown cwd e = false) (visited : List Path) (pending : List Pending) :
    (fs.visits cwd visited (skipped ++ pending)).filter Visit.isBranch =
      (fs.visits cwd visited pending).filter Visit.isBranch := by
  induction skipped with
  | nil => rfl
  | cons e skipped ih =>
    obtain ⟨he, hp⟩ := List.forall_mem_cons.mp hp
    obtain ⟨hd, hskip⟩ := List.forall_mem_cons.mp hskip
    obtain ⟨v, visited', next, hs, heq⟩ := exists_visitStep visited he (skipped ++ pending)
    have hv : v.isBranch = false := hs.isBranch_eq.trans hd
    rw [List.cons_append, heq, List.filter_cons_of_neg (by simp [hv])]
    cases hs with
    | file => exact ih hp hskip
    | special => exact ih hp hskip
    | _ => cases hv

/-- **The visits of directories** do not depend on files. -/
theorem SameBranches.filter_visits (h : fs.SameBranches fs') (visited : List Path)
    (hp : ∀ e ∈ pending, e.Sound fs cwd) (hp' : ∀ e ∈ pending', e.Sound fs' cwd)
    (heq : pending'.filter (fs.leadsDown cwd) = pending.filter (fs.leadsDown cwd)) :
    (fs'.visits cwd visited pending').filter Visit.isBranch =
      (fs.visits cwd visited pending).filter Visit.isBranch := by
  refine visits_induction (motive := fun visited pending vs => ∀ pending', (∀ e ∈ pending', e.Sound fs' cwd) →
    pending'.filter (fs.leadsDown cwd) = pending.filter (fs.leadsDown cwd) →
    (fs'.visits cwd visited pending').filter Visit.isBranch = vs.filter Visit.isBranch) ?_ ?_ visited pending hp
    pending' hp' heq
  · intro visited pending' hp' heq
    have hskip : ∀ e ∈ pending', fs'.leadsDown cwd e = false := by
      rw [h.leadsDown_eq]
      simpa using heq
    have hnil := filter_visits_append hp' hskip visited []
    rwa [List.append_nil, visits] at hnil
  intro visited e v visited' next pending rest he hs ih pending' hp' heq
  cases hd : fs.leadsDown cwd e with
  | false =>
    have hv : v.isBranch = false := hs.isBranch_eq.trans hd
    rw [List.filter_cons_of_neg (by simp [hd])] at heq
    rw [List.filter_cons_of_neg (by simp [hv])]
    cases hs with
    | file => exact ih pending' hp' heq
    | special => exact ih pending' hp' heq
    | _ => cases hv
  | true =>
    have hv : v.isBranch = true := hs.isBranch_eq.trans hd
    rw [List.filter_cons_of_pos hd] at heq
    obtain ⟨skipped, later, rfl, hskip, -, hlater⟩ := List.filter_eq_cons_iff.mp heq
    obtain ⟨hsound, hsounds⟩ := List.forall_mem_append.mp hp'
    obtain ⟨he', hlaters⟩ := List.forall_mem_cons.mp hsounds
    obtain ⟨levels, rfl, hs'⟩ := h.visitStep he hs hv
    rw [filter_visits_append hsound (fun e he => by rw [h.leadsDown_eq]; simpa using hskip e he), visits_of_step hs',
      List.filter_cons_of_pos hv, List.filter_cons_of_pos hv]
    refine congrArg _ (ih _ (List.forall_mem_append.mpr ⟨hs'.sound he', hlaters⟩) ?_)
    rw [List.filter_append, List.filter_append, hlater, h.filter_nextOf]

variable {levels : ℕ} {root : Path}

theorem SameBranches.filter_visitsOf (h : fs.SameBranches fs') :
    (fs'.visitsOf levels cwd root).filter Visit.isBranch = (fs.visitsOf levels cwd root).filter Visit.isBranch := by
  refine h.filter_visits [] sound_outset sound_outset ?_
  have hnil : ∀ fs : FileSystem, (∀ top, fs.locate cwd (Path.absolute cwd root) = .ok top →
      fs.isDirectory top = false) →
      (fs.outset levels cwd (Path.absolute cwd root)).filter (fs.leadsDown cwd) = [] := by
    intro fs hnone
    rw [List.filter_eq_nil_iff]
    intro e he hd
    obtain ⟨access, hx⟩ := leadsDown_iff.mp hd
    unfold outset at he
    split at he
    · cases he
    next top hl =>
    obtain rfl := List.mem_singleton.mp he
    have hsound : Pending.Sound fs cwd ⟨Path.absolute cwd root, top, levels + 1⟩ := .root hl
    obtain ⟨loc, ha, hn⟩ := hsound.exists_arrives hx
    obtain rfl := (arrives_of_locate hl).unique ha
    have hfalse := hnone _ hl
    rw [isDirectory_iff.mpr ⟨access, hn⟩] at hfalse
    cases hfalse
  by_cases hd : ∃ top, fs.locate cwd (Path.absolute cwd root) = .ok top ∧ fs.isDirectory top = true
  · obtain ⟨top, hl, hd⟩ := hd
    rw [outset_of_locate hl, outset_of_locate (h.locate hl hd)]
  · have hnone : ∀ top, fs.locate cwd (Path.absolute cwd root) = .ok top → fs.isDirectory top = false :=
      fun top hl => Bool.eq_false_iff.mpr fun ht => hd ⟨top, hl, ht⟩
    have hnone' : ∀ top, fs'.locate cwd (Path.absolute cwd root) = .ok top → fs'.isDirectory top = false :=
      fun top hl => Bool.eq_false_iff.mpr fun ht => hd ⟨top, h.symm.locate hl ht, h.symm.isDirectory ht⟩
    have hnil' := hnil fs' hnone'
    rw [h.leadsDown_eq] at hnil'
    rw [hnil fs hnone, hnil']

theorem SameBranches.any_isTooDeep_eq (h : fs.SameBranches fs') :
    (fs'.visitsOf levels cwd root).any Visit.isTooDeep = (fs.visitsOf levels cwd root).any Visit.isTooDeep := by
  have key : ∀ vs : List Visit, vs.any Visit.isTooDeep = (vs.filter Visit.isBranch).any Visit.isTooDeep := by
    intro vs
    rw [Bool.eq_iff_iff, List.any_eq_true, List.any_eq_true]
    simp only [List.mem_filter]
    exact exists_congr fun v => ⟨fun ⟨hv, hd⟩ => ⟨⟨hv, Visit.isBranch_of_isTooDeep hd⟩, hd⟩, fun ⟨hv, hd⟩ => ⟨hv.1, hd⟩⟩
  rw [key, h.filter_visitsOf, ← key]

/-! ## The same files -/

namespace SameShape

theorem sameBranches (h : fs.SameShape fs') : fs.SameBranches fs' := by
  have key : ∀ {fs fs' : FileSystem}, fs.Keeps fs' → ∀ loc node, node.isFile = false → fs.node? loc = some node →
      fs'.node? loc = some node := by
    intro fs fs' h loc node hf hn
    obtain ⟨node', hn', hs⟩ := h loc node hn
    cases node <;> cases hf <;> cases node' <;> cases hs <;> exact hn'
  exact fun loc node hf => ⟨key h.keeps loc node hf, key h.kept loc node hf⟩

theorem names_eq (h : fs.SameShape fs') (loc : Location) : fs'.names loc = fs.names loc := by
  refine FileSystem.names_eq fun name => ⟨fun ⟨node, hn⟩ => ?_, fun ⟨node, hn⟩ => ?_⟩
  · obtain ⟨node', hn', -⟩ := h.kept _ node hn
    exact ⟨node', hn'⟩
  · obtain ⟨node', hn', -⟩ := h.keeps _ node hn
    exact ⟨node', hn'⟩

theorem examineEntry (h : fs.SameShape fs') {entry : Location} {p : Path} {node : Node}
    (hx : fs.examineEntry cwd entry p = .ok node) :
    ∃ node', fs'.examineEntry cwd entry p = .ok node' ∧ shape node' = shape node := by
  cases hn : fs.node? entry with
  | none => simp only [FileSystem.examineEntry, hn] at hx; cases hx
  | some old =>
    obtain ⟨new, hn', hs⟩ := h.keeps _ _ hn
    cases old with
    | link target =>
      cases new <;> cases hs
      simp only [FileSystem.examineEntry, hn] at hx
      obtain ⟨loc, hl, hloc⟩ := exists_locate_of_stat hx
      obtain ⟨node', hloc', hs'⟩ := h.keeps _ _ hloc
      simp only [FileSystem.examineEntry, hn']
      exact ⟨node', stat_of_locate (h.locate_iff.mp hl) hloc', hs'⟩
    | _ =>
      simp only [FileSystem.examineEntry, hn] at hx
      cases hx
      cases new <;> cases hs
      simp only [FileSystem.examineEntry, hn']
      exact ⟨_, rfl, rfl⟩

theorem visitStep (h : fs.SameShape fs') (he : e.Sound fs cwd) (hs : fs.VisitStep cwd visited e v visited' next) :
    fs'.VisitStep cwd visited e v visited' next := by
  cases hb : v.isBranch with
  | true =>
    obtain ⟨levels, rfl, hs'⟩ := h.sameBranches.visitStep he hs hb
    have hnext : fs'.nextOf levels v = fs.nextOf levels v := by
      cases v with
      | entered => rw [nextOf, nextOf, pendingIn, pendingIn, h.names_eq]
      | _ => rfl
    exact hnext ▸ hs'
  | false =>
    cases hs with
    | file hx =>
      obtain ⟨node, hx', hs⟩ := h.examineEntry hx
      cases node <;> cases hs
      exact .file hx'
    | special hs =>
      refine .special fun node hx => ?_
      obtain ⟨node', hx', hshape⟩ := examineEntry ⟨h.kept, h.keeps⟩ hx
      obtain ⟨hd, hf⟩ := hs _ hx'
      cases node <;> cases node' <;> cases hshape <;> exact ⟨hd, hf⟩
    | _ => cases hb

theorem visits_eq (h : fs.SameShape fs') (visited : List Path) (hp : ∀ e ∈ pending, e.Sound fs cwd) :
    fs'.visits cwd visited pending = fs.visits cwd visited pending := by
  refine visits_induction (motive := fun visited pending vs => fs'.visits cwd visited pending = vs) ?_ ?_ visited
    pending hp
  · intro visited
    rw [visits]
  · intro visited e v visited' next pending rest he hs ih
    rw [visits_of_step (h.visitStep he hs), ih]

/-- **Writing files that are there changes no walk.** -/
theorem visitsOf_eq (h : fs.SameShape fs') : fs'.visitsOf levels cwd root = fs.visitsOf levels cwd root := by
  have houtset : fs'.outset levels cwd (Path.absolute cwd root) = fs.outset levels cwd (Path.absolute cwd root) := by
    cases hl : fs.locate cwd (Path.absolute cwd root) with
    | ok top => rw [outset_of_locate hl, outset_of_locate (h.locate_iff.mp hl)]
    | error e =>
      cases hl' : fs'.locate cwd (Path.absolute cwd root) with
      | ok top => rw [h.locate_iff.mpr hl'] at hl; cases hl
      | error e' => rw [outset, outset, hl, hl']
  rw [visitsOf, houtset, h.visits_eq [] sound_outset, ← visitsOf]

end SameShape

end FileSystem

end ExtensionAudit
