import Mathlib
import ExtensionAudit.Package.Installed
import ExtensionAudit.Proofs.Tree
import ExtensionAudit.Proofs.Walk.Coverage

/-!
# Paths with steps back

A walk starts from the normalised path of its root, where each `..` has taken back the name before it. A manifest is
looked up through the path as it is written, where `..` leads to the directory above the one that was reached. The two
are the same way unless a step back takes back a link.

* `FileSystem.SameWay`: steps that lead to the same directories, through as many links;
* `Route.settle`, `Route.stepsFrom`, `Route.stepsFrom_absolute`: the steps of a path, normalised or not;
* `FileSystem.Retraces`, **`FileSystem.Retraces.sameWay`**: steps back that take back directories;
* `FileSystem.arrives_iff_leads`, `FileSystem.arrives_of_absolute`: paths seen from the root;
* **`Package.targets_of_walk`**: the directory that is walked and the manifest that is read.
-/

namespace ExtensionAudit

theorem Path.absolute_ne_nil (cwd : Location) (p : Path) : absolute cwd p ≠ [] := (isTidy_absolute cwd p).1

/-! ## Normalised steps -/

namespace Route

/-- The names that normalising has kept after one more step, last first. At the root there is nothing to take back. -/
def settle (names : List Text) : Step → List Text
  | .stay => names
  | .up => names.tail
  | .down t => t :: names

/-- The steps down along some names, of which the last stands first. -/
def downAlong (names : List Text) : List Step := names.reverse.map .down

theorem downAlong_cons (t : Text) (names : List Text) : downAlong (t :: names) = downAlong names ++ [.down t] := by
  simp [downAlong]

theorem pushComponent_eq {names : List Text} (h : ∀ c ∈ names, Path.IsKept c) (c : Text) :
    Path.pushComponent true names c = (Step.ofComponent? c).elim names (settle names) := by
  unfold Path.pushComponent Step.ofComponent?
  by_cases hnil : c = []
  · rw [if_pos (Or.inl hnil), if_pos hnil, Option.elim_none]
  by_cases hdot : c = text "."
  · rw [if_pos (Or.inr hdot), if_neg hnil, if_pos hdot, Option.elim_some, settle]
  rw [if_neg (not_or.mpr ⟨hnil, hdot⟩), if_neg hnil, if_neg hdot]
  by_cases hup : c = text ".."
  · rw [if_neg (not_not.mpr hup), if_pos hup, Option.elim_some]
    cases names with
    | nil => rfl
    | cons last before => exact if_neg (h last (List.mem_cons_self ..)).2.2
  · rw [if_pos hup, if_neg hup, Option.elim_some, settle]

theorem foldl_pushComponent {cs names : List Text} (h : ∀ c ∈ names, Path.IsKept c) :
    cs.foldl (Path.pushComponent true) names = (cs.filterMap Step.ofComponent?).foldl settle names := by
  induction cs generalizing names with
  | nil => rfl
  | cons c cs ih =>
    have hkept : ∀ k ∈ [c].foldl (Path.pushComponent true) names, Path.IsKept k := Path.isKept_foldl_pushComponent h
    rw [List.foldl_cons, List.foldl_nil] at hkept
    rw [List.foldl_cons, ih hkept, pushComponent_eq h]
    cases hc : Step.ofComponent? c with
    | none => rw [List.filterMap_cons_none hc, Option.elim_none]
    | some step => rw [List.filterMap_cons_some hc, List.foldl_cons, Option.elim_some]

theorem steps_slashes {slashes : Path} (h : ∀ c ∈ slashes, c = slash) (p : Path) :
    (ofPath (slashes ++ p)).steps = (ofPath p).steps := by
  induction slashes with
  | nil => rfl
  | cons c slashes ih =>
    rw [List.forall_mem_cons] at h
    rw [h.1, ← ih h.2]
    exact steps_append_slash [] (slashes ++ p)

theorem steps_intercalate {cs : List Text} (h : ∀ c ∈ cs, Path.IsKept c ∧ slash ∉ c) :
    (ofPath ([slash].intercalate cs)).steps = cs.map .down := by
  by_cases hne : cs = []
  · subst hne
    rfl
  have hcomponents := Path.components_intercalate hne fun c hc => (h c hc).2
  show (Path.components _).filterMap Step.ofComponent? = _
  rw [hcomponents, ← List.filterMap_eq_map]
  refine List.filterMap_congr fun c hc => ?_
  obtain ⟨⟨hnil, hdot, hup⟩, -⟩ := h c hc
  simp [Step.ofComponent?, hnil, hdot, hup]

theorem steps_normalize {p : Path} (ha : Path.isAbsolute p = true) :
    (ofPath (Path.normalize p)).steps = downAlong ((ofPath p).steps.foldl settle []) := by
  have hkept : ∀ c ∈ ((Path.components p).foldl (Path.pushComponent true) []).reverse, Path.IsKept c ∧ slash ∉ c := by
    intro c hc
    rw [List.mem_reverse] at hc
    refine ⟨Path.isKept_foldl_pushComponent (by simp) c hc, Path.slash_notMem_components p c ?_⟩
    rw [← ha] at hc
    exact (Path.of_mem_kept hc).1
  rw [Path.normalize_of_isAbsolute ha, steps_slashes Path.mem_leadingSlashes, steps_intercalate hkept,
    foldl_pushComponent (by simp), downAlong]
  rfl

/-- The steps of a path from the root. -/
def stepsFrom (cwd : Location) (p : Path) : List Step := (ofPath (Path.join (Path.ofLocation cwd) p)).steps

theorem stepsFrom_eq (cwd : Location) (p : Path) :
    stepsFrom cwd p = (if Path.isAbsolute p then [] else FileSystem.stepsTo cwd) ++ (ofPath p).steps := by
  rw [stepsFrom, Path.join]
  split
  · rw [List.nil_append]
  rw [← steps_ofLocation]
  split
  · next hend =>
    obtain ⟨q, hq⟩ : ∃ q, Path.ofLocation cwd = q ++ [slash] := by
      refine List.getLast?_eq_some_iff.mp ?_
      simpa [Path.ofLocation, Path.ofNames] using hend
    have hslash : (ofPath (q ++ [slash])).steps = (ofPath q).steps ++ (ofPath []).steps := steps_append_slash q []
    rw [hq, List.append_assoc, List.singleton_append, steps_append_slash, hslash,
      show (ofPath []).steps = [] from rfl, List.append_nil]
  · rw [steps_append_slash]

theorem stepsFrom_absolute (cwd : Location) (p : Path) :
    stepsFrom cwd (Path.absolute cwd p) = downAlong ((stepsFrom cwd p).foldl settle []) := by
  have ha := (Path.isNormal_absolute cwd p).isAbsolute
  rw [stepsFrom_eq, ha, if_pos rfl, List.nil_append, Path.absolute, steps_normalize (Path.isAbsolute_join rfl p),
    stepsFrom]

theorem stepsFrom_join (cwd : Location) {p : Path} (hp : p ≠ []) (name : FileName) :
    stepsFrom cwd (Path.join p name.text) = stepsFrom cwd p ++ [.down name.text] := by
  have hroute := ofPath_join hp name
  have ha : Path.isAbsolute (Path.join p name.text) = Path.isAbsolute p := congrArg Route.absolute hroute
  rw [stepsFrom_eq, stepsFrom_eq, ha, hroute, List.append_assoc]

theorem isAbsolute_back {p : Path} (hp : p ≠ []) (name : FileName) :
    Path.isAbsolute (Path.join p name.text ++ text "/..") = Path.isAbsolute p := by
  have hroute := congrArg Route.absolute (ofPath_join hp name)
  rw [Path.isAbsolute, List.head?_append_of_ne_nil _ (Path.join_ne_nil p name)]
  exact hroute

theorem stepsFrom_back (cwd : Location) {p : Path} (hp : p ≠ []) (name : FileName) :
    stepsFrom cwd (Path.join p name.text ++ text "/..") = stepsFrom cwd p ++ [.down name.text, .up] := by
  rw [stepsFrom_eq, stepsFrom_eq, isAbsolute_back hp, show text "/.." = slash :: text ".." from rfl, steps_append_slash,
    ofPath_join hp name, List.append_assoc, List.append_assoc]
  rfl

end Route

/-! ## The same way -/

namespace FileSystem

variable {fs : FileSystem} {first second rest steps : List Step} {k : ℕ} {dir target : Location} {slashed : Bool}

/-- Both lead to the same directories, through as many links, as far as these let paths through. -/
def SameWay (fs : FileSystem) (first second : List Step) : Prop :=
  ∀ k target, fs.isPassable target = true → (fs.Leads k [] first true target ↔ fs.Leads k [] second true target)

theorem SameWay.refl (fs : FileSystem) (steps : List Step) : fs.SameWay steps steps := fun _ _ _ => Iff.rfl

theorem SameWay.trans {third : List Step} (h : fs.SameWay first second) (h' : fs.SameWay second third) :
    fs.SameWay first third := fun k target hd => (h k target hd).trans (h' k target hd)

theorem SameWay.leads_append_iff (h : fs.SameWay first second) (hr : rest ≠ []) :
    fs.Leads k [] (first ++ rest) slashed target ↔ fs.Leads k [] (second ++ rest) slashed target := by
  rw [Leads.append_iff hr, Leads.append_iff hr]
  -- whatever goes on from a directory was let through it
  exact exists_congr fun k₁ => exists_congr fun k₂ => exists_congr fun mid => and_congr_right fun _ =>
    and_congr_left fun h₂ => h k₁ mid (h₂.isPassable_of_ne_nil hr)

theorem SameWay.append (h : fs.SameWay first second) (rest : List Step) :
    fs.SameWay (first ++ rest) (second ++ rest) := by
  cases rest with
  | nil => simpa using h
  | cons => exact fun k target _ => h.leads_append_iff (by simp)

theorem sameWay_stay (steps : List Step) : fs.SameWay (steps ++ [.stay]) steps := by
  intro k target hd
  rw [Leads.append_iff (by simp)]
  constructor
  · rintro ⟨k₁, k₂, mid, rfl, h₁, h₂⟩
    cases h₂ with
    | stay _ h =>
      cases h
      exact h₁
  · intro h
    exact ⟨k, 0, target, rfl, h, .stay hd (.here fun _ => isDirectory_of_isPassable hd)⟩

theorem sameWay_root (fs : FileSystem) : fs.SameWay [.up] [] := by
  intro k target hd
  constructor
  · intro h
    cases h with
    | up _ h => exact h
  · intro h
    cases h with
    | here => exact .up hd (.here fun _ => fs.isDirectory_root)

/-- **A step back to where one came from**, if no link is taken back. -/
theorem sameWay_back {name : FileName} (h : fs.Leads k [] steps false dir)
    (hd : fs.isPassable (dir ++ [name]) = true) : fs.SameWay (steps ++ [.down name.text, .up]) steps := by
  obtain ⟨node, hn, hl⟩ := isSolid_of_isDirectory (isDirectory_of_isPassable hd)
  have hdir := isDirectory_of_node? hn
  have hback : fs.isPassable dir = true → fs.Leads 0 dir [.down name.text, .up] true dir := by
    refine fun hpass => .down hpass hn hl (.up hd ?_)
    rw [List.dropLast_concat]
    exact .here fun _ => hdir
  have hsteps := h.of_isDirectory hdir true
  intro k' target ht
  rw [Leads.append_iff (by simp)]
  constructor
  · rintro ⟨k₁, k₂, mid, rfl, h₁, h₂⟩
    obtain rfl := hsteps.unique h₁
    have hback := hback (h₂.isPassable_of_ne_nil (by simp))
    obtain rfl := hback.unique h₂
    obtain rfl := hback.unique_links h₂
    exact h₁
  · intro htarget
    obtain rfl := hsteps.unique htarget
    exact ⟨k', 0, dir, rfl, htarget, hback ht⟩

/-- **Steps that retrace**: after some names, last first, that normalising has kept so far, each step back takes back a
directory that lets paths through, not a link, or stays at the root. -/
inductive Retraces (fs : FileSystem) : List Text → List Step → Prop where
  | done {names : List Text} : Retraces fs names []
  | stay {names : List Text} {rest : List Step} (h : Retraces fs names rest) : Retraces fs names (.stay :: rest)
  | down {names : List Text} {rest : List Step} {t : Text} (h : Retraces fs (t :: names) rest) :
      Retraces fs names (.down t :: rest)
  | root {rest : List Step} (h : Retraces fs [] rest) : Retraces fs [] (.up :: rest)
  | back {names : List Text} {rest : List Step} {k : ℕ} {dir : Location} {name : FileName}
      (hl : fs.Leads k [] (Route.downAlong names) false dir) (hd : fs.isPassable (dir ++ [name]) = true)
      (h : Retraces fs names rest) : Retraces fs (name.text :: names) (.up :: rest)

/-- **Steps that retrace** go the same way as those that normalising makes of them. -/
theorem Retraces.sameWay {names : List Text} (h : fs.Retraces names steps) :
    fs.SameWay (Route.downAlong names ++ steps) (Route.downAlong (steps.foldl Route.settle names)) := by
  induction h with
  | done => simpa using SameWay.refl fs _
  | @stay names rest _ ih =>
    rw [List.append_cons]
    exact ((sameWay_stay _).append rest).trans ih
  | @down names rest t _ ih =>
    rw [List.append_cons, ← Route.downAlong_cons]
    exact ih
  | @root rest _ ih => exact ((sameWay_root fs).append rest).trans ih
  | @back names rest _ dir name hl hd _ ih =>
    rw [Route.downAlong_cons, List.append_assoc, List.singleton_append,
      show Step.down name.text :: .up :: rest = [.down name.text, .up] ++ rest from rfl, ← List.append_assoc]
    exact ((sameWay_back hl hd).append rest).trans ih

/-! ## Paths seen from the root -/

variable {cwd : Location} {p : Path}

theorem leads_stepsTo (hd : fs.isDirectory dir = true) (he : fs.IsExposed dir) :
    fs.Leads 0 [] (stepsTo dir) true dir := by
  induction dir using List.reverseRecOn with
  | nil => exact .here fun _ => hd
  | append_singleton dir name ih =>
    obtain ⟨node, hn, hl⟩ := isSolid_of_isDirectory hd
    obtain ⟨he, hpass⟩ := isExposed_concat.mp he
    rw [stepsTo, List.map_append]
    exact (ih (isDirectory_of_node? hn) he).append (.down hpass hn hl (.here fun _ => hd)) (by simp)

theorem eq_of_leads_stepsTo (hd : fs.isDirectory dir = true) (h : fs.Leads k [] (stepsTo dir) slashed target) :
    target = dir := by
  induction dir using List.reverseRecOn generalizing k slashed target with
  | nil => cases h; rfl
  | append_singleton dir name ih =>
    obtain ⟨node, hn, hl⟩ := isSolid_of_isDirectory hd
    rw [stepsTo_concat, Leads.append_iff (by simp)] at h
    obtain ⟨k₁, k₂, mid, -, h₁, h₂⟩ := h
    obtain rfl := ih (isDirectory_of_node? hn) h₁
    have hentry := leads_entry (h₂.isPassable_of_ne_nil (by simp)) hn hl
    exact h₂.unique (hentry.of_isDirectory hd slashed)

/-- The current directory counts for a path only if the path is relative, and then it can be looked up. -/
def SeesCurrent (fs : FileSystem) (cwd : Location) (p : Path) : Prop := Path.isAbsolute p = false → fs.IsExposed cwd

theorem seesCurrent_of_leads (hcwd : fs.isDirectory cwd = true) (hp : p ≠ [])
    (h : fs.Leads k [] (Route.stepsFrom cwd p) slashed target) : fs.SeesCurrent cwd p := by
  intro ha
  rw [Route.stepsFrom_eq, if_neg (by simp [ha]), Leads.append_iff (Route.steps_ne_nil hp ha)] at h
  obtain ⟨k₁, -, mid, -, h₁, -⟩ := h
  obtain rfl := eq_of_leads_stepsTo hcwd h₁
  exact h₁.isExposed fs.isExposed_root

theorem leads_stepsFrom_iff (hcwd : fs.isDirectory cwd = true) (hsees : fs.SeesCurrent cwd p) (hp : p ≠ []) :
    fs.Leads k [] (Route.stepsFrom cwd p) slashed target ↔
      fs.Leads k (if Path.isAbsolute p then [] else cwd) (Route.ofPath p).steps slashed target := by
  rw [Route.stepsFrom_eq]
  by_cases ha : Path.isAbsolute p = true
  · rw [if_pos ha, if_pos ha, List.nil_append]
  have hrelative : Path.isAbsolute p = false := by simpa using ha
  have hto := leads_stepsTo hcwd (hsees hrelative)
  rw [if_neg ha, if_neg ha, Leads.append_iff (Route.steps_ne_nil hp hrelative)]
  constructor
  · rintro ⟨k₁, k₂, mid, rfl, h₁, h₂⟩
    obtain rfl := hto.unique h₁
    obtain rfl := hto.unique_links h₁
    rwa [Nat.zero_add]
  · exact fun h => ⟨0, k, cwd, (Nat.zero_add k).symm, hto, h⟩

theorem nul_notMem_of_leads {loc : Location} (h : fs.Leads k loc (Route.ofPath p).steps slashed target) : nul ∉ p := by
  intro hz
  obtain ⟨c, hc, hzc⟩ : ∃ c ∈ Path.components p, nul ∈ c := by
    by_contra hno
    push Not at hno
    have hnul := Path.nul_notMem_intercalate hno
    rw [show [slash].intercalate (Path.components p) = p from List.intercalate_splitOn slash] at hnul
    exact hnul hz
  have hstep : Step.ofComponent? c = some (.down c) := by
    have hne : ∀ t : Text, nul ∉ t → c ≠ t := fun t ht e => ht (e ▸ hzc)
    rw [Step.ofComponent?, if_neg (hne _ (by simp)), if_neg (hne _ (by decide)), if_neg (hne _ (by decide))]
  exact h.nul_notMem (List.mem_filterMap.mpr ⟨c, hc, hstep⟩) hzc

/-- **A path leads where its steps lead from the root**, through at most forty links. -/
theorem arrives_iff_leads (hcwd : fs.isDirectory cwd = true) (hsees : fs.SeesCurrent cwd p) (hp : p ≠ []) :
    fs.Arrives cwd p target ↔
      ∃ k ≤ maxLinks, fs.Leads k [] (Route.stepsFrom cwd p) (Route.ofPath p).slashed target := by
  simp only [Arrives, leads_stepsFrom_iff hcwd hsees hp]
  exact exists_congr fun k => and_congr_right fun _ =>
    ⟨fun h => h.leads, fun h => ⟨nul_notMem_of_leads h, hp, h⟩⟩

theorem arrives_directory_iff (hcwd : fs.isDirectory cwd = true) (hsees : fs.SeesCurrent cwd p) (hp : p ≠ [])
    (hd : fs.isDirectory target = true) :
    fs.Arrives cwd p target ↔ ∃ k ≤ maxLinks, fs.Leads k [] (Route.stepsFrom cwd p) true target := by
  rw [arrives_iff_leads hcwd hsees hp]
  exact exists_congr fun k => and_congr_right fun _ => ⟨fun h => h.of_isDirectory hd _, fun h => h.of_isDirectory hd _⟩

theorem seesCurrent_absolute (fs : FileSystem) (cwd : Location) (p : Path) : fs.SeesCurrent cwd (Path.absolute cwd p) :=
  fun ha => by
    rw [(Path.isNormal_absolute cwd p).isAbsolute] at ha
    cases ha

theorem SeesCurrent.join (h : fs.SeesCurrent cwd p) (hp : p ≠ []) (name : FileName) :
    fs.SeesCurrent cwd (Path.join p name.text) :=
  fun ha => h ((congrArg Route.absolute (Route.ofPath_join hp name)).symm.trans ha)

section Retracing

variable (hr : fs.Retraces [] (Route.stepsFrom cwd p))
include hr

theorem sameWay_absolute : fs.SameWay (Route.stepsFrom cwd p) (Route.stepsFrom cwd (Path.absolute cwd p)) := by
  rw [Route.stepsFrom_absolute]
  exact hr.sameWay

variable (hcwd : fs.isDirectory cwd = true) (hp : p ≠ [])
include hcwd hp

/-- **A path that retraces its steps** leads to the directory to which the normalised path leads. -/
theorem arrives_of_absolute (hd : fs.isPassable target = true) (h : fs.Arrives cwd (Path.absolute cwd p) target) :
    fs.SeesCurrent cwd p ∧ fs.Arrives cwd p target := by
  have hdir := isDirectory_of_isPassable hd
  obtain ⟨k, hk, hl⟩ := (arrives_directory_iff hcwd (fs.seesCurrent_absolute cwd p) (Path.absolute_ne_nil cwd p)
    hdir).mp h
  have hl' := (sameWay_absolute hr k target hd).mpr hl
  have hsees := seesCurrent_of_leads hcwd hp hl'
  exact ⟨hsees, (arrives_directory_iff hcwd hsees hp hdir).mpr ⟨k, hk, hl'⟩⟩

theorem arrives_join_absolute_iff (hsees : fs.SeesCurrent cwd p) (name : FileName) :
    fs.Arrives cwd (Path.join (Path.absolute cwd p) name.text) target ↔
      fs.Arrives cwd (Path.join p name.text) target := by
  have hne := Path.absolute_ne_nil cwd p
  rw [arrives_iff_leads hcwd ((fs.seesCurrent_absolute cwd p).join hne name) (Path.join_ne_nil _ name),
    arrives_iff_leads hcwd (hsees.join hp name) (Path.join_ne_nil _ name), Route.stepsFrom_join cwd hp,
    Route.stepsFrom_join cwd hne, Route.ofPath_join hp, Route.ofPath_join hne]
  exact exists_congr fun k => and_congr_right fun _ =>
    ((sameWay_absolute hr).leads_append_iff (by simp)).symm

end Retracing

/-! ## One step back -/

section StepBack

variable {q : Path} {name : FileName} (hcwd : fs.isDirectory cwd = true) (hq : q ≠ [])
  (hl : fs.Leads k [] (Route.stepsFrom cwd q) true dir)
include hcwd hq hl

theorem seesCurrent_back : fs.SeesCurrent cwd (Path.join q name.text ++ text "/..") :=
  fun ha => seesCurrent_of_leads hcwd hq hl ((Route.isAbsolute_back hq name).symm.trans ha)

theorem locate_back (hp : p = Path.join q name.text ++ text "/..") (hs : p.IsShort)
    (he : fs.EntryLeads dir name target) (ht : fs.isPassable target = true) :
    fs.locate cwd p = .ok target.dropLast ∨ fs.locate cwd p = .error (.system .tooManyLinks p) := by
  subst hp
  have hne : Path.join q name.text ++ text "/.." ≠ [] := List.append_ne_nil_of_right_ne_nil _ (by decide)
  have hup := isDirectory_dropLast (isDirectory_of_isPassable ht)
  obtain ⟨k', he⟩ := he
  have hstep : fs.Leads 0 target [.up] true target.dropLast := .up ht (.here fun _ => hup)
  have hback := (he.of_isDirectory (isDirectory_of_isPassable ht) true).append hstep (by simp)
  have hleads := hl.append hback (by simp)
  rw [List.singleton_append, ← Route.stepsFrom_back cwd hq,
    leads_stepsFrom_iff hcwd (seesCurrent_back hcwd hq hl) hne] at hleads
  rw [locate_of_pathLeads ⟨nul_notMem_of_leads hleads, hne, hleads.of_isDirectory hup _⟩ hs]
  split
  · exact Or.inl rfl
  · exact Or.inr rfl

theorem exists_target_of_locate_back {above : Location} (hp : p = Path.join q name.text ++ text "/..")
    (h : fs.locate cwd p = .ok above) :
    ∃ target, fs.EntryLeads dir name target ∧ fs.isPassable target = true ∧ above = target.dropLast := by
  subst hp
  have hne : Path.join q name.text ++ text "/.." ≠ [] := List.append_ne_nil_of_right_ne_nil _ (by decide)
  obtain ⟨n, -, h⟩ := (arrives_iff_leads hcwd (seesCurrent_back hcwd hq hl) hne).mp (arrives_of_locate h)
  rw [Route.stepsFrom_back cwd hq, Leads.append_iff (by simp)] at h
  obtain ⟨k₁, k₂, mid, -, h₁, h₂⟩ := h
  obtain rfl := hl.unique h₁
  rw [show [Step.down name.text, .up] = [.down name.text] ++ [.up] from rfl, Leads.append_iff (by simp)] at h₂
  obtain ⟨k₃, k₄, target, -, h₃, h₄⟩ := h₂
  refine ⟨target, ⟨k₃, h₃.of_isDirectory (h₃.isDirectory_of_slashed rfl) false⟩, h₄.isPassable_of_ne_nil (by simp), ?_⟩
  cases h₄ with
  | up _ h =>
    cases h
    rfl

end StepBack

theorem exists_entered_root {levels : ℕ} {root : Path} {vs : List Visit} (h : fs.walk levels cwd root = .ok vs) :
    ∃ dir rest, vs = .entered (Path.absolute cwd root) dir :: rest ∧ fs.isPassable dir = true ∧
      fs.locate cwd (Path.absolute cwd root) = .ok dir := by
  obtain ⟨⟨dir, hl, hn⟩, rfl, -⟩ := walk_eq_ok_iff.mp h
  have hx : fs.examineEntry cwd dir (Path.absolute cwd root) = .ok (.directory .listing) := by
    simp only [examineEntry, hn]
  rw [visitsOf, outset_of_locate hl]
  exact ⟨dir, _, visits_of_step (.entered hx rfl List.not_mem_nil hl hn) [], isPassable_of_listing hn, hl⟩

end FileSystem

/-! ## The manifest of what is walked -/

theorem FileSystem.read_toOption_congr {fs : FileSystem} {cwd : Location} {p q : Path}
    (h : ∀ target, fs.locate cwd p = .ok target ↔ fs.locate cwd q = .ok target) :
    (fs.read cwd p).toOption = (fs.read cwd q).toOption := by
  have hstat : ∀ {p q node}, (∀ target, fs.locate cwd p = .ok target → fs.locate cwd q = .ok target) →
      fs.stat cwd p = .ok node → fs.stat cwd q = .ok node := by
    intro p q node h hs
    obtain ⟨loc, hl, hn⟩ := exists_locate_of_stat hs
    exact stat_of_locate (h loc hl) hn
  cases hp : fs.stat cwd p with
  | ok node =>
    have hq := hstat (fun target => (h target).mp) hp
    simp only [read, hp, hq]
    cases node with
    | file openable _ => cases openable <;> rfl
    | _ => rfl
  | error e =>
    cases hq : fs.stat cwd q with
    | ok node =>
      rw [hstat (fun target => (h target).mpr) hq] at hp
      cases hp
    | error e' => simp only [read, hp, hq, Except.toOption]

theorem Manifest.read_toOption_congr {fs : FileSystem} {cwd : Location} {p q : Path}
    (h : (fs.read cwd p).toOption = (fs.read cwd q).toOption) :
    (read fs cwd p).toOption = (read fs cwd q).toOption := by
  rw [read, read]
  cases hp : fs.read cwd p with
  | ok bytes =>
    cases hq : fs.read cwd q with
    | ok bytes' =>
      rw [hp, hq] at h
      cases h
      rfl
    | error e => simp [hp, hq, Except.toOption] at h
  | error e =>
    cases hq : fs.read cwd q with
    | ok bytes => simp [hp, hq, Except.toOption] at h
    | error e' => rfl

namespace Package

variable {fs : FileSystem} {levels : ℕ} {cwd : Location} {p directory : Path} {vs : List Visit}

theorem targets_local (hp : p ≠ []) (hlocal : isRemote p = false) : targets fs cwd (some p) directory =
    .ok ([⟨p, (Manifest.load fs cwd p).1⟩], (Manifest.load fs cwd p).2) := by
  obtain ⟨c, rest, rfl⟩ := List.exists_cons_of_ne_nil hp
  simp only [targets, hlocal, Bool.false_eq_true, if_false]

/-- **The manifest of what is walked.** A package at a local path is labelled by what is found through the path as it is
written, and a walk of the path enters the directory that is found through the normalised path.

* If each step back of the path takes back a directory that lets paths through, not a link, then this is one directory,
  and what is read of the manifest is what would be read of it in the directory that is walked.
* If the last step of the path goes back from an entry of that directory, and that entry leads to a directory that lets
  paths through, then the manifest is looked up in the directory above it, unless that takes too many links. For a link
  this may be any directory.

Nothing is found through a path that is too long. -/
theorem targets_of_walk (directory : Path) (hcwd : fs.isDirectory cwd = true) (hp : p ≠ [])
    (hlocal : isRemote p = false) (hw : fs.walk levels cwd p = .ok vs) :
    ∃ dir rest, vs = .entered (Path.absolute cwd p) dir :: rest ∧
      targets fs cwd (some p) directory = .ok ([⟨p, (Manifest.load fs cwd p).1⟩], (Manifest.load fs cwd p).2) ∧
      (fs.Retraces [] (Route.stepsFrom cwd p) → fs.Arrives cwd p dir ∧ (p.IsShort → fs.locate cwd p = .ok dir) ∧
        ((Path.join p Manifest.fileName).IsShort → (Path.join (Path.absolute cwd p) Manifest.fileName).IsShort →
          (Manifest.read fs cwd (Path.join p Manifest.fileName)).toOption =
            (Manifest.read fs cwd (Path.join (Path.absolute cwd p) Manifest.fileName)).toOption)) ∧
      ∀ q name, p = Path.join q name.text ++ text "/.." → q ≠ [] → fs.Retraces [] (Route.stepsFrom cwd q) →
        (∀ target, fs.EntryLeads dir name target → fs.isPassable target = true → p.IsShort →
          fs.locate cwd p = .ok target.dropLast ∨ fs.locate cwd p = .error (.system .tooManyLinks p)) ∧
        ∀ above, fs.locate cwd p = .ok above →
          ∃ target, fs.EntryLeads dir name target ∧ fs.isPassable target = true ∧ above = target.dropLast := by
  obtain ⟨dir, rest, hvs, hd, hwalked⟩ := FileSystem.exists_entered_root hw
  have hwalked := FileSystem.arrives_of_locate hwalked
  refine ⟨dir, rest, hvs, targets_local hp hlocal, fun hr => ?_, ?_⟩
  · obtain ⟨hsees, harrives⟩ := FileSystem.arrives_of_absolute hr hcwd hp hd hwalked
    refine ⟨harrives, harrives.locate_eq, fun hs hs' => ?_⟩
    refine Manifest.read_toOption_congr (FileSystem.read_toOption_congr fun target => ?_)
    rw [FileSystem.locate_eq_ok_iff, FileSystem.locate_eq_ok_iff, and_iff_right hs, and_iff_right hs']
    exact (FileSystem.arrives_join_absolute_iff hr hcwd hp hsees .manifest).symm
  · rintro q name rfl hq hr
    have hsame : Route.stepsFrom cwd (Path.absolute cwd (Path.join q name.text ++ text "/..")) =
        Route.stepsFrom cwd (Path.absolute cwd q) := by
      rw [Route.stepsFrom_absolute, Route.stepsFrom_absolute, Route.stepsFrom_back cwd hq, List.foldl_append]
      rfl
    obtain ⟨k, -, hl⟩ := (FileSystem.arrives_directory_iff hcwd (fs.seesCurrent_absolute cwd _)
      (Path.absolute_ne_nil _ _) (FileSystem.isDirectory_of_isPassable hd)).mp hwalked
    rw [hsame, ← FileSystem.sameWay_absolute hr k dir hd] at hl
    exact ⟨fun target he ht hs => FileSystem.locate_back hcwd hq hl rfl hs he ht,
      fun above => FileSystem.exists_target_of_locate_back hcwd hq hl rfl⟩

/-- Two packages, one of which holds a link to a directory of the other one. -/
def annex : FileSystem := FileSystem.empty.plantAll [] [
  ⟨[.literal "shelf", .manifest], .file true (Utf8.encodeAll (text "\x7b\"name\": \"shelf\"\x7d"))⟩,
  ⟨[.literal "far", .manifest], .file true (Utf8.encodeAll (text "\x7b\"name\": \"far\"\x7d"))⟩,
  ⟨[.literal "far", .literal "deep", .literal "sub"], .directory .listing⟩,
  ⟨[.literal "shelf", .literal "l"], .link (text "../far/deep")⟩]

theorem walk_annex : annex.walk 2 [] (text "/shelf/l/..") = .ok [.entered (text "/shelf") [.literal "shelf"],
    .entered (text "/shelf/l") [.literal "far", .literal "deep"],
    .entered (text "/shelf/l/sub") [.literal "far", .literal "deep", .literal "sub"],
    .file (text "/shelf/package.json")] := by cbv

set_option maxRecDepth 20000 in
theorem targets_of_walk_annex :
    annex.locate [.literal "shelf"] (text "l/sub/../") = .ok [.literal "far", .literal "deep"] ∧
    annex.locate [] (text "/shelf/l/..") ≠ .ok [.literal "shelf"] := by
  constructor
  · have hw : annex.walk 1 [.literal "shelf"] (text "l/sub/../") =
        .ok [.entered (text "/shelf/l") [.literal "far", .literal "deep"],
          .entered (text "/shelf/l/sub") [.literal "far", .literal "deep", .literal "sub"]] := by cbv
    have hl : annex.locate [] (text "/shelf/l") = .ok [.literal "far", .literal "deep"] := by cbv
    obtain ⟨k, -, hleads⟩ := (FileSystem.arrives_iff_leads (by cbv) (fun _ => annex.isExposed_root) (by decide)).mp
      (FileSystem.arrives_of_locate hl)
    have hsub : annex.isPassable ([.literal "far", .literal "deep"] ++ [.literal "sub"]) = true := by cbv
    have hr : annex.Retraces [] (Route.stepsFrom [.literal "shelf"] (text "l/sub/../")) :=
      .down (.down (.down (.back hleads hsub .done)))
    obtain ⟨dir, rest, hvs, -, hsame, -⟩ :=
      targets_of_walk (text "/ext") (by cbv) (by decide) (by decide) hw
    cases hvs
    exact (hsame hr).2.1 (by decide)
  · have hshelf : annex.locate [] (text "/shelf") = .ok [.literal "shelf"] := by cbv
    have hl : annex.locate [] (Path.join (text "/shelf") (FileName.literal "l").text) =
        .ok [.literal "far", .literal "deep"] := by cbv
    obtain ⟨dir, rest, hvs, -, -, hback⟩ :=
      targets_of_walk (text "/ext") (by cbv) (by decide) (by decide) walk_annex
    cases hvs
    obtain ⟨habove, -⟩ := hback (text "/shelf") (.literal "l") (by decide) (by decide) (.down .done)
    rcases habove _ (FileSystem.entryLeads_of_locate_join hshelf hl) (by cbv) (by decide) with h | h
    · rw [h]
      decide
    · rw [h]
      decide

/-- **A package with the name of another one**: one directory is walked, and the manifest of another one is read. -/
theorem exists_mislabelled : ∃ (fs : FileSystem) (p : Path) (dir other : Location) (vs : List Visit),
    p ≠ [] ∧ isRemote p = false ∧ fs.walk 2 [] p = .ok vs ∧
    vs.head? = some (.entered (Path.absolute [] p) dir) ∧ fs.locate [] p = .ok other ∧ dir ≠ other ∧
    targets fs [] (some p) (text "/ext") = .ok ([⟨p, { name := text "far" }⟩], []) ∧
    (Manifest.load fs [] (Path.ofLocation dir)).1.name = text "shelf" := by
  have hl : annex.locate [] (text "/shelf/l/..") = .ok [.literal "far"] := by cbv
  have hload : Manifest.load annex [] (text "/shelf/l/..") = ({ name := text "far" }, []) := by cbv
  have ht : targets annex [] (some (text "/shelf/l/..")) (text "/ext") =
      .ok ([⟨text "/shelf/l/..", { name := text "far" }⟩], []) := by
    rw [targets_local (by decide) (by decide), hload]
  have hm : (Manifest.load annex [] (Path.ofLocation [.literal "shelf"])).1.name = text "shelf" := by cbv
  have habsolute : Path.absolute [] (text "/shelf/l/..") = text "/shelf" := by cbv
  exact ⟨annex, text "/shelf/l/..", _, _, _, by decide, by decide, walk_annex, by rw [habsolute]; rfl, hl, by decide,
    ht, hm⟩

end Package

end ExtensionAudit
