import ExtensionAudit.Proofs.Scan.Account
import ExtensionAudit.Proofs.Scan.Remote
import ExtensionAudit.Proofs.Walk.Coverage

/-!
# Packages that grow

New entries may change the paths by which directories are entered, and the order of all that follows. They
hide no finding in a file that lies beneath the root, unless its directory is entered at a path that is too long. Then a
path is skipped that leads to the file or to a directory above it.

* `FileSystem.createAll`, `FileSystem.extends_createAll`: new entries;
* `FileSystem.Extends.beneath`: what lies beneath the root stays there;
* `Scanner.mem_findings_report`, `Scanner.mem_skipped_report`: the findings of a scan without a time limit, and what it
  skips;
* `Scanner.Loses`: a path that is too long is skipped, and a file with it;
* **`Scanner.finding_mono`**: findings stay.
-/

namespace ExtensionAudit

namespace FileSystem

variable {fs fs' : FileSystem} {cwd : Location}

/-! ## New entries -/

def createAll (fs : FileSystem) (entries : List (Location × FileName × Node)) : FileSystem :=
  entries.foldl (fun fs e => fs.create e.1 e.2.1 e.2.2) fs

theorem extends_createAll (fs : FileSystem) (entries : List (Location × FileName × Node)) :
    fs.Extends (fs.createAll entries) := by
  unfold createAll
  induction entries generalizing fs with
  | nil => exact .refl fs
  | cons e entries ih => exact (extends_create fs _ _ _).trans (ih _)

theorem Extends.beneath {top dir : Location} (he : fs.Extends fs') (h : fs.Beneath top dir) :
    fs'.Beneath top dir := by
  induction h with
  | top hn => exact .top (he _ _ hn)
  | entry _ hn ih => exact .entry ih (he _ _ hn)

end FileSystem

namespace Scanner

variable {s : Scanner} {fs : FileSystem} {cwd : Location}

theorem mem_findingsAt {p : Path} {f : Finding} : f ∈ s.findingsAt fs cwd p ↔
    ∃ bytes, fs.readable? cwd s.maxFileSize p = some bytes ∧
      ∃ g ∈ Detect.execFindings s.denylist (decoded bytes), { g with path := p } = f := by
  unfold findingsAt
  split
  · next h => simp [h]
  · next bytes h => simp [h]

theorem mem_findings_report {vs : List Visit} {x : Examination} {clock clock' : Clock} (hl : s.timeLimit ≤ 0)
    (hx : s.examine fs cwd clock (Visit.files vs) = (x, clock')) {f : Finding} :
    f ∈ (report vs x).findings ↔ ∃ p ∈ Visit.files vs, f ∈ s.findingsAt fs cwd p := by
  rw [show (report vs x).findings = x.results.flatMap FileResult.located from rfl,
    flatMap_located_examine hx, Clock.reach_unlimited hl, List.take_length, List.mem_flatMap]

theorem mem_skipped_report {vs : List Visit} {x : Examination} {clock clock' : Clock} (hl : s.timeLimit ≤ 0)
    (hx : s.examine fs cwd clock (Visit.files vs) = (x, clock')) {p : Path} :
    p ∈ (report vs x).skipped ↔
      p ∈ Visit.refusedPaths vs ∨ p ∈ Visit.files vs ∧ fs.readable? cwd s.maxFileSize p = none := by
  rw [show (report vs x).skipped = Visit.refusedPaths vs ++ x.skipped from rfl, skipped_examine hx,
    Clock.reach_unlimited hl, List.take_length, List.mem_append, List.mem_filter, Option.isNone_iff_eq_none]

/-- A path is skipped that leads to the entry or to a directory above it, and that is too long to be looked up. -/
def Loses (fs : FileSystem) (cwd : Location) (r : Report) (entry : Location) : Prop :=
  ∃ p : Path, p ∈ r.skipped ∧ ¬ p.IsShort ∧ ∃ loc, loc <+: entry ∧ fs.Arrives cwd p loc

/-- **Findings stay.** New entries hide no finding in a file that lies beneath the root: unless directories lie too
deep then, the scan returns, and it is found again at the same line and with the same argument, under a path to the
same file; or a path is skipped that leads to this file or to a directory above it, and that is too long to be looked
up. The path of every link is to be short. -/
theorem finding_mono {s s₁ : Scanner} {w w' w₁ : World} {r : Report} {f : Finding} {top dir : Location}
    {name : FileName} (he : w.files.Extends w'.files) (hc : w'.cwd = w.cwd) (hshort : w'.files.HasShortLinks)
    (hr : Package.isRemote s.root = false) (hl : s.timeLimit ≤ 0) (h : s.scan w = (s₁, w₁, .ok r))
    (hf : f ∈ r.findings) (ht : w.files.locate w.cwd (Path.absolute w.cwd s.root) = .ok top)
    (hb : w.files.Beneath top dir) (hp : w.files.locate w.cwd f.path = .ok (dir ++ [name])) :
    ((s.scan w').2.2 = .error .tooDeep ∧ ∃ rel loc, rel.length = w'.levels + 1 ∧
      w'.files.Arrives w'.cwd (Path.beneath (Path.absolute w'.cwd s.root) rel) loc ∧
      w'.files.isDirectory loc = true) ∨
    ∃ s₂ w₂ r', s.scan w' = (s₂, w₂, .ok r') ∧
      ((∃ f' ∈ r'.findings, f'.line = f.line ∧ f'.code = f.code ∧ f'.kind = f.kind ∧
        w'.files.locate w'.cwd f'.path = .ok (dir ++ [name])) ∨ Loses w'.files w'.cwd r' (dir ++ [name])) := by
  have hcases := scan_cases s w
  rw [h] at hcases
  cases hcases with
  | @reported files fs root vs x clock journal _ hs hw _ hx =>
  obtain ⟨rfl, rfl⟩ := hs.eq_of_installed hr
  -- the file of the finding can be read before and after
  obtain ⟨p, -, hfp⟩ := (mem_findings_report hl hx).mp hf
  obtain ⟨bytes, hbytes, g, hg, rfl⟩ := mem_findingsAt.mp hfp
  obtain ⟨hstat, hsize⟩ := FileSystem.readable?_eq_some.mp hbytes
  obtain ⟨loc, hloc, hn⟩ := FileSystem.exists_locate_of_stat hstat
  cases hp.symm.trans hloc
  have hn' := he _ _ hn
  -- the new walk finds the file in its directory, unless that is lost
  have ht' := he.keeps.locate ht
  rw [← hc] at ht'
  obtain ⟨top', htop', hlist⟩ := (FileSystem.walk_eq_ok_iff.mp hw).1
  cases ht.symm.trans htop'
  rcases FileSystem.walk_cases ht' (he _ _ hlist) w'.levels with hdeep | hw'
  · refine Or.inl ⟨?_, FileSystem.exists_of_walk_eq_tooDeep hdeep⟩
    have hsite : site w' s.root = .ok (w'.files, s.root) := if_neg (by simp [hr])
    rw [result_scan, hsite]
    simp only [Except.bind, outcome, hdeep]
  generalize w'.files.visitsOf w'.levels w'.cwd s.root = vs' at hw'
  obtain ⟨s₂, w₂, x', clock', hx', hscan⟩ := exists_scan_eq hr (Clock.isBeyond_of_nonpos hl _) hw'
  refine Or.inr ⟨s₂, w₂, _, hscan, ?_⟩
  rcases FileSystem.exists_entered_of_beneath hw' hshort ht' (he.beneath hb) with ⟨q, hv⟩
    | ⟨above, hab, q, hq, hlong, ha⟩
  case inr =>
    exact Or.inr ⟨q, (mem_skipped_report hl hx').mpr (Or.inl hq), hlong, above,
      hab.trans (List.prefix_append _ _), ha⟩
  have hm := FileSystem.mem_files_of_isFileAt hw' hv ⟨true, bytes, hn'⟩
  have ha : w'.files.Arrives w'.cwd (Path.join q name.text) (dir ++ [name]) :=
    (FileSystem.arrives_of_locate (FileSystem.locate_of_entered hw' hv)).join
      (FileSystem.isPassable_of_entered hw' hv) hn' (by simp)
  by_cases hq : (Path.join q name.text).IsShort
  · have hlocate := ha.locate_eq hq
    have hbytes' := FileSystem.readable?_eq_some.mpr ⟨FileSystem.stat_of_locate hlocate hn', hsize⟩
    refine Or.inl ⟨{ g with path := Path.join q name.text }, ?_, rfl, rfl, rfl, hlocate⟩
    exact (mem_findings_report hl hx').mpr ⟨_, hm, mem_findingsAt.mpr ⟨bytes, hbytes', g, hg, rfl⟩⟩
  · refine Or.inr ⟨_, (mem_skipped_report hl hx').mpr (Or.inr ⟨hm, ?_⟩), hq, _, List.prefix_refl _, ha⟩
    rw [Option.eq_none_iff_forall_ne_some]
    intro bytes' hbytes'
    obtain ⟨loc, hlocate, -⟩ := FileSystem.exists_locate_of_stat (FileSystem.readable?_eq_some.mp hbytes').1
    exact hq (FileSystem.isShort_of_locate hlocate)

/-- A package with one suspicious file. -/
def lairWorld : World :=
  { hastyWorld with
    files := FileSystem.empty.plantAll [] [⟨[.literal "lair", .literal "den", .literal "beast"],
      .file true ((text "exec(rm)").map fun c => c.toNat.toUInt8)⟩] }

/-- The same package with a pipe, and with a link to the directory of that file, which comes before it. -/
def decoyWorld : World :=
  { lairWorld with
    files := lairWorld.files.createAll [([.literal "lair", .literal "den"], .literal "trap", .pipe),
      ([.literal "lair"], .literal "decoy", .link (text "den"))] }

/-- A scanner of that package without a time limit. -/
def patient : Scanner := { hasty with root := text "/lair", timeLimit := 0 }

set_option maxRecDepth 20000 in
theorem walk_lairWorld : lairWorld.files.walk lairWorld.levels lairWorld.cwd patient.root = .ok [
    .entered (text "/lair") [.literal "lair"], .entered (text "/lair/den") [.literal "lair", .literal "den"],
    .file (text "/lair/den/beast")] := by cbv

set_option maxRecDepth 20000 in
theorem walk_decoyWorld : decoyWorld.files.walk decoyWorld.levels decoyWorld.cwd patient.root = .ok [
    .entered (text "/lair") [.literal "lair"], .entered (text "/lair/decoy") [.literal "lair", .literal "den"],
    .file (text "/lair/decoy/beast"), .special (text "/lair/decoy/trap"), .revisited (text "/lair/den")] := by cbv

theorem finding_mono_decoyWorld : ∃ s₂ w₂ r', patient.scan decoyWorld = (s₂, w₂, .ok r') ∧
    ∃ f ∈ r'.findings, f.line = 1 ∧ f.code = text "rm" ∧ f.kind = execKind ∧
      decoyWorld.files.locate decoyWorld.cwd f.path =
        .ok ([.literal "lair", .literal "den"] ++ [.literal "beast"]) := by
  obtain ⟨s₁, w₁, x, clock, hx, h⟩ := exists_scan_eq (by decide) (by decide) walk_lairWorld
  have hf : ⟨text "/lair/den/beast", 1, text "rm", execKind⟩ ∈ (report _ x).findings :=
    (mem_findings_report le_rfl hx).mpr ⟨text "/lair/den/beast", by decide, by
      rw [show patient.findingsAt lairWorld.files lairWorld.cwd (text "/lair/den/beast") =
        [⟨text "/lair/den/beast", 1, text "rm", execKind⟩] by cbv]
      exact List.mem_singleton_self _⟩
  have hb : lairWorld.files.Beneath [.literal "lair"] [.literal "lair", .literal "den"] :=
    @FileSystem.Beneath.entry _ _ [.literal "lair"] (.literal "den") (.top (by cbv)) (by cbv)
  have he : lairWorld.files.Extends decoyWorld.files := FileSystem.extends_createAll _ _
  have hshort : decoyWorld.files.HasShortLinks := by decide +kernel
  obtain ⟨s₂, w₂, x', clock', hx', hscan⟩ := exists_scan_eq (by decide) (by decide) walk_decoyWorld
  rcases finding_mono he rfl hshort (by decide) le_rfl h hf (by cbv) hb (by cbv) with
    ⟨hdeep, -⟩ | ⟨s₃, w₃, r', hscan', hfound | ⟨p, hskipped, hlong, -⟩⟩
  · rw [hscan] at hdeep
    cases hdeep
  · exact ⟨s₃, w₃, r', hscan', hfound⟩
  · -- the only file of the walk has a short path
    cases hscan.symm.trans hscan'
    rcases (mem_skipped_report le_rfl hx').mp hskipped with hrefused | ⟨hfile, -⟩
    · cases hrefused
    · obtain rfl : p = text "/lair/decoy/beast" := List.mem_singleton.mp hfile
      exact absurd (by decide) hlong

end Scanner

end ExtensionAudit
