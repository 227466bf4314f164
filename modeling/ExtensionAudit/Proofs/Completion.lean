import Mathlib
import ExtensionAudit.Proofs.Discovery
import ExtensionAudit.Proofs.Log.Text
import ExtensionAudit.Proofs.Walk.Branches

/-!
# Whether an analysis is completed

An installed package is scanned if its root can be listed, unless it is too deep to be walked or the time limit is too
great. Its block is written unless its labels hold surrogates. A package of these three kinds ends the analysis, and
those behind it are not scanned.

* `Metadata.isEncodable`, **`Report.isEncodable_block`**: the blocks that can be written;
* `Package.isListable`, `Package.Stops`, `Package.isObstacle`: the packages that end an analysis, and why;
* **`Package.scan_cases_of_isListable`**: the scan of a package whose root can be listed;
* `analyze_unlistable`, `analyze_obstacle`, `analyze_listable`: the work on one package;
* `Progress`, `progress_analyze`, **`analyze_completed_iff`**: the whole analysis;
* `exists_obstacle`: a package that ends the analysis of another one.
-/

namespace ExtensionAudit

/-! ## Blocks that can be written -/

/-- All labels can be encoded. -/
def Metadata.isEncodable (m : Metadata) : Bool :=
  m.name.isEncodable && m.version.isEncodable && m.publisher.isEncodable && m.description.isEncodable

theorem Text.isEncodable_joinLines {ls : List Text} (h : ∀ l ∈ ls, l.isEncodable = true) :
    (joinLines ls).isEncodable = true := by
  induction ls with
  | nil => rfl
  | cons l ls ih =>
    have hl := h l (List.mem_cons_self ..)
    have hrest := ih fun k hk => h k (List.mem_cons_of_mem _ hk)
    cases ls with
    | nil => simpa [joinLines] using hl
    | cons k ls =>
      rw [joinLines, List.intercalate_cons_of_ne_nil (by simp), isEncodable_append, isEncodable_append]
      exact ⟨⟨hl, by decide⟩, hrest⟩

theorem Report.IsGenuine.isEncodable_groupLines {r : Report} (h : r.IsGenuine) :
    (Text.joinLines (r.grouped.map groupLine)).isEncodable = true := by
  refine Text.isEncodable_joinLines fun row hrow => ?_
  obtain ⟨g, hg, rfl⟩ := List.mem_map.mp hrow
  obtain ⟨-, f, hf, hlabel⟩ := h.exists_of_mem_grouped hg
  have htail : labelTail.isEncodable = true ∧ (text " (x").isEncodable = true ∧ (text ")").isEncodable = true := by
    decide
  simp only [groupLine, hlabel, Text.isEncodable_append, Text.isEncodable_ofInt, h.isEncodable f hf, htail, and_self]

theorem Report.IsGenuine.isEncodable_uniqueUrls {r : Report} (h : r.IsGenuine) :
    (Text.joinLines r.uniqueUrls).isEncodable = true := by
  refine Text.isEncodable_joinLines fun url hurl => ?_
  rw [Text.isEncodable_iff]
  exact fun c hc => (Detect.of_isUrlChar ((h.isUrl url hurl).isUrlChar c hc)).2

/-- **The block of a scanned package can be written** exactly if its labels can be encoded. -/
theorem Report.isEncodable_block {r : Report} (h : r.IsGenuine) (m : Metadata) :
    (r.block m).isEncodable = m.isEncodable := by
  have htext : ∀ s : String, (text s).isEncodable = true := fun s => Text.isEncodable_map_ofChar _
  have hseparator : separator.isEncodable = true := by decide
  rw [Bool.eq_iff_iff]
  simp only [block, Metadata.isEncodable, Text.isEncodable_append, htext, hseparator, h.isEncodable_groupLines,
    h.isEncodable_uniqueUrls, and_true, true_and, Bool.and_eq_true]

/-! ## One package -/

variable {log : Path} {p : Package} {ps rest : List Package} {w w₁ w₂ w' : World} {e : Failure} {a : Analysis}

namespace Package

/-- The root of the package can be listed. -/
def isListable (w : World) (p : Package) : Bool := w.files.canList w.cwd (Path.absolute w.cwd p.path)

/-- A walk of the package comes to a directory that lies too deep. -/
def isTooDeep (w : World) (p : Package) : Bool := (w.files.visitsOf w.levels w.cwd p.path).any Visit.isTooDeep

/-- **Why a package ends an analysis**, though its root can be listed. -/
inductive Stops (w : World) (p : Package) : Failure → Prop where
  | tooDeep (h : p.isTooDeep w = true) : Stops w p .tooDeep
  | timeless (hd : p.isTooDeep w = false) (h : w.isTimeless = true) : Stops w p .limitTooGreat
  | labels (hd : p.isTooDeep w = false) (hz : w.isTimeless = false) (h : p.metadata.isEncodable = false)
      (run : Utf8.SurrogateRun) : Stops w p (.unencodable run)

/-- The root of the package can be listed, and there is a reason why the analysis ends at it. -/
def isObstacle (w : World) (p : Package) : Bool :=
  p.isListable w && (p.isTooDeep w || w.isTimeless || !p.metadata.isEncodable)

theorem isObstacle_eq_false_iff : p.isObstacle w = false ↔ (p.isListable w = true →
    p.isTooDeep w = false ∧ w.isTimeless = false ∧ p.metadata.isEncodable = true) := by
  rw [isObstacle]
  cases p.isListable w <;> simp [and_assoc]

theorem exists_scan_unlistable (hr : isRemote p.path = false) (hz : nul ∉ p.path) (h : p.isListable w = false) :
    ∃ w₁ e, p.scan w = (w₁, .error e) ∧ e.isFileError = true := by
  unfold isListable FileSystem.canList at h
  cases hl : w.files.list w.cwd (Path.absolute w.cwd p.path) with
  | ok names =>
    rw [hl] at h
    cases h
  | error e =>
    have hw : w.files.walk w.levels w.cwd p.path = .error e := by simp only [FileSystem.walk, hl]
    obtain ⟨journal, hs⟩ := scan_of_walk hr hw
    refine ⟨_, e, hs, ?_⟩
    rcases FileSystem.list_eq_error hl with ⟨hz', -⟩ | ⟨error, rfl⟩
    · exact absurd hz' (Path.nul_notMem_absolute w.cwd hz)
    · rfl

theorem walk_of_isListable (h : p.isListable w = true) : w.files.walk w.levels w.cwd p.path =
    if p.isTooDeep w then .error .tooDeep else .ok (w.files.visitsOf w.levels w.cwd p.path) := by
  obtain ⟨top, hl, hn⟩ := FileSystem.canList_iff.mp h
  rw [FileSystem.walk, FileSystem.list_of_locate hl hn]
  rfl

/-- **The scan of a package whose root can be listed**: it is too deep, there is no telling when the time will be over,
or there is a report. -/
theorem scan_cases_of_isListable (hr : isRemote p.path = false) (h : p.isListable w = true) :
    (p.isTooDeep w = true ∧ ∃ w₁, p.scan w = (w₁, .error .tooDeep)) ∨
      (p.isTooDeep w = false ∧ w.isTimeless = true ∧ ∃ w₁, p.scan w = (w₁, .error .limitTooGreat)) ∨
      p.isTooDeep w = false ∧ w.isTimeless = false ∧ ∃ w₁ r, p.scan w = (w₁, .ok r) := by
  have hw := walk_of_isListable h
  cases hd : p.isTooDeep w with
  | true =>
    rw [hd, if_pos rfl] at hw
    obtain ⟨journal, hs⟩ := scan_of_walk hr hw
    exact Or.inl ⟨rfl, _, hs⟩
  | false =>
    rw [hd, if_neg Bool.false_ne_true] at hw
    cases hz : w.isTimeless with
    | true => exact Or.inr (Or.inl ⟨rfl, rfl, scan_of_isTimeless hr hw hz⟩)
    | false =>
      obtain ⟨w₁, hs⟩ := exists_report hr hw hz
      exact Or.inr (Or.inr ⟨rfl, rfl, w₁, _, hs⟩)

theorem isFileError_of_isListable (hr : isRemote p.path = false) (h : p.isListable w = true)
    (hs : p.scan w = (w₁, .error e)) : e.isFileError = false := by
  rcases scan_cases_of_isListable hr h with ⟨-, w₂, hs'⟩ | ⟨-, -, w₂, hs'⟩ | ⟨-, -, w₂, r, hs'⟩
  · cases hs.symm.trans hs'
    rfl
  · cases hs.symm.trans hs'
    rfl
  · cases hs.symm.trans hs'

end Package

namespace LogOnly

variable (h : LogOnly log w w')
include h

theorem isListable_eq (p : Package) : p.isListable w' = p.isListable w := by
  rw [Package.isListable, Package.isListable, h.sameHost.cwd_eq]
  exact h.appended.sameBranches.canList_eq

theorem isTooDeep_eq (p : Package) : p.isTooDeep w' = p.isTooDeep w := by
  rw [Package.isTooDeep, Package.isTooDeep, h.sameHost.cwd_eq, h.sameHost.levels_eq]
  exact h.appended.sameBranches.any_isTooDeep_eq

theorem isTimeless_eq : w'.isTimeless = w.isTimeless := by
  rw [World.isTimeless, World.isTimeless, h.sameHost.environment_eq, h.sameHost.horizon_eq]

theorem isObstacle_eq (p : Package) : p.isObstacle w' = p.isObstacle w := by
  rw [Package.isObstacle, Package.isObstacle, h.isListable_eq, h.isTooDeep_eq, h.isTimeless_eq]

theorem stops (hs : p.Stops w' e) : p.Stops w e := by
  have hd := h.isTooDeep_eq p
  have hz := h.isTimeless_eq
  cases hs with
  | tooDeep hd' => exact .tooDeep (hd ▸ hd')
  | timeless hd' hz' => exact .timeless (hd ▸ hd') (hz ▸ hz')
  | labels hd' hz' hm run => exact .labels (hd ▸ hd') (hz ▸ hz') hm run

end LogOnly

section Step

variable (log rest) (hr : Package.isRemote p.path = false)

include hr

theorem analyze_unlistable (hz : nul ∉ p.path) (h : p.isListable w = false) :
    ∃ w₁, LogOnly log w w₁ ∧ analyze log (p :: rest) w = analyze log rest w₁ := by
  obtain ⟨w₁, e, hs, he⟩ := Package.exists_scan_unlistable hr hz h
  exact ⟨_, (logOnly_scan hs).note _, analyze_leftOut hs he⟩

variable (hopen : w.files.CanOpen w.cwd log)

include hopen

/-- **An obstacle ends the analysis**, and its failure says why. -/
theorem analyze_obstacle (h : p.isObstacle w = true) :
    ∃ w₁ e, p.Stops w e ∧ analyze log (p :: rest) w = (w₁, { failure := some e }) := by
  obtain ⟨hl, hreason⟩ := Bool.and_eq_true_iff.mp h
  rcases Package.scan_cases_of_isListable hr hl with ⟨hd, w₁, hs⟩ | ⟨hd, hz, w₁, hs⟩ | ⟨hd, hz, w₁, r, hs⟩
  · exact ⟨_, _, .tooDeep hd, analyze_fails (.scan hs rfl)⟩
  · exact ⟨_, _, .timeless hd hz, analyze_fails (.scan hs rfl)⟩
  · have hm : p.metadata.isEncodable = false := by simpa [hd, hz] using hreason
    have hrecord := AuditLog.record_snd_of_canOpen ((logOnly_scan hs).canOpen hopen) p.metadata r
    rw [Report.isEncodable_block (Package.isGenuine_of_scan hs), hm] at hrecord
    exact ⟨_, _, .labels hd hz hm _, analyze_fails (.record hs (Prod.ext rfl hrecord))⟩

theorem analyze_listable (hl : p.isListable w = true) (h : p.isObstacle w = false) :
    ∃ w₁ r, LogOnly log w w₁ ∧
      analyze log (p :: rest) w = ((analyze log rest w₁).1, (analyze log rest w₁).2.cons p r) := by
  obtain ⟨hd, hz, hm⟩ := Package.isObstacle_eq_false_iff.mp h hl
  rcases Package.scan_cases_of_isListable hr hl with ⟨hd', -⟩ | ⟨-, hz', -⟩ | ⟨-, -, w₁, r, hs⟩
  · cases hd.symm.trans hd'
  · cases hz.symm.trans hz'
  · have hrecord := AuditLog.record_snd_of_canOpen ((logOnly_scan hs).canOpen hopen) p.metadata r
    rw [Report.isEncodable_block (Package.isGenuine_of_scan hs), hm] at hrecord
    exact ⟨_, r, (logOnly_scan hs).trans (logOnly_record rfl), analyze_recorded hs (Prod.ext rfl hrecord)⟩

end Step

/-! ## The whole analysis -/

/-- **How far an analysis comes**: its results are those of the packages before the first obstacle, and it fails
exactly if there is one. -/
structure Progress (w : World) (ps : List Package) (a : Analysis) : Prop where
  results_eq : a.results.map (·.1) = (ps.takeWhile fun p => !p.isObstacle w).filter (Package.isListable w)
  failure_eq_none : ps.find? (Package.isObstacle w) = none → a.failure = none
  exists_stops : ∀ p, ps.find? (Package.isObstacle w) = some p → ∃ e, a.failure = some e ∧ p.Stops w e

namespace Progress

theorem of_logOnly (hl : LogOnly log w w₁) (h : Progress w₁ ps a) : Progress w ps a := by
  have hlistable : Package.isListable w₁ = Package.isListable w := funext hl.isListable_eq
  have hobstacle : Package.isObstacle w₁ = Package.isObstacle w := funext hl.isObstacle_eq
  obtain ⟨hresults, hnone, hsome⟩ := h
  rw [hlistable, hobstacle] at hresults
  rw [hobstacle] at hnone hsome
  refine ⟨hresults, hnone, fun p hp => ?_⟩
  obtain ⟨e, he, hs⟩ := hsome p hp
  exact ⟨e, he, hl.stops hs⟩

theorem unlistable (hl : p.isListable w = false) (h : Progress w ps a) : Progress w (p :: ps) a := by
  have ho : p.isObstacle w = false := by rw [Package.isObstacle, hl, Bool.false_and]
  refine ⟨?_, ?_, ?_⟩
  · rw [List.takeWhile_cons_of_pos (by rw [ho]; rfl), List.filter_cons_of_neg (by simp [hl]), h.results_eq]
  · rw [List.find?_cons_of_neg (by simp [ho])]
    exact h.failure_eq_none
  · rw [List.find?_cons_of_neg (by simp [ho])]
    exact h.exists_stops

theorem obstacle (ho : p.isObstacle w = true) (hs : p.Stops w e) : Progress w (p :: ps) { failure := some e } := by
  refine ⟨?_, ?_, ?_⟩
  · rw [List.takeWhile_cons_of_neg (by simp [ho])]
    rfl
  · rw [List.find?_cons_of_pos ho]
    intro h
    cases h
  · rw [List.find?_cons_of_pos ho]
    intro q hq
    obtain rfl := Option.some.inj hq
    exact ⟨e, rfl, hs⟩

theorem listable (hl : p.isListable w = true) (ho : p.isObstacle w = false) (r : Report)
    (h : Progress w ps a) : Progress w (p :: ps) (a.cons p r) := by
  refine ⟨?_, ?_, ?_⟩
  · rw [List.takeWhile_cons_of_pos (by rw [ho]; rfl), List.filter_cons_of_pos hl, ← h.results_eq]
    rfl
  · rw [List.find?_cons_of_neg (by simp [ho])]
    exact h.failure_eq_none
  · rw [List.find?_cons_of_neg (by simp [ho])]
    exact h.exists_stops

end Progress

theorem progress_analyze (hps : ∀ p ∈ ps, Package.isRemote p.path = false ∧ nul ∉ p.path)
    (hopen : w.files.CanOpen w.cwd log) : Progress w ps (analyze log ps w).2 := by
  induction ps generalizing w with
  | nil => exact ⟨rfl, fun _ => rfl, fun _ h => nomatch h⟩
  | cons p ps ih =>
    obtain ⟨⟨hr, hz⟩, hrest⟩ := List.forall_mem_cons.mp hps
    have later : ∀ {w₁}, LogOnly log w w₁ → Progress w ps (analyze log ps w₁).2 :=
      fun hs => (ih hrest (hs.canOpen hopen)).of_logOnly hs
    cases hl : p.isListable w with
    | false =>
      obtain ⟨w₁, hs, ha⟩ := analyze_unlistable log ps hr hz hl
      rw [ha]
      exact (later hs).unlistable hl
    | true =>
      cases ho : p.isObstacle w with
      | true =>
        obtain ⟨w₁, e, hs, ha⟩ := analyze_obstacle log ps hr hopen ho
        rw [ha]
        exact .obstacle ho hs
      | false =>
        obtain ⟨w₁, r, hs, ha⟩ := analyze_listable log ps hr hopen hl ho
        rw [ha]
        exact (later hs).listable hl ho r

/-- **When an analysis of installed packages is completed**: exactly if each of them whose root can be listed is not too
deep, has labels that can be encoded, and has a time limit for which there is a deadline, if it has one. Else it ends at
the first package that does not, and its failure says why. There is one result and one block for each package before
that whose root can be listed. -/
theorem analyze_completed_iff {fs : FileSystem} {cwd : Location} {excluded : List Text} {directory : Path}
    {found : List Package} {notices : List Notice}
    (hfound : Package.discover fs cwd excluded directory = .ok (found, notices))
    (hps : ∀ p ∈ ps, p ∈ found ∧ Package.isRemote p.path = false) (hopen : w.files.CanOpen w.cwd log)
    (h : analyze log ps w = (w', a)) :
    (a.failure = none ↔ ∀ p ∈ ps, p.isListable w = true →
      p.isTooDeep w = false ∧ w.isTimeless = false ∧ p.metadata.isEncodable = true) ∧
      (∀ e, a.failure = some e → ∃ p, ps.find? (Package.isObstacle w) = some p ∧ p.Stops w e) ∧
      a.results.map (·.1) = (ps.takeWhile fun p => !p.isObstacle w).filter (Package.isListable w) ∧
      (w.files.IsPlain w.cwd log → w'.files.bytesAt w.cwd log =
        w.files.bytesAt w.cwd log ++ Utf8.encodeAll (a.results.flatMap blockOf)) := by
  have hnul := Package.nul_notMem_of_discover hfound
  obtain ⟨hresults, hnone, hsome⟩ := progress_analyze (fun p hp => ⟨(hps p hp).2, hnul p (hps p hp).1⟩) hopen
  rw [h] at hresults hnone hsome
  have hfind : ps.find? (Package.isObstacle w) = none ↔ ∀ p ∈ ps, p.isListable w = true →
      p.isTooDeep w = false ∧ w.isTimeless = false ∧ p.metadata.isEncodable = true := by
    simp only [List.find?_eq_none, Bool.not_eq_true, Package.isObstacle_eq_false_iff]
  refine ⟨?_, ?_, hresults, fun hp => (adds_analyze hp h).1.bytesAt_cwd⟩
  · rw [← hfind]
    refine ⟨fun hf => ?_, hnone⟩
    cases hfind' : ps.find? (Package.isObstacle w) with
    | none => rfl
    | some p =>
      obtain ⟨e, he, -⟩ := hsome p hfind'
      cases hf.symm.trans he
  · intro e he
    cases hf : ps.find? (Package.isObstacle w) with
    | none => cases (hnone hf).symm.trans he
    | some p =>
      obtain ⟨e', he', hs⟩ := hsome p hf
      cases he.symm.trans he'
      exact ⟨p, rfl, hs⟩

/-! ### A package that ends the analysis of another one -/

/-- A world with two packages and a log. The name of the first package is a surrogate. -/
def obstacleWorld : World :=
  { goneWorld with
    files := FileSystem.empty.plantAll [] [
      ⟨[.literal "plugins", .literal "broken", .manifest],
        .file true (Utf8.encodeAll (text "\x7b\"name\": \"\\ud800\"\x7d"))⟩,
      ⟨[.literal "plugins", .literal "sound", .manifest],
        .file true (Utf8.encodeAll (text "\x7b\"name\": \"sound\"\x7d"))⟩,
      ⟨[.literal "audit"], .file true []⟩] }

def surrogate : CodePoint := ⟨0xD800, by decide⟩

/-- The packages as they are found. -/
def obstaclePackages : List Package :=
  [⟨text "/plugins/broken", { name := [surrogate] }⟩, ⟨text "/plugins/sound", { name := text "sound" }⟩]

set_option maxRecDepth 20000 in
theorem discover_obstacleWorld : Package.discover obstacleWorld.files obstacleWorld.cwd [] (text "/plugins") =
    .ok (obstaclePackages, [.discovered 2 (text "/plugins")]) := by cbv

set_option maxRecDepth 20000 in
theorem stat_obstacleWorld : obstacleWorld.files.stat obstacleWorld.cwd (text "/audit") = .ok (.file true []) := by cbv

theorem isTimeless_obstacleWorld : obstacleWorld.isTimeless = false := by decide +kernel

set_option maxRecDepth 20000 in
theorem of_mem_obstaclePackages : ∀ p ∈ obstaclePackages, Package.isRemote p.path = false ∧
    p.isListable obstacleWorld = true ∧ p.isTooDeep obstacleWorld = false ∧
    p.isObstacle obstacleWorld = !p.metadata.isEncodable := by
  have hlistable : obstaclePackages.all (Package.isListable obstacleWorld) = true := by cbv
  have hdeep : obstaclePackages.all (fun p => !p.isTooDeep obstacleWorld) = true := by cbv
  have hlocal : ∀ p ∈ obstaclePackages, Package.isRemote p.path = false := by decide
  intro p hp
  have hl := List.all_eq_true.mp hlistable p hp
  have hd : p.isTooDeep obstacleWorld = false := by simpa using List.all_eq_true.mp hdeep p hp
  exact ⟨hlocal p hp, hl, hd, by rw [Package.isObstacle, hl, hd, isTimeless_obstacleWorld]; rfl⟩

theorem canOpen_obstacleWorld : obstacleWorld.files.CanOpen obstacleWorld.cwd (text "/audit") := by
  obtain ⟨loc, hl, hn⟩ := FileSystem.exists_locate_of_stat stat_obstacleWorld
  exact FileSystem.canOpen_of_locate hl hn (Or.inl ⟨[], rfl⟩)

/-- The analysis ends at the first package, and the log stays empty. -/
theorem analyze_completed_iff_obstacle : ∃ w a, analyze (text "/audit") obstaclePackages obstacleWorld = (w, a) ∧
    a.failure ≠ none ∧ a.results = [] ∧ w.files.bytesAt obstacleWorld.cwd (text "/audit") = [] := by
  rcases ha : analyze (text "/audit") obstaclePackages obstacleWorld with ⟨w, a⟩
  obtain ⟨hcompleted, -, hresults, hlog⟩ := analyze_completed_iff discover_obstacleWorld
    (fun p hp => ⟨hp, (of_mem_obstaclePackages p hp).1⟩) canOpen_obstacleWorld ha
  have hfirst := of_mem_obstaclePackages ⟨text "/plugins/broken", { name := [surrogate] }⟩ (List.mem_cons_self ..)
  have hnil : a.results = [] := by
    rw [← List.map_eq_nil_iff, hresults, obstaclePackages, List.takeWhile_cons_of_neg, List.filter_nil]
    rw [hfirst.2.2.2]
    decide
  refine ⟨w, a, rfl, ?_, hnil, ?_⟩
  · intro hnone
    obtain ⟨-, -, hencodable⟩ := hcompleted.mp hnone _ (List.mem_cons_self ..) hfirst.2.1
    exact absurd hencodable (by decide)
  · rw [hlog (FileSystem.isPlain_of_stat stat_obstacleWorld), hnil, FileSystem.bytesAt_of_stat stat_obstacleWorld]
    rfl

/-- **A package that ends the analysis of another one.** Both are found and can be listed, and the log can be opened,
but there is no result of either. -/
theorem exists_obstacle : ∃ ps notices, Package.discover obstacleWorld.files obstacleWorld.cwd [] (text "/plugins") =
      .ok (ps, notices) ∧ ps.length = 2 ∧
    (∀ p ∈ ps, Package.isRemote p.path = false ∧ p.isListable (obstacleWorld.noteAll notices) = true) ∧
    (obstacleWorld.noteAll notices).files.CanOpen obstacleWorld.cwd (text "/audit") ∧
    ∃ w run, analyze (text "/audit") ps (obstacleWorld.noteAll notices) =
      (w, { failure := some (.unencodable run) }) := by
  refine ⟨_, _, discover_obstacleWorld, rfl, ?_, canOpen_obstacleWorld, ?_⟩
  · intro p hp
    obtain ⟨hr, hl, -⟩ := of_mem_obstaclePackages p hp
    exact ⟨hr, hl⟩
  · obtain ⟨hr, -, hd, ho⟩ :=
      of_mem_obstaclePackages ⟨text "/plugins/broken", { name := [surrogate] }⟩ (List.mem_cons_self ..)
    obtain ⟨w, e, hs, ha⟩ := analyze_obstacle (w := obstacleWorld.noteAll [.discovered 2 (text "/plugins")])
      (text "/audit") [⟨text "/plugins/sound", { name := text "sound" }⟩] hr canOpen_obstacleWorld
      (ho.trans (by decide))
    cases hs with
    | tooDeep hd' => cases hd.symm.trans hd'
    | timeless _ hz => cases isTimeless_obstacleWorld.symm.trans hz
    | labels => exact ⟨w, _, ha⟩

end ExtensionAudit
