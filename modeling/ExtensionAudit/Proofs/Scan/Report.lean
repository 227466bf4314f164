import Mathlib
import ExtensionAudit.Proofs.Analysis
import ExtensionAudit.Proofs.Detect
import ExtensionAudit.Proofs.Groups
import ExtensionAudit.Proofs.Scan.Account
import ExtensionAudit.Proofs.Utf8

/-!
# Reports of scans

Whatever the files of a package hold, the report of a scan counts its own findings, and its codes and URLs are
texts without line feeds and without surrogates.

* `Report.IsGenuine`: a report as a scan makes it;
* **`Scanner.isGenuine_of_scan`**, `Analyzed.isGenuine`: every report of a scan or of an analysis is one;
* `Report.IsGenuine.exists_of_mem_grouped`, `Report.IsGenuine.isMalicious_iff`: its groups.
-/

namespace ExtensionAudit

/-! ## The text of a file -/

theorem isEncodable_decoded (bytes : Bytes) : (decoded bytes).isEncodable = true := by
  rw [Text.isEncodable_iff]
  intro c hc
  rcases Text.mem_unifyNewlines hc with hc | rfl
  · exact Text.isEncodable_iff.mp (Utf8.isEncodable_decodeLossy bytes) c hc
  · decide

/-! ## Reports -/

/-- **A report as a scan makes it.** -/
structure Report.IsGenuine (r : Report) : Prop where
  grouped_eq : r.grouped = tally r.findings
  kind_eq : ∀ f ∈ r.findings, f.kind = execKind
  newline_notMem : ∀ f ∈ r.findings, Text.newline ∉ f.code
  closing_notMem : ∀ f ∈ r.findings, Detect.callClosing ∉ f.code
  isEncodable : ∀ f ∈ r.findings, f.code.isEncodable = true
  isUrl : ∀ url ∈ r.uniqueUrls, Detect.IsUrl url

namespace Scanner

variable {s : Scanner} {fs : FileSystem} {cwd : Location} {clock clock' : Clock} {files : List Path}
  {x : Examination}

theorem exists_resultOf (hx : s.examine fs cwd clock files = (x, clock')) {file : FileResult}
    (h : file ∈ x.results) : ∃ p bytes, file = s.resultOf p bytes := by
  rw [results_examine hx] at h
  obtain ⟨p, -, hp⟩ := List.mem_filterMap.mp h
  obtain ⟨bytes, -, rfl⟩ := Option.map_eq_some_iff.mp hp
  exact ⟨p, bytes, rfl⟩

theorem isCode_of_mem_findings (hx : s.examine fs cwd clock files = (x, clock')) {vs : List Visit} {f : Finding}
    (h : f ∈ (report vs x).findings) : (∃ bytes, Detect.IsCode (decoded bytes) f.code) ∧ f.kind = execKind := by
  obtain ⟨file, hfile, hf⟩ := List.mem_flatMap.mp (show f ∈ x.results.flatMap FileResult.located from h)
  obtain ⟨p, bytes, rfl⟩ := exists_resultOf hx hfile
  obtain ⟨g, hg, rfl⟩ := List.mem_map.mp hf
  obtain ⟨hcode, hkind⟩ := Detect.isCode_of_mem_execFindings hg
  exact ⟨⟨bytes, hcode⟩, hkind⟩

theorem isUrl_of_mem_uniqueUrls (hx : s.examine fs cwd clock files = (x, clock')) {vs : List Visit} {url : Text}
    (h : url ∈ (report vs x).uniqueUrls) : Detect.IsUrl url := by
  have hk : url ∈ (Report.provenance (x.results.flatMap FileResult.occurrences)).keys := h
  rw [Report.mem_keys_provenance] at hk
  obtain ⟨o, ho, rfl⟩ := List.mem_map.mp hk
  obtain ⟨file, hfile, ho⟩ := List.mem_flatMap.mp ho
  obtain ⟨p, bytes, rfl⟩ := exists_resultOf hx hfile
  obtain ⟨url, hurl, rfl⟩ := List.mem_map.mp ho
  exact Detect.isUrl_of_mem_urls hurl

/-- **Every report of a scan is genuine**, whatever the package and the world. -/
theorem isGenuine_of_scan {s s' : Scanner} {w w' : World} {r : Report} (h : s.scan w = (s', w', .ok r)) :
    r.IsGenuine := by
  have hc := scan_cases s w
  rw [h] at hc
  cases hc with
  | reported _ _ _ _ hx =>
    refine ⟨rfl, fun f hf => (isCode_of_mem_findings hx hf).2, ?_, ?_, ?_,
      fun url hu => isUrl_of_mem_uniqueUrls hx hu⟩
    · intro f hf
      obtain ⟨⟨bytes, hcode⟩, -⟩ := isCode_of_mem_findings hx hf
      exact hcode.newline_notMem
    · intro f hf
      obtain ⟨⟨bytes, hcode⟩, -⟩ := isCode_of_mem_findings hx hf
      exact hcode.closing_notMem
    · intro f hf
      obtain ⟨⟨bytes, hcode⟩, -⟩ := isCode_of_mem_findings hx hf
      rw [Text.isEncodable_iff]
      exact fun c hc => Text.isEncodable_iff.mp (isEncodable_decoded bytes) c (hcode.subset hc)

end Scanner

/-- The time limit that is set now is too great to be added to a reading of the clock. -/
def World.isTimeless (w : World) : Bool := Clock.isBeyond w.horizon (Settings.timeLimit.read w.environment).1

namespace Package

variable {p : Package} {w : World} {vs : List Visit} (hr : isRemote p.path = false)
  (hw : w.files.walk w.levels w.cwd p.path = .ok vs)
include hr hw

theorem exists_report (hz : w.isTimeless = false) : ∃ w', p.scan w = (w', .ok (Scanner.report vs
    ((Scanner.prepare w p.path (some p.metadata) Denylist.standard).1.examine w.files w.cwd w.clock
      (Visit.files vs)).1)) := by
  obtain ⟨s', w', x, clock, hx, h⟩ := @Scanner.exists_scan_eq
    (Scanner.prepare w p.path (some p.metadata) Denylist.standard).1
    (Scanner.prepare w p.path (some p.metadata) Denylist.standard).2 vs hr hz hw
  obtain rfl := congrArg Prod.fst hx
  exact ⟨w', congrArg Prod.snd h⟩

theorem scan_of_isTimeless (hz : w.isTimeless = true) : ∃ w', p.scan w = (w', .error .limitTooGreat) := by
  rcases @Scanner.scan_cases_of_walk (Scanner.prepare w p.path (some p.metadata) Denylist.standard).1
      (Scanner.prepare w p.path (some p.metadata) Denylist.standard).2 vs hr hw with
    ⟨-, s', w', h⟩ | ⟨hz', -⟩
  · exact ⟨w', congrArg Prod.snd h⟩
  · cases hz.symm.trans hz'

end Package

theorem Package.isGenuine_of_scan {p : Package} {w w' : World} {r : Report} (h : p.scan w = (w', .ok r)) :
    r.IsGenuine := by
  obtain ⟨s, journal, -, -, hs⟩ := p.exists_scanner w
  rw [hs] at h
  exact Scanner.isGenuine_of_scan (Prod.ext rfl h)

theorem Analyzed.isGenuine {log : Path} {w w' : World} {ps : List Package} {results : List (Package × Report)}
    (h : Analyzed log w ps w' results) : ∀ x ∈ results, x.2.IsGenuine := by
  induction h with
  | nil => exact List.forall_mem_nil _
  | leftOut _ _ _ _ ih => exact ih
  | recorded hs _ _ ih => exact List.forall_mem_cons.mpr ⟨Package.isGenuine_of_scan hs, ih⟩

namespace Report.IsGenuine

variable {r : Report}

theorem exists_of_mem_grouped (h : r.IsGenuine) {g : Text × ℤ} (hg : g ∈ r.grouped) :
    0 < g.2 ∧ ∃ f ∈ r.findings, g.1 = f.code ++ labelTail := by
  rw [h.grouped_eq] at hg
  obtain ⟨f, hf, hlabel⟩ := exists_of_mem_tally hg
  exact ⟨(mem_tally.mp hg).1, f, hf, by rw [← hlabel, groupKey_eq (h.kind_eq f hf)]⟩

theorem isMalicious_iff (h : r.IsGenuine) : r.isMalicious = true ↔ r.grouped ≠ [] := by
  rw [h.grouped_eq, ne_eq, tally_eq_nil_iff]
  simp [isMalicious]

end Report.IsGenuine

end ExtensionAudit
