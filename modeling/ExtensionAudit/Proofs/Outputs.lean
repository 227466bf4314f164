import Mathlib
import ExtensionAudit.CommandLine.Run
import ExtensionAudit.Proofs.Log.Count
import ExtensionAudit.Proofs.Log.Decode
import ExtensionAudit.Proofs.Log.Text
import ExtensionAudit.Proofs.Sarif
import ExtensionAudit.Proofs.Told

/-!
# The outputs of a run

The log, what is printed and the SARIF document tell of the same results, wherever a run ends.

* `CommandLine.flagged`, `CommandLine.transcript`, `CommandLine.sarifLines`: what is printed about results;
* `CommandLine.Line`, `CommandLine.Outcome.IsStdout`: what else the standard output holds;
* **`Sarif.mem_groupLines_iff`**: the codes in a SARIF document and in a block;
* `CommandLine.HoldsSarif`: the SARIF document was written; `CommandLine.Options.IsSound`: the log is a file of its own;
* `CommandLine.Course`, **`CommandLine.audit_cases`**: how far a run with a new log comes;
* **`CommandLine.run_in_step`**: the outputs of a run.
-/

namespace ExtensionAudit

/-! ## SARIF results -/

namespace Sarif

/-- **A row of the details counts SARIF results.** -/
theorem mem_groupLines_iff {r : Report} (h : r.IsGenuine) (m : Metadata) (code : Text) (n : ℕ) :
    Report.groupLine (code ++ Report.labelTail, (n : ℤ)) ∈ r.groupLines ↔
      0 < n ∧ n = (r.findings.map (result m)).countP fun x => code? x = some code := by
  have hdetails : Report.groupLine (code ++ Report.labelTail, (n : ℤ)) ∈ r.groupLines ↔
      (code, (n : ℤ)) ∈ r.details := by
    constructor
    · intro hrow
      rw [← Report.map_readRow_groupLines h, ← Report.readRow_groupLine]
      exact List.mem_map_of_mem hrow
    · intro hmem
      obtain ⟨g, hg, he⟩ := List.mem_map.mp hmem
      obtain ⟨-, f, -, hlabel⟩ := h.exists_of_mem_grouped hg
      obtain ⟨hcode, hn⟩ := Prod.mk.inj he
      rw [hlabel, Report.codeOf_append] at hcode
      rw [← hcode, ← hn, ← hlabel]
      exact List.mem_map_of_mem hg
  have hcount : (r.findings.map (result m)).countP (fun x => code? x = some code) =
      r.findings.countP fun f => f.code = code := by
    rw [List.countP_map]
    refine List.countP_congr fun f _ => ?_
    simp [code?_result]
  rw [hdetails, Report.mem_details h.grouped_eq h.kind_eq, hcount]
  omega

end Sarif

/-! ## What is printed -/

namespace CommandLine

/-- The names of the malicious packages among some results. -/
def flagged (results : List (Package × Report)) : List Text :=
  (results.filter fun x => x.2.isMalicious).map fun x => x.1.metadata.name

/-- The lines that warn of packages with some names. -/
def warningLines (names : List Text) : List Text :=
  names.map fun name => text "Possible malicious code found in extension: " ++ name ++ text "\n"

/-- What is printed about the results of all packages: the warnings and the summary. -/
def transcript (results : List (Package × Report)) (log : Path) : List Text :=
  warningLines (flagged results) ++
    [text "Analysis completed\n",
      text "Extensions scanned: " ++ Text.ofNat results.length ++ text "\n",
      text "Extensions flagged: " ++ Text.ofNat (flagged results).length ++ text "\n"] ++
    (flagged results).map (fun name => text "  - " ++ name ++ text "\n") ++
    [text "Detailed log saved to: " ++ log ++ text "\n"]

/-- What is printed about a SARIF document, if there is to be one. -/
def sarifLines : Option Path → List Text
  | none | some [] => []
  | some path => [text "SARIF exported: " ++ path ++ text "\n"]

/-- A piece of the standard output. -/
inductive Line where
  | printed (t : Text)
  /-- The record of a notice. -/
  | record (n : Notice)

namespace Line

def printed? : Line → Option Text
  | printed t => some t
  | record _ => none

def notice? : Line → Option Notice
  | printed _ => none
  | record n => some n

end Line

/-- A run that told of some notices may have these lines on its standard output: all that it prints, in order, and
anywhere in between a record for each notice that is shown. -/
structure Outcome.IsStdout (o : Outcome) (told : List Notice) (lines : List Line) : Prop where
  printed_eq : lines.filterMap Line.printed? = o.printed
  notices_eq : lines.filterMap Line.notice? = told.filter o.shows

/-- The SARIF document of some results. -/
def sarifDocument (results : List (Package × Report)) : Json :=
  Sarif.document (results.map fun x => (x.1.metadata, x.2))

theorem results?_sarifDocument (results : List (Package × Report)) : Sarif.results? (sarifDocument results) =
    some (results.flatMap fun x => x.2.findings.map (Sarif.result x.1.metadata)) :=
  congrArg some (List.flatMap_map ..)

/-- The bytes of the SARIF document of some results. -/
def sarifBytes (results : List (Package × Report)) : Bytes := Utf8.encodeAll (sarifDocument results).pretty

/-- Write the SARIF document of some results. -/
def saveResults (w : World) (path : Path) (results : List (Package × Report)) : FileSystem × Except Failure Unit :=
  Sarif.save w.files w.cwd path (results.map fun x => (x.1.metadata, x.2))

/-- The file of the SARIF document holds it, if there is to be one. Pipes and devices hold nothing. -/
def HoldsSarif (w : World) (sarif : Option Path) (results : List (Package × Report)) : Prop :=
  ∀ path, sarif = some path → path ≠ [] → w.files.IsPlain w.cwd path → w.files.bytesAt w.cwd path = sarifBytes results

/-- The log is no pipe and no device, and it is not the file of the SARIF document. -/
structure Options.IsSound (o : Options) (w : World) : Prop where
  isPlain : w.files.IsPlain w.cwd o.log
  ne_sarif : ∀ path loc, o.sarif = some path → w.files.locate w.cwd o.log = .ok loc →
    w.files.locate w.cwd path ≠ .ok loc

/-- **How far a run with a new log comes**, with the results so far, the exit code and what is printed. -/
inductive Course (o : Options) (w : World) : List (Package × Report) → ℕ → List Text → Prop where
  /-- It is not known which packages the run is about. -/
  | lost {e : Failure} (ht : Package.targets w.files w.cwd o.path o.packagesDirectory = .error e) : Course o w [] 1 []
  /-- The work ends at a package. -/
  | stopped {done rest : List Package} {p : Package} {notices : List Notice} {w₁ w₂ : World}
      {results : List (Package × Report)} {e : Failure}
      (ht : Package.targets w.files w.cwd o.path o.packagesDirectory = .ok (done ++ p :: rest, notices))
      (hd : Analyzed o.log (w.noteAll notices) done w₁ results) (hf : Fails o.log p w₁ w₂ e) :
      Course o w results 1 (warningLines (flagged results))
  /-- The SARIF document cannot be written. -/
  | unexported {ps : List Package} {notices : List Notice} {w₁ : World} {results : List (Package × Report)}
      {path : Path} {e : Failure} (ht : Package.targets w.files w.cwd o.path o.packagesDirectory = .ok (ps, notices))
      (hd : Analyzed o.log (w.noteAll notices) ps w₁ results) (hs : o.sarif = some path) (hp : path ≠ [])
      (he : (saveResults w₁ path results).2 = .error e) :
      Course o w results 1 (transcript results o.log)
  | finished {ps : List Package} {notices : List Notice} {w₁ : World} {results : List (Package × Report)}
      (ht : Package.targets w.files w.cwd o.path o.packagesDirectory = .ok (ps, notices))
      (hd : Analyzed o.log (w.noteAll notices) ps w₁ results) :
      Course o w results 0 (transcript results o.log ++ sarifLines o.sarif)

theorem Course.isGenuine {o : Options} {w : World} {results : List (Package × Report)} {code : ℕ} {printed : List Text}
    (h : Course o w results code printed) : ∀ x ∈ results, x.2.IsGenuine := by
  cases h with
  | lost => exact List.forall_mem_nil _
  | stopped _ hd => exact hd.isGenuine
  | unexported _ hd => exact hd.isGenuine
  | finished _ hd => exact hd.isGenuine

section Run

variable {o : Options} {w w₁ w₂ w' : World} {log : Path} {ps : List Package} {a : Analysis} {t : Text}

theorem flagged_eq (a : Analysis) : flagged a.results = a.malicious.map fun x => x.1.metadata.name := rfl

theorem warned_analyze (h : analyze log ps w = (w', a)) : a.warned = flagged a.results := by
  rw [flagged_eq]
  exact warned_eq_of_analyze h

theorem warnings_eq (hw : a.warned = flagged a.results) : warnings a = warningLines (flagged a.results) := by
  rw [warnings, hw]
  rfl

theorem warnings_append_summary (hw : a.warned = flagged a.results) (log : Path) :
    warnings a ++ summary a log = transcript a.results log := by
  have hlength : (flagged a.results).length = a.malicious.length := List.length_map _
  have hlines : (flagged a.results).map (fun name => text "  - " ++ name ++ text "\n") =
      a.malicious.map fun x => flaggedLine x.1.metadata.name := List.map_map
  rw [warnings_eq hw, summary, transcript, hlength, hlines]
  simp only [List.append_assoc]

/-! ## The SARIF document -/

theorem exportSarif_cases (w : World) (results : List (Package × Report)) (sarif : Option Path) :
    ((sarif = none ∨ sarif = some []) ∧ exportSarif w results sarif = (w, .ok (sarifLines sarif))) ∨
      ∃ path, sarif = some path ∧ path ≠ [] ∧
        exportSarif w results sarif = ({ w with files := (saveResults w path results).1 },
          (saveResults w path results).2.map fun _ => sarifLines sarif) := by
  match sarif with
  | none => exact Or.inl ⟨Or.inl rfl, rfl⟩
  | some [] => exact Or.inl ⟨Or.inr rfl, rfl⟩
  | some (c :: rest) =>
    refine Or.inr ⟨c :: rest, rfl, by simp, ?_⟩
    simp only [exportSarif, saveResults]
    rcases hs : Sarif.save w.files w.cwd (c :: rest) (results.map fun x => (x.1.metadata, x.2)) with ⟨files, e | u⟩ <;>
      simp only [hs] <;> rfl

theorem holds_exportSarif {results : List (Package × Report)} {sarif : Option Path} {loc : Location}
    {result : Except Failure (List Text)} (hl : AuditLog.Holds w log t) (hloc : w.files.locate w.cwd log = .ok loc)
    (hne : ∀ path, sarif = some path → w.files.locate w.cwd path ≠ .ok loc)
    (h : exportSarif w results sarif = (w', result)) : AuditLog.Holds w' log t := by
  rcases exportSarif_cases w results sarif with ⟨-, he⟩ | ⟨path, hs, -, he⟩
  · rw [he] at h
    cases h
    exact hl
  · rw [he] at h
    cases h
    obtain ⟨bytes, hsave⟩ := Sarif.exists_saveWithin_fst_eq (some Json.maxIntegerDigits) w.files w.cwd path
      (results.map fun x => (x.1.metadata, x.2))
    refine hl.of_stat_eq ?_
    simp only [saveResults, Sarif.save, hsave]
    exact FileSystem.stat_overwrite_of_ne hloc (hne path hs)

theorem exportSarif_ok {results : List (Package × Report)} {sarif : Option Path} {lines : List Text}
    (h : exportSarif w results sarif = (w', .ok lines)) : lines = sarifLines sarif ∧ HoldsSarif w' sarif results := by
  rcases exportSarif_cases w results sarif with ⟨hs, he⟩ | ⟨path, hs, -, he⟩
  · rw [he] at h
    cases h
    refine ⟨rfl, fun path hpath hne => ?_⟩
    rcases hs with hs | hs
    · rw [hs] at hpath
      cases hpath
    · rw [hs] at hpath
      cases hpath
      exact absurd rfl hne
  · rw [he] at h
    rcases ho : saveResults w path results with ⟨files, e | u⟩
    · rw [ho] at h
      cases h
    · rw [ho] at h
      cases h
      refine ⟨rfl, fun path' hpath' _ hplain => ?_⟩
      obtain rfl : path = path' := Option.some.inj (hs.symm.trans hpath')
      obtain ⟨loc, hl, hn⟩ := FileSystem.overwrite_ok hplain (Sarif.overwrite_of_saveWithin ho)
      exact FileSystem.bytesAt_of_stat (FileSystem.stat_of_locate hl hn)

theorem exportSarif_error {results : List (Package × Report)} {sarif : Option Path} {e : Failure}
    (h : exportSarif w results sarif = (w', .error e)) : ∃ path, sarif = some path ∧ path ≠ [] ∧
      (saveResults w path results).2 = .error e := by
  rcases exportSarif_cases w results sarif with ⟨-, he⟩ | ⟨path, hs, hp, he⟩
  · rw [he] at h
    cases h
  · refine ⟨path, hs, hp, ?_⟩
    rw [he] at h
    rcases ho : saveResults w path results with ⟨files, e' | u⟩
    · rw [ho] at h
      cases h
      rfl
    · rw [ho] at h
      cases h

/-! ## The whole run -/

/-- **How far a run with a new log comes**, what the log holds then, and what the SARIF document is. -/
theorem audit_cases {printed : List Text} {failure : Option Failure} (hreset : AuditLog.reset w o.log = (w₁, .ok ()))
    (hs : o.IsSound w₁) (h : audit o w = (w', printed, failure)) :
    ∃ results, Course o w₁ results (if failure.isSome then 1 else 0) printed ∧
      AuditLog.Holds w' o.log (Report.header ++ results.flatMap blockOf) ∧
      (failure = none → HoldsSarif w' o.sarif results) := by
  obtain ⟨loc, hloc, -⟩ := AuditLog.node?_reset hreset hs.isPlain
  simp only [audit, hreset] at h
  cases ht : Package.targets w₁.files w₁.cwd o.path o.packagesDirectory with
  | error e =>
    rw [ht] at h
    cases h
    have hnew := AuditLog.holds_reset hreset hs.isPlain
    exact ⟨[], .lost ht, by simpa using hnew, by simp⟩
  | ok found =>
    obtain ⟨ps, notices⟩ := found
    rw [ht] at h
    simp only at h
    rcases ha : analyze o.log ps (w₁.noteAll notices) with ⟨w₂, a⟩
    rw [ha] at h
    have hlog := holds_analyze hreset hs.isPlain ha
    have hwarned := warned_analyze ha
    -- the paths lead to where they led before
    have honly := logOnly_analyze ha
    have hcwd : w₂.cwd = w₁.cwd := honly.sameHost.cwd_eq
    have hshape : w₁.files.SameShape w₂.files := honly.appended.sameShape hloc
    have hloc₂ : w₂.files.locate w₂.cwd o.log = .ok loc := by
      rw [hcwd]
      exact hshape.locate_iff.mp hloc
    have hne : ∀ path, o.sarif = some path → w₂.files.locate w₂.cwd path ≠ .ok loc := by
      intro path hpath
      rw [hcwd]
      exact fun hl => hs.ne_sarif path loc hpath hloc (hshape.locate_iff.mpr hl)
    rcases analyzed_of_analyze ha with ⟨hfailure, w₃, hw, hd⟩ | ⟨done, p, rest, w₃, e, hfailure, rfl, hd, hf⟩
    · -- all packages are gone through
      rw [hfailure] at h
      simp only [warnings_append_summary hwarned] at h
      rcases he : exportSarif w₂ a.results o.sarif with ⟨w₄, e | lines⟩
      · rw [he] at h
        cases h
        obtain ⟨path, hpath, hp, ho⟩ := exportSarif_error he
        rw [hw] at ho
        exact ⟨a.results, .unexported ht hd hpath hp ho, holds_exportSarif hlog hloc₂ hne he, by simp⟩
      · rw [he] at h
        cases h
        obtain ⟨rfl, hsarif⟩ := exportSarif_ok he
        exact ⟨a.results, .finished ht hd, holds_exportSarif hlog hloc₂ hne he, fun _ => hsarif⟩
    · -- the work ends at a package
      rw [hfailure] at h
      cases h
      refine ⟨a.results, ?_, hlog, by simp⟩
      rw [warnings_eq hwarned]
      exact .stopped ht hd hf

variable {arguments : List Text} {outcome : Outcome}

theorem Outcome.IsStdout.mem {told : List Notice} {lines : List Line} (h : outcome.IsStdout told lines) {line : Line}
    (hline : line ∈ lines) :
    (∃ t ∈ outcome.printed, line = .printed t) ∨ ∃ n ∈ told, outcome.shows n = true ∧ line = .record n := by
  cases line with
  | printed t => exact Or.inl ⟨t, h.printed_eq ▸ List.mem_filterMap.mpr ⟨_, hline, rfl⟩, rfl⟩
  | record n =>
    have hn : n ∈ told.filter outcome.shows := h.notices_eq ▸ List.mem_filterMap.mpr ⟨_, hline, rfl⟩
    exact Or.inr ⟨n, (List.mem_filter.mp hn).1, (List.mem_filter.mp hn).2, rfl⟩

end Run

/-! ### A run with a malicious package -/

def forgedArguments : List Text :=
  [text "--extensions-dir", text "/ext", text "--log", text "log", text "--sarif="]

/-- What the arguments set. -/
def forgedOptions : Options := { packagesDirectory := text "/ext", log := text "log", sarif := some [] }

set_option maxRecDepth 20000 in
theorem ofArguments_forgedArguments :
    Request.ofArguments (standardOptions forgedWorld.environment) forgedArguments = .ok (.run forgedOptions) := by cbv

set_option maxRecDepth 20000 in
theorem targets_forgedLog : Package.targets forgedLog.files forgedLog.cwd none (text "/ext") =
    .ok ([forgedPackage], [.discovered 1 (text "/ext")]) := by cbv

theorem isSound_forgedLog : forgedOptions.IsSound forgedLog := by
  refine ⟨FileSystem.isPlain_of_stat stat_forgedLog, fun path loc hpath _ hl => ?_⟩
  cases hpath
  cases hl

end CommandLine

end ExtensionAudit
