import ExtensionAudit.Analysis
import ExtensionAudit.Proofs.Append
import ExtensionAudit.Proofs.Scan.Outcome

/-!
# How an analysis goes

Packages are gone through in order until one fails. What is found, what the log holds and who is warned of stay
in step, wherever the failure is.

* `Package.Unlistable`, `Package.CloneFails`: why a package cannot be scanned;
* `Analyzed`: the packages that were gone through; `Fails`: the one at which the work ends;
* `analyze_append`, **`analyze_cases`**: an analysis is made of these;
* `Adds`, `Analyzed.adds`, `Fails.adds`: what is added to the log;
* **`analyze_in_step`**: the whole analysis.
-/

namespace ExtensionAudit

open Scanner

variable {log : Path} {p : Package} {ps rest : List Package} {w w₁ w' : World} {e : Failure}

/-! ## The scan of one package -/

theorem FileSystem.list_of_walk {fs : FileSystem} {levels : ℕ} {cwd : Location} {root : Path}
    (h : fs.walk levels cwd root = .error e) (he : e ≠ .tooDeep) :
    fs.list cwd (Path.absolute cwd root) = .error e := by
  unfold walk at h
  split at h
  · next hl => cases h; exact hl
  · simp only at h
    split at h
    · cases h; exact absurd rfl he
    · cases h

namespace Package

/-- **The root of a package cannot be listed**, or there is no room for what is fetched. -/
inductive Unlistable (p : Package) (w : World) : Failure → Prop where
  | noRoom (hr : Package.isRemote p.path = true) (h : freshName? w = none) :
      Unlistable p w (.system .exists (Path.ofLocation []))
  | root {fs : FileSystem} {root : Path} {e : Failure} (hs : Site w p.path fs root)
      (hl : fs.list w.cwd (Path.absolute w.cwd root) = .error e) : Unlistable p w e

/-- A package cannot be fetched, though there is room for it, because of an error of whatever kind. -/
structure CloneFails (p : Package) (w : World) (reason : Text) : Prop where
  isRemote : Package.isRemote p.path = true
  isSome_freshName? : (freshName? w).isSome = true
  failure_eq : (w.remote w.fetched.length).failure = some reason

theorem exists_scanner (p : Package) (w : World) : ∃ (s : Scanner) (journal : List Notice),
    s.root = p.path ∧ s.temporary = none ∧ p.scan w = (s.scan { w with journal }).2 :=
  ⟨_, _, rfl, rfl, rfl⟩

theorem files_scan (p : Package) (w : World) : (p.scan w).1.files = w.files := by
  obtain ⟨s, journal, -, ht, he⟩ := p.exists_scanner w
  rw [he]
  exact Scanner.files_scan ht

theorem sameHost_scan (p : Package) (w : World) : w.SameHost (p.scan w).1 := by
  obtain ⟨s, journal, -, -, he⟩ := p.exists_scanner w
  obtain ⟨hcwd, henvironment, hlevels, hhorizon⟩ := @Scanner.sameHost_scan s { w with journal }
  rw [he]
  exact ⟨hcwd, henvironment, hlevels, hhorizon⟩

theorem unlistable_of_scan (h : p.scan w = (w₁, .error e)) (he : e.isFileError = true) :
    p.Unlistable w e := by
  obtain ⟨s, journal, hroot, -, hs⟩ := p.exists_scanner w
  have hc := scan_cases s { w with journal }
  generalize s.scan { w with journal } = out at hc hs
  rw [h] at hs
  cases hc with
  | noRoom _ hr hn =>
    cases hs
    exact .noRoom (hroot ▸ hr) hn
  | notFetched =>
    cases hs
    cases he
  | notWalked _ hsite hw =>
    cases hs
    rw [hroot] at hsite
    have hl := FileSystem.list_of_walk hw (by rintro rfl; cases he)
    cases hsite with
    | installed hr => exact .root (.installed hr) hl
    | fetched hr hn hc => exact .root (.fetched hr hn hc) hl
  | notTimed =>
    cases hs
    cases he
  | reported => cases hs

theorem scan_of_walk (hr : Package.isRemote p.path = false) (hw : w.files.walk w.levels w.cwd p.path = .error e) :
    ∃ journal, p.scan w = ({ w with journal }, .error e) := by
  obtain ⟨s, journal, hroot, ht, hs⟩ := p.exists_scanner w
  rw [← hroot] at hr hw
  have hc := scan_cases s { w with journal }
  generalize s.scan { w with journal } = out at hc hs
  rw [hs]
  cases hc with
  | noRoom _ hr' => rw [hr] at hr'; cases hr'
  | notFetched hr' => rw [hr] at hr'; cases hr'
  | @notWalked _ _ _ _ journal' hf hsite hw' =>
    obtain ⟨rfl, rfl⟩ := hsite.eq_of_installed hr
    cases hw.symm.trans hw'
    refine ⟨journal', ?_⟩
    rw [hf ht, fetches, hr]
    simp
  | notTimed _ hsite hw' | reported _ hsite hw' =>
    obtain ⟨rfl, rfl⟩ := hsite.eq_of_installed hr
    cases hw.symm.trans hw'

theorem scan_of_cloneFails {reason : Text} (h : p.CloneFails w reason) :
    ∃ w₁, p.scan w = (w₁, .error (.checkout reason)) := by
  obtain ⟨s, journal, hroot, -, hs⟩ := p.exists_scanner w
  have hr : Package.isRemote s.root = true := hroot ▸ h.isRemote
  -- the files of the package lie nowhere
  have hsite : ∀ fs root, ¬ Site { w with journal } s.root fs root := by
    intro fs root hsite
    cases hsite with
    | installed hr' => rw [hr] at hr'; cases hr'
    | fetched _ _ hc => exact absurd (hc.symm.trans h.failure_eq) (by simp)
  have hc := scan_cases s { w with journal }
  generalize s.scan { w with journal } = out at hc hs
  rw [hs]
  cases hc with
  | noRoom _ _ hn =>
    have hsome := h.isSome_freshName?
    rw [show freshName? w = none from hn] at hsome
    cases hsome
  | notFetched _ hc =>
    cases hc.symm.trans h.failure_eq
    exact ⟨_, rfl⟩
  | notWalked _ hsite' | notTimed _ hsite' | reported _ hsite' => exact absurd hsite' (hsite _ _)

end Package

/-! ## One package after the other -/

/-- **Packages that were gone through**, with the world after them and the results. A package is left out if its
root cannot be listed; of each other one the block was written. -/
inductive Analyzed (log : Path) : World → List Package → World → List (Package × Report) → Prop where
  | nil {w : World} : Analyzed log w [] w []
  | leftOut {p : Package} {rest : List Package} {w w₁ w' : World} {results : List (Package × Report)}
      {e : Failure} (hs : p.scan w = (w₁, .error e)) (he : e.isFileError = true) (hu : p.Unlistable w e)
      (h : Analyzed log (w₁.note (.packageFailed p.metadata.name e)) rest w' results) :
      Analyzed log w (p :: rest) w' results
  | recorded {p : Package} {rest : List Package} {w w₁ w₂ w' : World} {results : List (Package × Report)}
      {r : Report} {block : Text} (hs : p.scan w = (w₁, .ok r))
      (hr : AuditLog.record w₁ log p.metadata r = (w₂, .ok block)) (h : Analyzed log w₂ rest w' results) :
      Analyzed log w (p :: rest) w' ((p, r) :: results)

/-- **A package at which the work ends**: its scan fails, and not at a file, or its block cannot be written. -/
inductive Fails (log : Path) (p : Package) (w : World) : World → Failure → Prop where
  | scan {w₁ : World} {e : Failure} (hs : p.scan w = (w₁, .error e)) (he : e.isFileError = false) :
      Fails log p w w₁ e
  | record {w₁ w₂ : World} {r : Report} {e : Failure} (hs : p.scan w = (w₁, .ok r))
      (hr : AuditLog.record w₁ log p.metadata r = (w₂, .error e)) : Fails log p w w₂ e

/-- The analysis with some more results in front. -/
def Analysis.prepend (results : List (Package × Report)) (a : Analysis) : Analysis :=
  results.foldr (fun x a => a.cons x.1 x.2) a

theorem analyze_leftOut (hs : p.scan w = (w₁, .error e)) (he : e.isFileError = true) :
    analyze log (p :: rest) w = analyze log rest (w₁.note (.packageFailed p.metadata.name e)) := by
  simp only [analyze, analyzePackage, hs, he, if_true]

theorem analyze_recorded {w₂ : World} {r : Report} {block : Text} (hs : p.scan w = (w₁, .ok r))
    (hr : AuditLog.record w₁ log p.metadata r = (w₂, .ok block)) :
    analyze log (p :: rest) w = ((analyze log rest w₂).1, (analyze log rest w₂).2.cons p r) := by
  simp only [analyze, analyzePackage, hs, hr]

theorem analyze_fails (h : Fails log p w w₁ e) :
    analyze log (p :: rest) w = (w₁, { failure := some e }) := by
  cases h with
  | scan hs he => simp [analyze, analyzePackage, hs, he]
  | record hs hr => simp [analyze, analyzePackage, hs, hr]

/-- **The analysis goes on** behind the packages that were gone through. -/
theorem analyze_append {results : List (Package × Report)} (h : Analyzed log w ps w₁ results) :
    analyze log (ps ++ rest) w = ((analyze log rest w₁).1, (analyze log rest w₁).2.prepend results) := by
  induction h with
  | nil => rfl
  | leftOut hs he _ _ ih => rw [List.cons_append, analyze_leftOut hs he, ih]
  | recorded hs hr _ ih => rw [List.cons_append, analyze_recorded hs hr, ih]; rfl

/-- **All packages are gone through, or the work ends at one.** -/
theorem analyzed_or_fails (log : Path) (ps : List Package) (w : World) :
    (∃ w₁ results, Analyzed log w ps w₁ results) ∨
      ∃ done p rest w₁ w₂ results e, ps = done ++ p :: rest ∧ Analyzed log w done w₁ results ∧
        Fails log p w₁ w₂ e := by
  induction ps generalizing w with
  | nil => exact Or.inl ⟨w, [], .nil⟩
  | cons p ps ih =>
    rcases hs : p.scan w with ⟨w₁, e | r⟩
    · cases he : e.isFileError with
      | false => exact Or.inr ⟨[], p, ps, w, w₁, [], e, rfl, .nil, .scan hs he⟩
      | true =>
        have hu := Package.unlistable_of_scan hs he
        rcases ih (w₁.note (.packageFailed p.metadata.name e)) with
          ⟨w₂, results, h⟩ | ⟨done, q, rest, w₂, w₃, results, e', rfl, h, hf⟩
        · exact Or.inl ⟨w₂, results, .leftOut hs he hu h⟩
        · exact Or.inr ⟨p :: done, q, rest, w₂, w₃, results, e', rfl, .leftOut hs he hu h, hf⟩
    · rcases hr : AuditLog.record w₁ log p.metadata r with ⟨w₂, e | block⟩
      · exact Or.inr ⟨[], p, ps, w, w₂, [], e, rfl, .nil, .record hs hr⟩
      · rcases ih w₂ with ⟨w₃, results, h⟩ | ⟨done, q, rest, w₃, w₄, results, e', rfl, h, hf⟩
        · exact Or.inl ⟨w₃, _, .recorded hs hr h⟩
        · exact Or.inr ⟨p :: done, q, rest, w₃, w₄, _, e', rfl, .recorded hs hr h, hf⟩

theorem Analysis.results_prepend (results : List (Package × Report)) (a : Analysis) :
    (a.prepend results).results = results ++ a.results := by
  induction results with
  | nil => rfl
  | cons x results ih => exact congrArg (x :: ·) ih

theorem Analysis.failure_prepend (results : List (Package × Report)) (a : Analysis) :
    (a.prepend results).failure = a.failure := by
  induction results with
  | nil => rfl
  | cons x results ih => exact ih

theorem Analysis.warned_prepend (results : List (Package × Report)) {a : Analysis}
    (ha : a.warned = a.malicious.map fun x => x.1.metadata.name) :
    (a.prepend results).warned = (a.prepend results).malicious.map fun x => x.1.metadata.name := by
  induction results with
  | nil => exact ha
  | cons x results ih =>
    obtain ⟨p, r⟩ := x
    show (if r.isMalicious then p.metadata.name :: (a.prepend results).warned else (a.prepend results).warned) =
      (((p, r) :: (a.prepend results).results).filter fun x => x.2.isMalicious).map fun x => x.1.metadata.name
    rw [ih]
    cases hr : r.isMalicious <;> simp [hr, Analysis.malicious]

/-- **How an analysis ends**: all packages are gone through, or the work ends at one. -/
theorem analyze_cases (log : Path) (ps : List Package) (w : World) :
    (∃ w₁ results, Analyzed log w ps w₁ results ∧
      analyze log ps w = (w₁.note .analysisDone, Analysis.prepend results {})) ∨
    ∃ done p rest w₁ w₂ results e, ps = done ++ p :: rest ∧ Analyzed log w done w₁ results ∧
      Fails log p w₁ w₂ e ∧ analyze log ps w = (w₂, Analysis.prepend results { failure := some e }) := by
  rcases analyzed_or_fails log ps w with
    ⟨w₁, results, hd⟩ | ⟨done, p, rest, w₁, w₂, results, e, rfl, hd, hf⟩
  · have h : analyze log (ps ++ []) w = (w₁.note .analysisDone, Analysis.prepend results {}) :=
      analyze_append hd
    rw [List.append_nil] at h
    exact Or.inl ⟨w₁, results, hd, h⟩
  · refine Or.inr ⟨done, p, rest, w₁, w₂, results, e, rfl, hd, hf, ?_⟩
    rw [analyze_append hd, analyze_fails hf]

theorem warned_eq_of_analyze {a : Analysis} (h : analyze log ps w = (w', a)) :
    a.warned = a.malicious.map fun x => x.1.metadata.name := by
  rcases analyze_cases log ps w with ⟨w₁, results, -, ha⟩ | ⟨done, p, rest, w₁, w₂, results, e, -, -, -, ha⟩
  · obtain ⟨-, rfl⟩ := Prod.mk.inj (h.symm.trans ha)
    exact Analysis.warned_prepend results rfl
  · obtain ⟨-, rfl⟩ := Prod.mk.inj (h.symm.trans ha)
    exact Analysis.warned_prepend results rfl

/-! ## The log -/

/-- **What is added to a log** between two worlds. -/
structure Adds (log : Path) (w w' : World) (bytes : Bytes) : Prop where
  cwd_eq : w'.cwd = w.cwd
  isPlain : w'.files.IsPlain w'.cwd log
  bytesAt_eq : w'.files.bytesAt w'.cwd log = w.files.bytesAt w.cwd log ++ bytes

theorem Adds.trans {w'' : World} {bytes bytes' : Bytes} (h : Adds log w w' bytes)
    (h' : Adds log w' w'' bytes') : Adds log w w'' (bytes ++ bytes') :=
  ⟨h'.cwd_eq.trans h.cwd_eq, h'.isPlain, by rw [h'.bytesAt_eq, h.bytesAt_eq, List.append_assoc]⟩

theorem Adds.nil_trans {w'' : World} {bytes : Bytes} (h : Adds log w w' []) (h' : Adds log w' w'' bytes) :
    Adds log w w'' bytes := by
  have := h.trans h'
  rwa [List.nil_append] at this

theorem Adds.bytesAt_cwd {bytes : Bytes} (h : Adds log w w' bytes) :
    w'.files.bytesAt w.cwd log = w.files.bytesAt w.cwd log ++ bytes := by
  have hb := h.bytesAt_eq
  rwa [h.cwd_eq] at hb

theorem adds_nil (hp : w.files.IsPlain w.cwd log) (hf : w'.files = w.files) (hc : w'.cwd = w.cwd) :
    Adds log w w' [] := by
  refine ⟨hc, ?_, ?_⟩
  · rw [hf, hc]
    exact hp
  · rw [hf, hc, List.append_nil]

theorem adds_scan (hp : w.files.IsPlain w.cwd log) {result : Except Failure Report}
    (hs : p.scan w = (w', result)) : Adds log w w' [] := by
  have hf := p.files_scan w
  have hc := (p.sameHost_scan w).cwd_eq
  rw [hs] at hf hc
  exact adds_nil hp hf hc

theorem adds_record {m : Metadata} {r : Report} {block : Text} (hp : w.files.IsPlain w.cwd log)
    (h : AuditLog.record w log m r = (w', .ok block)) :
    Adds log w w' (Utf8.encodeAll (r.block m)) ∧ (r.block m).isEncodable = true := by
  rcases ha : w.files.append w.cwd log (r.block m) with ⟨files, e | u⟩
  · simp [AuditLog.record, AuditLog.append, ha] at h
  · obtain ⟨hp', he, hb⟩ := FileSystem.append_ok hp ha
    simp only [AuditLog.record, AuditLog.append, ha] at h
    cases h
    exact ⟨⟨rfl, hp', hb⟩, he⟩

theorem adds_record_error {m : Metadata} {r : Report} (hp : w.files.IsPlain w.cwd log)
    (h : AuditLog.record w log m r = (w', .error e)) : Adds log w w' [] := by
  rcases ha : w.files.append w.cwd log (r.block m) with ⟨files, e' | u⟩
  · obtain ⟨hp', hb⟩ := FileSystem.append_error hp ha
    simp only [AuditLog.record, AuditLog.append, ha] at h
    cases h
    exact ⟨rfl, hp', by rw [List.append_nil]; exact hb⟩
  · simp [AuditLog.record, AuditLog.append, ha] at h

def blockOf (x : Package × Report) : Text := x.2.block x.1.metadata

/-- **The log of packages that were gone through**: the blocks of the results are added. -/
theorem Analyzed.adds {results : List (Package × Report)} (h : Analyzed log w ps w' results)
    (hp : w.files.IsPlain w.cwd log) :
    Adds log w w' (Utf8.encodeAll (results.flatMap blockOf)) ∧ ∀ x ∈ results, (blockOf x).isEncodable = true := by
  -- each step leaves the log one that can be written to
  induction h with
  | nil => exact ⟨adds_nil hp rfl rfl, by simp⟩
  | leftOut hs _ _ _ ih =>
    have h₁ := adds_scan hp hs
    obtain ⟨h₂, he⟩ := ih h₁.isPlain
    exact ⟨h₁.nil_trans ⟨h₂.cwd_eq, h₂.isPlain, h₂.bytesAt_eq⟩, he⟩
  | @recorded p _ _ _ _ _ _ r _ hs hr _ ih =>
    have h₁ := adds_scan hp hs
    obtain ⟨h₂, he₂⟩ := adds_record h₁.isPlain hr
    obtain ⟨h₃, he₃⟩ := ih h₂.isPlain
    refine ⟨?_, List.forall_mem_cons.mpr ⟨he₂, he₃⟩⟩
    rw [List.flatMap_cons, Utf8.encodeAll_append]
    exact h₁.nil_trans (h₂.trans h₃)

theorem Fails.adds (h : Fails log p w w' e) (hp : w.files.IsPlain w.cwd log) : Adds log w w' [] := by
  cases h with
  | scan hs _ => exact adds_scan hp hs
  | record hs hr =>
    have h₁ := adds_scan hp hs
    exact h₁.nil_trans (adds_record_error h₁.isPlain hr)

/-! ## The whole analysis -/

/-- **An analysis keeps its results, the log and the warnings in step**, also if it ends early. All packages are
gone through, or those before one that fails; a package that cannot be fetched fails. -/
theorem analyze_in_step {a : Analysis} (hp : w.files.IsPlain w.cwd log) (h : analyze log ps w = (w', a)) :
    a.warned = a.malicious.map (fun x => x.1.metadata.name) ∧
      w'.files.bytesAt w.cwd log =
        w.files.bytesAt w.cwd log ++ Utf8.encodeAll (a.results.flatMap blockOf) ∧
      (∀ x ∈ a.results, (blockOf x).isEncodable = true) ∧
      ((a.failure = none ∧ ∃ w₁, Analyzed log w ps w₁ a.results) ∨
        ∃ done p rest w₁ e, ps = done ++ p :: rest ∧ Analyzed log w done w₁ a.results ∧
          Fails log p w₁ w' e ∧ a.failure = some e) ∧
      ∀ done p rest w₁ results reason, ps = done ++ p :: rest → Analyzed log w done w₁ results →
        p.CloneFails w₁ reason → a.results = results ∧ a.failure = some (.checkout reason) := by
  have hclone : ∀ done p rest w₁ results reason, ps = done ++ p :: rest → Analyzed log w done w₁ results →
      p.CloneFails w₁ reason → a.results = results ∧ a.failure = some (.checkout reason) := by
    rintro done p rest w₁ results reason rfl hd hc
    obtain ⟨w₂, hs⟩ := Package.scan_of_cloneFails hc
    rw [analyze_append hd, analyze_fails (.scan hs rfl)] at h
    cases h
    exact ⟨by rw [Analysis.results_prepend, List.append_nil], Analysis.failure_prepend _ _⟩
  rcases analyze_cases log ps w with
    ⟨w₁, results, hd, ha⟩ | ⟨done, p, rest, w₁, w₂, results, e, hps, hd, hf, ha⟩
  · obtain ⟨rfl, rfl⟩ := Prod.mk.inj (h.symm.trans ha)
    obtain ⟨hadds, he⟩ := hd.adds hp
    have hr : (Analysis.prepend results {}).results = results := by
      rw [Analysis.results_prepend, List.append_nil]
    refine ⟨Analysis.warned_prepend results rfl, ?_, ?_, Or.inl ⟨Analysis.failure_prepend _ _, w₁, ?_⟩, hclone⟩
    · rw [hr]
      exact hadds.bytesAt_cwd
    · rwa [hr]
    · rwa [hr]
  · obtain ⟨rfl, rfl⟩ := Prod.mk.inj (h.symm.trans ha)
    obtain ⟨hadds, he⟩ := hd.adds hp
    have hadds' := hadds.trans (hf.adds hadds.isPlain)
    rw [List.append_nil] at hadds'
    have hr : (Analysis.prepend results { failure := some e }).results = results := by
      rw [Analysis.results_prepend, List.append_nil]
    refine ⟨Analysis.warned_prepend results rfl, ?_, ?_, Or.inr ⟨done, p, rest, w₁, e, hps, ?_, hf,
      Analysis.failure_prepend _ _⟩, hclone⟩
    · rw [hr]
      exact hadds'.bytesAt_cwd
    · rwa [hr]
    · rwa [hr]

/-- A world with a log, and with a remote repository that is gone. -/
def goneWorld : World where
  files := FileSystem.empty.plantAll [] [⟨[.literal "log"], .file true [65]⟩]
  cwd := []
  environment := []
  levels := 1
  clock := []
  horizon := none
  remote := fun _ => ⟨[], some (text "gone")⟩
  fetched := []
  journal := []

/-- A package that is not there, and a remote one. -/
def missing : Package := ⟨text "/none", { name := text "none" }⟩

def remotePackage : Package := ⟨text "https://gone", { name := text "gone" }⟩

/-- The missing package is left out, and the analysis ends at the remote one. -/
theorem analyze_in_step_gone : goneWorld.files.IsPlain goneWorld.cwd (text "/log") ∧
    (analyze (text "/log") [missing, remotePackage] goneWorld).2.results = [] ∧
    (analyze (text "/log") [missing, remotePackage] goneWorld).2.failure = some (.checkout (text "gone")) := by
  have hp : goneWorld.files.IsPlain goneWorld.cwd (text "/log") :=
    FileSystem.isPlain_of_stat
      (show goneWorld.files.stat goneWorld.cwd (text "/log") = .ok (.file true [65]) by cbv)
  obtain ⟨-, -, -, -, h⟩ := analyze_in_step hp rfl
  have hw : goneWorld.files.walk goneWorld.levels goneWorld.cwd missing.path =
      .error (.system .noEntry (text "/none")) := by cbv
  obtain ⟨journal, hs⟩ := Package.scan_of_walk (by decide) hw
  have hd : Analyzed (text "/log") goneWorld [missing] _ [] :=
    .leftOut hs rfl (Package.unlistable_of_scan hs rfl) .nil
  have hc : remotePackage.CloneFails goneWorld (text "gone") := ⟨by decide, by cbv, rfl⟩
  exact ⟨hp, h [missing] remotePackage [] _ [] (text "gone") rfl hd ⟨hc.1, hc.2, hc.3⟩⟩

end ExtensionAudit
