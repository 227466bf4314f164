import Mathlib
import ExtensionAudit.Analysis
import ExtensionAudit.Proofs.Log.Only
import ExtensionAudit.Proofs.Scan.Remote

/-!
# Scans one after the other

Scanners are used over and over, in any order, and each scan may fail in its own way. None leaves behind what it
fetched, and none changes an entry but the log to which it is told to write.

* `Scanner.call`, `Scanner.call_cases`: one scan, with or without a log;
* `Scanner.LeavesNothing`, **`Scanner.leavesNothing_call`**: it leaves nothing behind;
* `Session`, `Session.run`: scanners that are prepared and used while the settings change;
* `Session.step_keeps`, `Session.run_keeps`: what holds after each use;
* **`Session.leaves_nothing`**: the next use, whatever came before.
-/

namespace ExtensionAudit

variable {w w' : World} {log : Path}

/-! ## One scan -/

namespace Scanner

variable {s : Scanner}

/-- Scan a package, and write its block if there is a log to write it to. -/
def call (s : Scanner) (w : World) : Option Path → Scanner × World × Except Failure Bool
  | none => let (s, w, result) := s.scan w; (s, w, result.map Report.isMalicious)
  | some log => s.scanAndRecord w log

/-- **A scan that leaves nothing behind**, whether it succeeds or fails. -/
structure LeavesNothing (s : Scanner) (w : World) (log : Option Path) (s' : Scanner) (w' : World)
    (result : Except Failure Bool) : Prop where
  temporary_eq : s'.temporary = none
  onlyLogs : OnlyLogs log.toList w w'
  /-- What is fetched, and with which depth. -/
  fetched_eq : w'.fetched = w.fetched ++ (s.place? w).toList.map fun _ => (s.root, depth w)
  /-- The directory into which it is fetched. -/
  directories_eq : w'.directories = w.directories ++ (s.place? w).toList.map fun name => Path.ofLocation [name]
  /-- The directory was not there, and it is gone with all that it held. -/
  gone : ∀ name, s.place? w = some name → w.files.node? [name] = none ∧ w'.files.isDirectory [name] = false ∧
    ∀ rest ≠ [], w'.files.node? (name :: rest) = none
  /-- What could not be fetched. -/
  of_failure : ∀ name reason, s.place? w = some name → (w.remote w.fetched.length).failure = some reason →
    w'.files = w.files ∧ s'.scanned = s.scanned ∧ s'.skipped = s.skipped ∧
      ∃ e, result = .error e ∧ e.isFileError = false ∧ e.message = text "Failed to clone repository: " ++ reason
  /-- There is always a directory for a remote package, in any world that could ever be. -/
  of_noRoom : Package.isRemote s.root = true → s.place? w = none →
    w'.files = w.files ∧ (∃ e, result = .error e) ∧ nameLimit ≤ w.fetched.length + w.files.entries.length + 1

theorem trace_record (w : World) (log : Path) (m : Metadata) (r : Report) :
    trace (AuditLog.record w log m r).1 = trace w := by
  rcases ha : w.files.append w.cwd log (r.block m) with ⟨files, e | u⟩
  · simp only [AuditLog.record, AuditLog.append, ha]
    rfl
  · simp only [AuditLog.record, AuditLog.append, ha]
    refine Prod.ext rfl ?_
    rw [trace, World.directories_note]
    exact List.append_nil _

/-- **What a log adds to a scan**: nothing if the scan fails, and else what is written to it. -/
theorem call_cases (s : Scanner) (w : World) (log : Option Path) :
    (∃ e, (s.scan w).2.2 = .error e ∧ s.call w log = ((s.scan w).1, (s.scan w).2.1, .error e)) ∨
      ∃ r w' result, (s.scan w).2.2 = .ok r ∧ s.call w log = ((s.scan w).1, w', result) ∧
        trace w' = trace (s.scan w).2.1 ∧ OnlyLogs log.toList (s.scan w).2.1 w' := by
  rcases hs : s.scan w with ⟨s', w₁, e | r⟩
  · refine Or.inl ⟨e, rfl, ?_⟩
    cases log with
    | none => simp only [call, hs, Except.map]
    | some log => simp only [call, scanAndRecord, hs]
  · refine Or.inr ⟨r, ?_⟩
    cases log with
    | none => exact ⟨w₁, .ok r.isMalicious, rfl, by simp only [call, hs, Except.map], rfl, .of_files_eq rfl rfl⟩
    | some log =>
      have htrace := trace_record w₁ log s'.metadata r
      have honly := onlyLogs_record w₁ log s'.metadata r
      rcases hr : AuditLog.record w₁ log s'.metadata r with ⟨w₂, e | block⟩
      · rw [hr] at htrace honly
        exact ⟨w₂, .error e, rfl, by simp only [call, scanAndRecord, hs, hr], htrace, honly⟩
      · rw [hr] at htrace honly
        exact ⟨w₂, .ok r.isMalicious, rfl, by simp only [call, scanAndRecord, hs, hr], htrace, honly⟩

theorem call_of_error {s' : Scanner} {w' : World} {log : Option Path} {e : Failure}
    (h : s.scan w = (s', w', .error e)) : s.call w log = (s', w', .error e) := by
  rcases call_cases s w log with ⟨e', he, hc⟩ | ⟨r, -, -, hr, -⟩
  · rw [h] at he hc
    cases he
    exact hc
  · rw [h] at hr
    cases hr

/-- **A scan leaves nothing behind**, if the ones before did not. -/
theorem leavesNothing_call (ht : s.temporary = none) (log : Option Path) :
    s.LeavesNothing w log (s.call w log).1 (s.call w log).2.1 (s.call w log).2.2 := by
  have hfiles : OnlyLogs [] w (s.scan w).2.1 := .of_files_eq (files_scan ht) sameHost_scan.cwd_eq
  have htrace := trace_scan s w
  have hcall : (s.call w log).1 = (s.scan w).1 ∧ trace (s.call w log).2.1 = trace (s.scan w).2.1 ∧
      OnlyLogs log.toList w (s.call w log).2.1 := by
    rcases call_cases s w log with ⟨e, -, hc⟩ | ⟨r, w', result, -, hc, ht', hl⟩
    · rw [hc]
      exact ⟨rfl, rfl, hfiles.mono (List.nil_subset _)⟩
    · rw [hc]
      exact ⟨rfl, ht', hfiles.trans hl⟩
  rw [← hcall.2.1] at htrace
  refine ⟨hcall.1 ▸ temporary_scan s w, hcall.2.2, congrArg Prod.fst htrace, congrArg Prod.snd htrace, ?_, ?_, ?_⟩
  · intro name hp
    have hn := node?_of_freshName? (isRemote_of_place? hp).2
    exact ⟨hn, hcall.2.2.gone hn⟩
  · intro name reason hp hc
    obtain ⟨w', hs⟩ := scan_of_failure hp hc
    have hf := files_scan (w := w) ht
    rw [hs] at hf
    rw [call_of_error hs]
    exact ⟨hf, rfl, rfl, _, rfl, rfl, rfl⟩
  · intro hr hp
    rw [place?, if_pos hr] at hp
    obtain ⟨w', hs⟩ := scan_of_noRoom hr hp
    have hf := files_scan (w := w) ht
    rw [hs] at hf
    rw [call_of_error hs]
    exact ⟨hf, ⟨_, rfl⟩, le_of_freshName? hp⟩

end Scanner

/-! ## Scans in any order -/

/-- Scanners that were prepared, and the world in which they are used. -/
structure Session where
  scanners : List Scanner
  world : World

namespace Session

/-- What is done in a session. -/
inductive Action where
  /-- A scanner is prepared. -/
  | prepare (root : Path) (metadata : Option Metadata) (denylist : Denylist)
  /-- The settings are changed. -/
  | configure (environment : Settings.Environment)
  /-- The scanner with this number is used. -/
  | call (i : ℕ) (log : Option Path)

/-- The log to which an action is told to write. -/
def Action.log? : Action → Option Path
  | .call _ log => log
  | _ => none

def step (x : Session) : Action → Session
  | .prepare root metadata denylist =>
    let (s, w) := Scanner.prepare x.world root metadata denylist
    ⟨x.scanners ++ [s], w⟩
  | .configure environment => { x with world := { x.world with environment } }
  | .call i log =>
    match x.scanners[i]? with
    | none => x
    | some s =>
      let (s, w, _) := s.call x.world log
      ⟨x.scanners.set i s, w⟩

/-- A session from its start on. -/
def run (w : World) (actions : List Action) : Session := actions.foldl step ⟨[], w⟩

theorem run_concat (w : World) (actions : List Action) (a : Action) :
    run w (actions ++ [a]) = (run w actions).step a := List.foldl_concat ..

theorem step_keeps {x : Session} (h : ∀ s ∈ x.scanners, s.temporary = none) (a : Action) :
    (∀ s ∈ (x.step a).scanners, s.temporary = none) ∧ OnlyLogs a.log?.toList x.world (x.step a).world := by
  cases a with
  | prepare root metadata denylist =>
    refine ⟨fun s hs => ?_, .of_files_eq rfl rfl⟩
    rcases List.mem_append.mp hs with hs | hs
    · exact h s hs
    · obtain rfl := List.mem_singleton.mp hs
      rfl
  | configure environment => exact ⟨h, .of_files_eq rfl rfl⟩
  | call i log =>
    rw [step]
    split
    · exact ⟨h, (OnlyLogs.of_files_eq rfl rfl).mono (List.nil_subset _)⟩
    · next s hi =>
      have hcall := Scanner.leavesNothing_call (w := x.world) (h s (List.mem_of_getElem? hi)) log
      refine ⟨fun s' hs' => ?_, hcall.onlyLogs⟩
      rcases List.mem_or_eq_of_mem_set hs' with hs' | rfl
      · exact h s' hs'
      · exact hcall.temporary_eq

/-- **After each action** no scanner holds a directory, and nothing changed but logs. -/
theorem run_keeps (w : World) (actions : List Action) : (∀ s ∈ (run w actions).scanners, s.temporary = none) ∧
    OnlyLogs (actions.filterMap Action.log?) w (run w actions).world := by
  induction actions using List.reverseRecOn with
  | nil => exact ⟨List.forall_mem_nil _, .of_files_eq rfl rfl⟩
  | append_singleton actions a ih =>
    obtain ⟨htemporary, honly⟩ := step_keeps ih.1 a
    rw [run_concat]
    refine ⟨htemporary, (ih.2.trans honly).mono ?_⟩
    rw [List.filterMap_append]
    cases ha : a.log? <;> simp [ha]

/-- **Scans leave nothing behind**, whatever came before. After any actions no scanner holds a directory and nothing
changed but logs, and the next use of a scanner leaves nothing behind either. -/
theorem leaves_nothing (w : World) (actions : List Action) :
    (∀ s ∈ (run w actions).scanners, s.temporary = none) ∧
      OnlyLogs (actions.filterMap Action.log?) w (run w actions).world ∧
      ∀ (i : ℕ) (s : Scanner) (log : Option Path), (run w actions).scanners[i]? = some s →
        s.LeavesNothing (run w actions).world log (s.call (run w actions).world log).1
          (s.call (run w actions).world log).2.1 (s.call (run w actions).world log).2.2 := by
  obtain ⟨htemporary, honly⟩ := run_keeps w actions
  exact ⟨htemporary, honly, fun i s log hi =>
    Scanner.leavesNothing_call (htemporary s (List.mem_of_getElem? hi)) log⟩

/-- A world with one file. The first repository that is fetched breaks off, and the second one cannot be listed and
holds a link to that file. -/
def flakyWorld : World where
  files := FileSystem.empty.plantAll [] [⟨[.literal "notes"], .file true [65]⟩]
  cwd := []
  environment := []
  levels := 1
  clock := []
  horizon := none
  remote := fun n =>
    if n = 0 then ⟨[⟨[.literal "half", .literal "file"], .file true []⟩], some (text "broken off")⟩
    else ⟨[⟨[.literal "way"], .link (text "/notes")⟩, ⟨[], .directory .nothing⟩], none⟩
  fetched := []
  journal := []

/-- The address of those repositories. -/
def flakyAddress : Text := text "git@flaky"

/-- One scanner is used. -/
def flakyActions : List Action :=
  [.prepare flakyAddress none Denylist.standard, .call 0 (some (text "/notes"))]

theorem run_flaky : (run flakyWorld flakyActions).world.fetched = [(flakyAddress, 1)] ∧
    (run flakyWorld flakyActions).world.directories = [text "/CLONE1"] ∧
    (run flakyWorld flakyActions).scanners.map (fun s => (s.place? (run flakyWorld flakyActions).world, s.root)) =
      [(some (.literal "CLONE2"), flakyAddress)] := by
  refine ⟨by decide +kernel, by decide +kernel, by decide +kernel⟩

/-- The second use fetches once more, into a directory of its own, and that one is gone in the end. -/
theorem leaves_nothing_flaky : ∃ s, (run flakyWorld flakyActions).scanners[0]? = some s ∧
    (s.call (run flakyWorld flakyActions).world none).1.temporary = none ∧
    (s.call (run flakyWorld flakyActions).world none).2.1.directories = [text "/CLONE1", text "/CLONE2"] ∧
    (s.call (run flakyWorld flakyActions).world none).2.1.fetched.length = 2 ∧
    (s.call (run flakyWorld flakyActions).world none).2.1.files.isDirectory [.literal "CLONE2"] = false := by
  obtain ⟨hfetched, hdirectories, hplace⟩ := run_flaky
  obtain ⟨s, hs, hplace⟩ := List.map_eq_singleton_iff.mp hplace
  obtain ⟨hplace, hroot⟩ := Prod.mk.inj hplace
  have hi : (run flakyWorld flakyActions).scanners[0]? = some s := by rw [hs]; rfl
  have h := (leaves_nothing flakyWorld flakyActions).2.2 0 s none hi
  refine ⟨s, hi, h.temporary_eq, ?_, ?_, (h.gone _ hplace).2.1⟩
  · rw [h.directories_eq, hdirectories, hplace]
    rfl
  · rw [h.fetched_eq, hfetched, hplace]
    rfl

end Session

end ExtensionAudit
