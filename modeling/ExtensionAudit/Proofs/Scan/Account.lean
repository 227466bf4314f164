import ExtensionAudit.Proofs.Paths
import ExtensionAudit.Proofs.Readings
import ExtensionAudit.Proofs.Scan.Outcome

/-!
# What a report accounts for

Every file of a walk that is reached in time is either read, and then its findings and URLs are in the
report, or skipped, and then its path is.

* `FileSystem.readable?`: the bytes of a file that can be read within a size limit;
* `Report.mem_urlOccurrences`: the URLs of a report, with their files;
* `Scanner.results_examine`, `Scanner.skipped_examine`: the files that are read and those that are skipped;
* `Scanner.InTime`, `Scanner.inTime_examine`: the files that are reached in time;
* `Scanner.Accounted`, **`Scanner.scan_accounts`**: the report of a scan.
-/

namespace ExtensionAudit

/-! ## Reading one file -/

/-- The bytes of a regular file that can be opened and holds no more bytes than the limit allows. -/
def FileSystem.readable? (fs : FileSystem) (cwd : Location) (limit : ℤ) (p : Path) : Option Bytes :=
  match fs.stat cwd p with
  | .ok (.file true bytes) => if (bytes.length : ℤ) ≤ limit then some bytes else none
  | _ => none

theorem FileSystem.readable?_eq_some {fs : FileSystem} {cwd : Location} {limit : ℤ} {p : Path} {bytes : Bytes} :
    fs.readable? cwd limit p = some bytes ↔
      fs.stat cwd p = .ok (.file true bytes) ∧ (bytes.length : ℤ) ≤ limit := by
  unfold readable?
  split
  · next content h =>
    rw [h]
    simp only [Option.ite_none_right_eq_some, Option.some.injEq, Except.ok.injEq, Node.file.injEq, true_and]
    constructor
    · rintro ⟨hl, rfl⟩
      exact ⟨rfl, hl⟩
    · rintro ⟨rfl, hl⟩
      exact ⟨hl, rfl⟩
  · next h =>
    simp only [reduceCtorEq, false_iff]
    exact fun h' => h bytes h'.1

/-- The text of some bytes: what can be decoded, with every line ending as a line feed. -/
def decoded (bytes : Bytes) : Text := Text.unifyNewlines (Utf8.decodeLossy bytes)

theorem FileSystem.toOption_content (fs : FileSystem) (cwd : Location) (limit : ℤ) (p : Path) :
    (fs.content cwd limit p).toOption = (fs.readable? cwd limit p).map decoded := by
  unfold content readable?
  cases fs.stat cwd p with
  | error e => rfl
  | ok node =>
    cases node with
    | file openable bytes =>
      by_cases hb : (bytes.length : ℤ) ≤ limit
      · cases openable <;> simp [hb, not_lt.mpr hb, Except.toOption, decoded]
      · cases openable <;> simp [hb, not_le.mp hb, Except.toOption]
    | _ => rfl

/-! ## The URLs of a report -/

namespace Report

theorem mem_addPath {path path' : Text} {paths : Option (List Text)} :
    path' ∈ addPath path paths ↔ path' ∈ paths.getD [] ∨ path' = path := by
  unfold addPath
  simp only
  split
  · next h =>
    refine ⟨Or.inl, ?_⟩
    rintro (h' | rfl)
    · exact h'
    · exact h
  · rw [List.mem_append, List.mem_singleton]

theorem mem_alter_addPath {url url' path path' : Text} (table : Table Text (List Text)) :
    (∃ e ∈ table.alter url (addPath path), e.1 = url' ∧ path' ∈ e.2) ↔
      (∃ e ∈ table, e.1 = url' ∧ path' ∈ e.2) ∨ (url = url' ∧ path' = path) := by
  induction table with
  | nil => simp [Table.alter, mem_addPath]
  | cons entry rest ih =>
    rw [Table.alter]
    split
    · next hk =>
      simp only [List.exists_mem_cons_iff, mem_addPath, Option.getD_some, hk, and_or_left]
      rw [or_right_comm]
    · simp only [List.exists_mem_cons_iff, ih, or_assoc]

theorem mem_provenance {url path : Text} (pairs : List (Text × Text)) :
    (∃ e ∈ provenance pairs, e.1 = url ∧ path ∈ e.2) ↔ (url, path) ∈ pairs := by
  -- the table so far is generalised, for the fold starts with an empty one
  have key : ∀ (pairs : List (Text × Text)) (table : Table Text (List Text)),
      (∃ e ∈ pairs.foldl (fun table pair => table.alter pair.1 (addPath pair.2)) table, e.1 = url ∧ path ∈ e.2) ↔
        (∃ e ∈ table, e.1 = url ∧ path ∈ e.2) ∨ (url, path) ∈ pairs := by
    intro pairs
    induction pairs with
    | nil => simp
    | cons pair pairs ih =>
      intro table
      rw [List.foldl_cons, ih, mem_alter_addPath, List.mem_cons, or_assoc, Prod.ext_iff]
      simp only [eq_comm]
  rw [provenance, key]
  simp

theorem mem_urlOccurrences {files : List FileResult} {url path : Text} :
    (url, path) ∈ (ofFiles files).urlOccurrences ↔ ∃ f ∈ files, f.path = path ∧ url ∈ f.urls := by
  have h : (url, path) ∈ (ofFiles files).urlOccurrences ↔
      ∃ e ∈ (ofFiles files).urls, e.1 = url ∧ path ∈ e.2 := by
    simp [urlOccurrences, and_comm, eq_comm]
  rw [h, ofFiles, mem_provenance, List.mem_flatMap]
  simp [FileResult.occurrences, and_comm, eq_comm]

end Report

namespace Scanner

variable {s : Scanner} {fs : FileSystem} {cwd : Location}

/-! ## The files of a walk -/

/-- What comes of a file that is read. -/
def resultOf (s : Scanner) (p : Path) (bytes : Bytes) : FileResult where
  path := p
  findings := Detect.execFindings s.denylist (decoded bytes)
  urls := Detect.urls (decoded bytes)

/-- The findings of a file, with its path attached. A file that cannot be read has none. -/
def findingsAt (s : Scanner) (fs : FileSystem) (cwd : Location) (p : Path) : List Finding :=
  match fs.readable? cwd s.maxFileSize p with
  | none => []
  | some bytes => (Detect.execFindings s.denylist (decoded bytes)).map fun x => { x with path := p }

theorem toOption_fileResult (p : Path) :
    (s.fileResult fs cwd p).toOption = (fs.readable? cwd s.maxFileSize p).map (s.resultOf p) := by
  have h := fs.toOption_content cwd s.maxFileSize p
  unfold fileResult
  cases hc : fs.content cwd s.maxFileSize p with
  | error e =>
    rw [hc] at h
    rw [Option.map_eq_none_iff.mp h.symm]
    rfl
  | ok content =>
    rw [hc] at h
    obtain ⟨bytes, hb, rfl⟩ := Option.map_eq_some_iff.mp h.symm
    rw [hb]
    rfl

section Examine

variable {clock : Clock} {files : List Path} {x : Examination} {clock' : Clock}
  (hx : s.examine fs cwd clock files = (x, clock'))
include hx

theorem outcomes_examine : x.outcomes =
    (files.take (clock.reach s.timeLimit files.length).1).map fun p => (p, s.fileResult fs cwd p) := by
  cases hx; rfl

theorem results_examine : x.results =
    (files.take (clock.reach s.timeLimit files.length).1).filterMap fun p =>
      (fs.readable? cwd s.maxFileSize p).map (s.resultOf p) := by
  rw [Examination.results, outcomes_examine hx, List.filterMap_map]
  exact congrArg (List.filterMap · _) (funext toOption_fileResult)

theorem skipped_examine : x.skipped =
    (files.take (clock.reach s.timeLimit files.length).1).filter fun p =>
      (fs.readable? cwd s.maxFileSize p).isNone := by
  have h : ∀ p, (s.fileResult fs cwd p).toOption.isNone = (fs.readable? cwd s.maxFileSize p).isNone := by
    intro p
    rw [toOption_fileResult, Option.isNone_map]
  rw [Examination.skipped, outcomes_examine hx, List.filter_map, List.map_map]
  simp only [Function.comp_def, h, List.map_id']

theorem flatMap_located_examine : x.results.flatMap FileResult.located =
    (files.take (clock.reach s.timeLimit files.length).1).flatMap (s.findingsAt fs cwd) := by
  rw [results_examine hx]
  induction files.take (clock.reach s.timeLimit files.length).1 with
  | nil => rfl
  | cons p files ih =>
    rw [List.flatMap_cons, ← ih, findingsAt, List.filterMap_cons]
    cases fs.readable? cwd s.maxFileSize p <;> rfl

theorem length_results_examine : x.results.length =
    (files.take (clock.reach s.timeLimit files.length).1).countP fun p =>
      (fs.readable? cwd s.maxFileSize p).isSome := by
  rw [results_examine hx, List.length_filterMap_eq_countP]
  simp

theorem truncated_examine :
    x.truncated = true ↔ (clock.reach s.timeLimit files.length).1 < files.length := by
  have hu : x.unread = files.length - (clock.reach s.timeLimit files.length).1 := by
    cases hx; rfl
  rw [Examination.truncated, bne_iff_ne, hu, Nat.sub_ne_zero_iff_lt]

end Examine

/-! ## The report of a scan -/

/-- **Which files are reached in time**: of `n` files those before the first late one, or all of them if none
is late or there is no limit. -/
structure InTime (limit : ℤ) (clock : Clock) (n : ℕ) (reached : ℕ) (truncated : Bool) : Prop where
  le : reached ≤ n
  truncated_iff : truncated = true ↔ 0 < limit ∧ (clock.Late limit n).Nonempty
  isLeast : truncated = true → IsLeast (clock.Late limit n) (reached + 1)
  eq : truncated = false → reached = n

theorem inTime_examine {clock clock' : Clock} {files : List Path} {x : Examination}
    (hx : s.examine fs cwd clock files = (x, clock')) :
    InTime s.timeLimit clock files.length (clock.reach s.timeLimit files.length).1 x.truncated := by
  have hle := clock.reach_le s.timeLimit files.length
  have ht := truncated_examine hx
  have heq : x.truncated = false → (clock.reach s.timeLimit files.length).1 = files.length := by
    intro hf
    rw [← Bool.not_eq_true, ht] at hf
    omega
  by_cases hl : 0 < s.timeLimit
  · rcases Clock.reach_eq hl files.length clock with ⟨hr, hlate⟩ | ⟨hr, hleast⟩
    · have hf : x.truncated = false := by rw [← Bool.not_eq_true, ht]; omega
      exact ⟨hle, by simp [hf, hlate], by simp [hf], heq⟩
    · have htrue : x.truncated = true := ht.mpr hr
      exact ⟨hle, by simpa [htrue, hl] using ⟨_, hleast.1⟩, fun _ => hleast, heq⟩
  · have hf : x.truncated = false := by
      rw [← Bool.not_eq_true, ht, Clock.reach_unlimited (not_lt.mp hl)]
      exact lt_irrefl _
    exact ⟨hle, by simp [hf, hl], by simp [hf], heq⟩

/-- **What a report accounts for**: of the files of a walk, those that are reached, each as one that is read or
as one that is skipped. -/
structure Accounted (s : Scanner) (fs : FileSystem) (cwd : Location) (vs : List Visit) (reached : List Path)
    (s' : Scanner) (r : Report) : Prop where
  skipped : r.skipped =
    Visit.refusedPaths vs ++ reached.filter fun p => (fs.readable? cwd s.maxFileSize p).isNone
  findings : r.findings = reached.flatMap (s.findingsAt fs cwd)
  mem_urls : ∀ url p, (url, p) ∈ r.urlOccurrences ↔
    p ∈ reached ∧ ∃ bytes, fs.readable? cwd s.maxFileSize p = some bytes ∧ url ∈ Detect.urls (decoded bytes)
  scannedCount : s'.scanned =
    s.scanned + reached.countP fun p => (fs.readable? cwd s.maxFileSize p).isSome
  skippedCount : s'.skipped =
    s.skipped + reached.countP fun p => (fs.readable? cwd s.maxFileSize p).isNone

theorem accounted_report {clock clock' : Clock} {vs : List Visit} {x : Examination} {s' : Scanner}
    (hx : s.examine fs cwd clock (Visit.files vs) = (x, clock'))
    (h₁ : s'.scanned = s.scanned + x.results.length) (h₂ : s'.skipped = s.skipped + x.skipped.length) :
    s.Accounted fs cwd vs
      ((Visit.files vs).take (clock.reach s.timeLimit (Visit.files vs).length).1) s' (report vs x) := by
  constructor
  · exact congrArg (Visit.refusedPaths vs ++ ·) (skipped_examine hx)
  · exact flatMap_located_examine hx
  · intro url p
    rw [show (report vs x).urlOccurrences = (Report.ofFiles x.results).urlOccurrences from rfl,
      Report.mem_urlOccurrences, results_examine hx]
    simp only [List.mem_filterMap, Option.map_eq_some_iff]
    constructor
    · rintro ⟨_, ⟨p, hp, bytes, hb, rfl⟩, rfl, hu⟩
      exact ⟨hp, bytes, hb, hu⟩
    · rintro ⟨hp, bytes, hb, hu⟩
      exact ⟨_, ⟨p, hp, bytes, hb, rfl⟩, rfl, hu⟩
  · rw [h₁, length_results_examine hx]
  · rw [h₂, skipped_examine hx, List.countP_eq_length_filter]

/-- **A scan accounts for every file of its walk that is reached in time.** -/
theorem scan_accounts {s s' : Scanner} {w w' : World} {r : Report} (h : s.scan w = (s', w', .ok r)) :
    ∃ fs root vs k, Site w s.root fs root ∧ fs.walk w.levels w.cwd root = .ok vs ∧
      InTime s.timeLimit w.clock (Visit.files vs).length k r.truncated ∧
      s.Accounted fs w.cwd vs ((Visit.files vs).take k) s' r := by
  have hc := scan_cases s w
  rw [h] at hc
  cases hc with
  | @reported files fs root vs x clock journal hf hs hw _ hx =>
    exact ⟨fs, root, vs, _, hs, hw, inTime_examine hx, accounted_report hx rfl rfl⟩

/-- A package with a file that cannot be opened and a directory that cannot be listed. The time is over before
its last file. -/
def hastyWorld : World where
  files := FileSystem.empty.plantAll [] [
    ⟨[.literal "tool", .literal "main"], .file true ((text "exec(rm)").map fun c => c.toNat.toUInt8)⟩,
    ⟨[.literal "tool", .literal "sealed"], .file false []⟩,
    ⟨[.literal "tool", .literal "shut"], .directory .nothing⟩,
    ⟨[.literal "tool", .literal "twin"], .link (text "main")⟩]
  cwd := []
  environment := []
  levels := 1
  clock := [0, 1, 60, 61]
  horizon := none
  remote := fun _ => ⟨[], none⟩
  fetched := []
  journal := []

/-- A scanner of that package with one minute to go. -/
def hasty : Scanner where
  root := text "/tool"
  metadata := { name := text "tool" }
  denylist := Denylist.empty.insert (text "rm") (by decide)
  maxFileSize := 100
  timeLimit := 60

set_option maxRecDepth 20000 in
theorem walk_hastyWorld : hastyWorld.files.walk hastyWorld.levels hastyWorld.cwd hasty.root = .ok [
    .entered (text "/tool") [.literal "tool"], .file (text "/tool/main"), .file (text "/tool/sealed"),
    .refused (text "/tool/shut") [.literal "tool", .literal "shut"], .file (text "/tool/twin")] := by cbv

theorem scan_accounts_hasty : ∃ s' w' r, hasty.scan hastyWorld = (s', w', .ok r) ∧ r.truncated = true ∧
    ∃ fs root vs k, Site hastyWorld hasty.root fs root ∧ fs.walk hastyWorld.levels hastyWorld.cwd root = .ok vs ∧
      InTime hasty.timeLimit hastyWorld.clock (Visit.files vs).length k r.truncated ∧
      hasty.Accounted fs hastyWorld.cwd vs ((Visit.files vs).take k) s' r := by
  obtain ⟨s', w', x, clock, hx, h⟩ := exists_scan_eq (by decide) (by decide) walk_hastyWorld
  refine ⟨s', w', _, h, (truncated_examine hx).mpr ?_, scan_accounts h⟩
  rw [show (hastyWorld.clock.reach hasty.timeLimit _).1 = 2 by cbv]
  decide

end Scanner

end ExtensionAudit
