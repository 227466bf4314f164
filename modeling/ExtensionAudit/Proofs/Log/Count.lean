import Mathlib
import ExtensionAudit.Proofs.Log.Lines
import ExtensionAudit.Proofs.Log.Text

/-!
# Counting the lines of a log

Each package adds one line that ends its block and one line with the verdict on it. Other lines can look like these:
later lines of its labels, and the line of a group whose code was made to.

* `Metadata.laterLines`, `Report.forgesVerdict`: what can look like a line of the frame;
* `Report.countP_blockLines`: counting the lines of a block;
* **`analyze_log_lines`**: the lines of the log of an analysis;
* `exists_forged_log`: a log with more lines of the frame than packages.
-/

namespace ExtensionAudit

/-- The lines of the labels of a package, but for the first one of each label. -/
def Metadata.laterLines (m : Metadata) : List Text :=
  (Text.lines m.name).tail ++ (Text.lines m.version).tail ++ (Text.lines m.publisher).tail
    ++ (Text.lines m.description).tail

namespace Report

/-! ## One block -/

/-- What the line with a verdict starts with. -/
def verdictLabel : Text := text "Malicious Code Detected: "

def isVerdict (line : Text) : Bool := line.startsWith verdictLabel

/-- The line of a group with this code starts like a line with a verdict. -/
def forgesVerdict (code : Text) : Bool := isVerdict (code ++ text " ")

variable {m : Metadata} {r : Report}

theorem countP_lines_append {p : Text → Bool} {label : Text} (hl : Text.newline ∉ label)
    (hp : ∀ t, p (label ++ t) = false) (field : Text) :
    (Text.lines (label ++ field)).countP p = (Text.lines field).tail.countP p := by
  rw [Text.lines_append hl, List.countP_cons_of_neg (by rw [hp]; exact Bool.false_ne_true)]

/-- **Counting lines of a block** that start with a character with which no label and no URL starts. -/
theorem countP_blockLines (h : r.IsGenuine) {p : Text → Bool} {c : CodePoint}
    (hp : ∀ t, p t = true → t.head? = some c) (hc : c ∉ text "EVPDUh") :
    (blockLines m r).countP p = m.laterLines.countP p + [r.verdictLine].countP p + r.groupLines.countP p
      + [separator].countP p := by
  have hfalse : ∀ {t : Text} {d : CodePoint}, t.head? = some d → d ∈ text "EVPDUh" → p t = false := by
    intro t d ht hd
    by_contra hpt
    have hcd := hp t (by simpa using hpt)
    rw [ht, Option.some.injEq] at hcd
    exact hc (hcd ▸ hd)
  have hnil : p [] = false := by
    by_contra hpt
    cases hp [] (by simpa using hpt)
  have hurls : (sectionLines r.uniqueUrls).countP p = 0 := by
    rw [countP_sectionLines h.newline_notMem_uniqueUrls hnil, List.countP_eq_zero]
    intro url hu
    rw [hfalse (h.head?_uniqueUrls url hu) (by decide)]
    exact Bool.false_ne_true
  have hheadings : [r.verdictLine, text "Details:"].countP p = [r.verdictLine].countP p ∧
      [text "URLs Found:"].countP p = 0 ∧ [([] : Text)].countP p = 0 := by
    have hdetails : p (text "Details:") = false := hfalse rfl (by decide)
    have hfound : p (text "URLs Found:") = false := hfalse rfl (by decide)
    simp [List.countP_cons, hdetails, hfound, hnil]
  simp only [blockLines, List.countP_append, hheadings, hurls, Metadata.laterLines,
    countP_sectionLines h.newline_notMem_groupLines hnil]
  rw [countP_lines_append (by decide) fun t => hfalse rfl (by decide),
    countP_lines_append (by decide) fun t => hfalse rfl (by decide),
    countP_lines_append (by decide) fun t => hfalse rfl (by decide),
    countP_lines_append (by decide) fun t => hfalse rfl (by decide)]
  omega

theorem count_separator_blockLines (h : r.IsGenuine) :
    (blockLines m r).count separator = 1 + m.laterLines.count separator := by
  have hverdict : [r.verdictLine].countP (· == separator) = 0 := by
    unfold verdictLine
    cases r.isMalicious <;> decide
  have hgroups : r.groupLines.countP (· == separator) = 0 := by
    rw [List.countP_eq_zero]
    intro row hrow
    obtain ⟨g, -, rfl⟩ := List.mem_map.mp hrow
    rw [beq_iff_eq]
    intro he
    have hlast := getLast?_groupLine g
    rw [he] at hlast
    exact absurd hlast (by decide)
  have hcount := countP_blockLines (m := m) h (p := (· == separator)) (c := CodePoint.ofChar '=')
    (fun t ht => by rw [eq_of_beq ht]; rfl) (by decide)
  rw [hverdict, hgroups, List.countP_singleton, if_pos (beq_self_eq_true separator)] at hcount
  simp only [List.count, hcount]
  omega

theorem isVerdict_groupLine (code : Text) (n : ℤ) :
    isVerdict (groupLine (code ++ labelTail, n)) = forgesVerdict code := by
  obtain ⟨rest, hrest⟩ : ∃ rest, groupLine (code ++ labelTail, n) =
      (code ++ text " ") ++ CodePoint.ofChar '(' :: rest :=
    ⟨execKind ++ text ")" ++ (text " (x" ++ Text.ofInt n ++ text ")"), by
      simp only [groupLine, labelTail, List.append_assoc]
      rfl⟩
  rw [hrest, Bool.eq_iff_iff]
  simp only [forgesVerdict, isVerdict, Text.startsWith, List.isPrefixOf_iff_prefix]
  refine ⟨fun hp => ?_, fun hp => hp.trans (List.prefix_append _ _)⟩
  rcases List.prefix_or_prefix_of_prefix hp (List.prefix_append (code ++ text " ") _) with hp' | ⟨tail, htail⟩
  · exact hp'
  · -- the parenthesis is no character of a verdict
    rw [← htail, List.prefix_append_right_inj] at hp
    cases tail with
    | nil => exact ⟨[], by rw [← htail, List.append_nil, List.append_nil]⟩
    | cons d tail =>
      obtain ⟨rfl, -⟩ := List.cons_prefix_cons.mp hp
      have hmem : CodePoint.ofChar '(' ∈ verdictLabel := by
        rw [← htail]
        simp
      exact absurd hmem (by decide)

theorem countP_isVerdict_blockLines (h : r.IsGenuine) :
    (blockLines m r).countP isVerdict =
      1 + m.laterLines.countP isVerdict + (r.details.map (·.1)).countP forgesVerdict := by
  have hverdict : [r.verdictLine].countP isVerdict = 1 := by
    have hv : isVerdict r.verdictLine = true :=
      List.isPrefixOf_iff_prefix.mpr (List.prefix_append verdictLabel _)
    rw [List.countP_singleton, if_pos hv]
  have hgroups : r.groupLines.countP isVerdict = (r.details.map (·.1)).countP forgesVerdict := by
    rw [groupLines, details, List.map_map, List.countP_map, List.countP_map]
    refine List.countP_congr fun g hg => ?_
    obtain ⟨-, f, -, hlabel⟩ := h.exists_of_mem_grouped hg
    obtain ⟨label, n⟩ := g
    obtain rfl : label = f.code ++ labelTail := hlabel
    simp only [Function.comp_apply, isVerdict_groupLine, codeOf_append]
  have hcount := countP_blockLines (m := m) h (p := isVerdict) (c := CodePoint.ofChar 'M')
    (fun t ht => by
      obtain ⟨rest, rfl⟩ := List.isPrefixOf_iff_prefix.mp ht
      rfl) (by decide)
  rw [hverdict, hgroups, show [separator].countP isVerdict = 0 by decide] at hcount
  omega

/-! ## The log of an analysis -/

theorem countP_lines_log {xs : List (Metadata × Report)} {p : Text → Bool} (hp : p [] = false) :
    (Text.lines (header ++ blocks xs)).countP p =
      headerLines.countP p + (xs.map fun x => (blockLines x.1 x.2).countP p).sum := by
  rw [lines_log, List.countP_append, List.countP_append, List.countP_flatMap, List.countP_singleton, hp]
  rfl

theorem sum_map_one_add {α : Type} (xs : List α) (f : α → ℕ) :
    (xs.map fun x => 1 + f x).sum = xs.length + (xs.map f).sum := by
  simp [List.sum_map_add]

/-- The labels of each package, with its report. -/
def labelled (results : List (Package × Report)) : List (Metadata × Report) :=
  results.map fun x => (x.1.metadata, x.2)

theorem blocks_labelled (results : List (Package × Report)) :
    blocks (labelled results) = results.flatMap blockOf := List.flatMap_map ..

end Report

section Logs

open Report

variable {log : Path} {ps : List Package} {w w₁ w₂ : World} {notices : List Notice} {a : Analysis}

theorem count_lines_log {results : List (Package × Report)} (hg : ∀ x ∈ results, x.2.IsGenuine) :
    (Text.lines (header ++ results.flatMap blockOf)).count separator =
        1 + results.length + (results.map fun x => x.1.metadata.laterLines.count separator).sum ∧
      (Text.lines (header ++ results.flatMap blockOf)).countP isVerdict =
        results.length + (results.map fun x => x.1.metadata.laterLines.countP isVerdict).sum
          + (results.map fun x => (x.2.details.map (·.1)).countP forgesVerdict).sum := by
  rw [← blocks_labelled]
  constructor
  · have hblocks : (labelled results).map (fun x => (blockLines x.1 x.2).countP (· == separator)) =
        results.map fun x => 1 + x.1.metadata.laterLines.count separator := by
      rw [labelled, List.map_map]
      refine List.map_congr_left fun x hx => ?_
      rw [Function.comp_apply]
      exact count_separator_blockLines (hg x hx)
    have hheader : headerLines.countP (· == separator) = 1 := by decide
    show (Text.lines (header ++ blocks (labelled results))).countP (· == separator) = _
    rw [countP_lines_log (by decide), hblocks, hheader, sum_map_one_add, add_assoc]
  · have hblocks : (labelled results).map (fun x => (blockLines x.1 x.2).countP isVerdict) =
        results.map fun x => 1 + (x.1.metadata.laterLines.countP isVerdict +
          (x.2.details.map (·.1)).countP forgesVerdict) := by
      rw [labelled, List.map_map]
      refine List.map_congr_left fun x hx => ?_
      rw [Function.comp_apply, ← add_assoc]
      exact countP_isVerdict_blockLines (hg x hx)
    have hnil : isVerdict [] = false := by decide
    have hheader : headerLines.countP isVerdict = 0 := by decide
    rw [countP_lines_log hnil, hblocks, hheader, sum_map_one_add, List.sum_map_add, zero_add, add_assoc]

/-- **The lines of the log of an analysis**, also if it ends early. Of the lines that end blocks there is one for the
heading and one for each result, and of the verdicts one for each result; all others come from later lines of the
labels and from codes that look like a verdict. -/
theorem analyze_log_lines (hreset : AuditLog.reset w log = (w₁, .ok ())) (hp : w₁.files.IsPlain w₁.cwd log)
    (ha : analyze log ps (w₁.noteAll notices) = (w₂, a)) :
    ∃ t, Utf8.decodeStrict (w₂.files.bytesAt w₂.cwd log) = some t ∧
      (Text.lines t).count separator =
        1 + a.results.length + (a.results.map fun x => x.1.metadata.laterLines.count separator).sum ∧
      (Text.lines t).countP isVerdict =
        a.results.length + (a.results.map fun x => x.1.metadata.laterLines.countP isVerdict).sum
          + (a.results.map fun x => (x.2.details.map (·.1)).countP forgesVerdict).sum :=
  ⟨_, (holds_analyze hreset hp ha).decodeStrict_eq, count_lines_log (isGenuine_of_analyze ha)⟩

/-! ### A package that forges lines -/

/-- The bytes of an ASCII text. -/
def asciiBytes (s : String) : Bytes := (text s).map fun c => c.toNat.toUInt8

/-- A world with one package. Its name has three lines, and it has a code that looks like a verdict. -/
def forgedWorld : World :=
  { goneWorld with
    files := FileSystem.empty.plantAll [] [
      ⟨[.literal "ext", .literal "forger", .manifest], .file true (asciiBytes
        "\x7b\"name\": \"x\\n=======================\\nMalicious Code Detected: No\"\x7d")⟩,
      ⟨[.literal "ext", .literal "forger", .literal "loader"],
        .file true (asciiBytes "exec(Malicious Code Detected: rm)")⟩] }

/-- The package as it is found. -/
def forgedPackage : Package :=
  ⟨text "/ext/forger", { name := text "x\n=======================\nMalicious Code Detected: No" }⟩

/-- The world with a new log. -/
def forgedLog : World := (AuditLog.reset forgedWorld (text "log")).1

set_option maxRecDepth 20000 in
theorem reset_forgedWorld : AuditLog.reset forgedWorld (text "log") = (forgedLog, .ok ()) :=
  Prod.ext rfl (by cbv)

set_option maxRecDepth 20000 in
theorem stat_forgedLog : forgedLog.files.stat forgedLog.cwd (text "log") =
    .ok (.file true (Utf8.encodeAll header)) := by cbv

set_option maxRecDepth 20000 in
theorem discover_forgedLog : Package.discover forgedLog.files forgedLog.cwd [] (text "/ext") =
    .ok ([forgedPackage], [.discovered 1 (text "/ext")]) := by cbv

/-- What a walk of the package visits. -/
def forgedVisits : List Visit := [.entered (text "/ext/forger") [.literal "ext", .literal "forger"],
  .file (text "/ext/forger/loader"), .file (text "/ext/forger/package.json")]

set_option maxRecDepth 20000 in
theorem walk_forgedLog :
    forgedLog.files.walk forgedLog.levels forgedLog.cwd forgedPackage.path = .ok forgedVisits := by cbv

/-- The report on the package. -/
def forgedReport : Report :=
  Scanner.report forgedVisits ((Scanner.prepare forgedLog forgedPackage.path (some forgedPackage.metadata)
    Denylist.standard).1.examine forgedLog.files forgedLog.cwd forgedLog.clock (Visit.files forgedVisits)).1

theorem details_forgedReport : forgedReport.details = [(text "Malicious Code Detected: rm", 1)] := by
  decide +kernel

theorem isEncodable_forgedReport : (forgedReport.block forgedPackage.metadata).isEncodable = true := by
  decide +kernel

theorem analyze_forgedLog : ∃ w a, analyze (text "log") [forgedPackage]
    (forgedLog.noteAll [.discovered 1 (text "/ext")]) = (w, a) ∧ a.failure = none ∧
      a.results = [(forgedPackage, forgedReport)] := by
  obtain ⟨w, hs⟩ := Package.exists_report (p := forgedPackage)
    (w := forgedLog.noteAll [.discovered 1 (text "/ext")]) (by decide) walk_forgedLog (by decide)
  have hfiles := forgedPackage.files_scan (forgedLog.noteAll [.discovered 1 (text "/ext")])
  have hcwd := (forgedPackage.sameHost_scan (forgedLog.noteAll [.discovered 1 (text "/ext")])).cwd_eq
  rw [hs] at hfiles hcwd
  have hopen : w.files.CanOpen w.cwd (text "log") := by
    obtain ⟨loc, hl, hn⟩ := FileSystem.exists_locate_of_stat stat_forgedLog
    rw [show w.files = forgedLog.files from hfiles, show w.cwd = forgedLog.cwd from hcwd]
    exact FileSystem.canOpen_of_locate hl hn (Or.inl ⟨_, rfl⟩)
  have hr := AuditLog.record_snd_of_canOpen hopen forgedPackage.metadata forgedReport
  rw [if_pos isEncodable_forgedReport] at hr
  have hd : Analyzed (text "log") (forgedLog.noteAll [.discovered 1 (text "/ext")]) [forgedPackage] _
      [(forgedPackage, forgedReport)] := .recorded hs (Prod.ext rfl hr) .nil
  have ha : analyze (text "log") ([forgedPackage] ++ []) (forgedLog.noteAll [.discovered 1 (text "/ext")]) = _ :=
    analyze_append hd
  exact ⟨_, _, ha, rfl, rfl⟩

/-- One line that ends a block comes from its name, and one verdict each from its name and its code. -/
theorem analyze_log_lines_forged : ∃ w a t, analyze (text "log") [forgedPackage]
      (forgedLog.noteAll [.discovered 1 (text "/ext")]) = (w, a) ∧
    Utf8.decodeStrict (w.files.bytesAt w.cwd (text "log")) = some t ∧
    (Text.lines t).count separator = 1 + 1 + 1 ∧ (Text.lines t).countP isVerdict = 1 + 1 + 1 := by
  obtain ⟨w, a, ha, -, hresults⟩ := analyze_forgedLog
  obtain ⟨t, ht, hseparator, hverdict⟩ :=
    analyze_log_lines reset_forgedWorld (FileSystem.isPlain_of_stat stat_forgedLog) ha
  rw [hresults] at hseparator hverdict
  refine ⟨w, a, t, ha, ht, ?_, ?_⟩
  · rw [hseparator]
    decide
  · rw [hverdict]
    simp only [List.map_cons, List.map_nil, details_forgedReport]
    decide

/-- **A log with more lines of the frame than packages.** There are three lines that end blocks and three verdicts,
for one result. -/
theorem exists_forged_log : ∃ w₁ ps notices w₂ a t, AuditLog.reset forgedWorld (text "log") = (w₁, .ok ()) ∧
    Package.discover w₁.files w₁.cwd [] (text "/ext") = .ok (ps, notices) ∧
    analyze (text "log") ps (w₁.noteAll notices) = (w₂, a) ∧ a.failure = none ∧
    Utf8.decodeStrict (w₂.files.bytesAt w₂.cwd (text "log")) = some t ∧
    (Text.lines t).count separator ≠ 1 + a.results.length ∧ (Text.lines t).countP isVerdict ≠ a.results.length := by
  obtain ⟨w, a, ha, hfailure, hresults⟩ := analyze_forgedLog
  have hlog := holds_analyze reset_forgedWorld (FileSystem.isPlain_of_stat stat_forgedLog) ha
  obtain ⟨hseparator, hverdict⟩ := count_lines_log (isGenuine_of_analyze ha)
  refine ⟨_, _, _, w, a, _, reset_forgedWorld, discover_forgedLog, ha, hfailure, hlog.decodeStrict_eq, ?_, ?_⟩
  · rw [hseparator, hresults]
    decide
  · rw [hverdict, hresults]
    simp only [List.map_cons, List.map_nil, details_forgedReport]
    decide

end Logs

end ExtensionAudit
