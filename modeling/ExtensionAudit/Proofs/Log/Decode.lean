import Mathlib
import ExtensionAudit.Proofs.Json.Numbers
import ExtensionAudit.Proofs.Log.Lines
import ExtensionAudit.Proofs.Scan.Growth

/-!
# Reading a log back

A log can be read back: from its text alone one gets the labels of each package, the verdict on it, its codes with
their counts and its URLs, as long as no label spreads over several lines.

* `Report.Entry`, `Report.Entry.of`: what a block tells;
* `Report.readRow`, `Report.readEntry`, `Report.decode`: reading a row, a block and a log;
* `Report.readEntry_entryLines`, **`Report.decode_log`**: what is read is what was written;
* **`Report.log_injective`**: different analyses have different logs.
-/

namespace ExtensionAudit

/-- No label holds a line feed. -/
structure Metadata.IsOneLine (m : Metadata) : Prop where
  name : Text.newline ∉ m.name
  version : Text.newline ∉ m.version
  publisher : Text.newline ∉ m.publisher
  description : Text.newline ∉ m.description

namespace Report

/-! ## What a block tells -/

/-- What a block tells. -/
structure Entry where
  metadata : Metadata
  malicious : Bool
  details : List (Text × ℤ)
  urls : List Text
deriving DecidableEq

def Entry.of (x : Metadata × Report) : Entry := ⟨x.1, x.2.isMalicious, x.2.details, x.2.uniqueUrls⟩

/-! ## Reading -/

/-- The code and the count of a row of the details. The count is looked for from the end. -/
def readRow (row : Text) : Text × ℤ :=
  let inner := row.dropLast
  let label := inner.rdropWhile Json.isDigit
  (codeOf (label.take (label.length - (text " (x").length)), Json.ofDigits (inner.rtakeWhile Json.isDigit))

/-- What follows the label of a line. -/
def readLabel (label : Text) (line : Text) : Option Text :=
  if line.startsWith label then some (line.drop label.length) else none

def readVerdict (line : Text) : Option Bool :=
  if line = text "Malicious Code Detected: Yes" then some true
  else if line = text "Malicious Code Detected: No" then some false
  else none

/-- The rows of a section. -/
def readSection (rows : List Text) : List Text := if rows = [[]] then [] else rows

def isUrlsHeading (line : Text) : Bool := line == text "URLs Found:"

/-- What the lines of a block tell. -/
def readEntry : List Text → Option Entry
  | _ :: name :: version :: publisher :: description :: verdict :: _ :: rows => do
    let name ← readLabel (text "Extension: ") name
    let version ← readLabel (text "Version: ") version
    let publisher ← readLabel (text "Publisher: ") publisher
    let description ← readLabel (text "Description: ") description
    let malicious ← readVerdict verdict
    some {
      metadata := { name, version, publisher, description }
      malicious
      details := (readSection (rows.takeWhile fun l => !isUrlsHeading l)).map readRow
      urls := readSection (rows.dropWhile fun l => !isUrlsHeading l).tail }
  | _ => none

/-- What the blocks of a log tell. -/
def decode (t : Text) : Option (List Entry) :=
  (((Text.lines t).drop headerLines.length).splitOnP (· == separator)).dropLast.mapM readEntry

/-! ## Rows -/

theorem readRow_groupLine (code : Text) (n : ℕ) :
    readRow (groupLine (code ++ labelTail, (n : ℤ))) = (code, (n : ℤ)) := by
  have hinner : (groupLine (code ++ labelTail, (n : ℤ))).dropLast =
      (code ++ labelTail ++ text " (x") ++ Text.ofNat n := List.dropLast_concat
  have hdigits : ∀ c ∈ (Text.ofNat n).reverse, Json.isDigit c = true := fun c hc =>
    Json.isDigit_of_mem_ofNat (List.mem_reverse.mp hc)
  -- what stands before the count ends in a letter
  have hrev : (code ++ labelTail ++ text " (x").reverse =
      CodePoint.ofChar 'x' :: (code ++ labelTail ++ text " (").reverse := by
    rw [← List.reverse_concat, List.append_assoc (code ++ labelTail)]
    rfl
  have hlabel : ((code ++ labelTail ++ text " (x") ++ Text.ofNat n).rdropWhile Json.isDigit =
      code ++ labelTail ++ text " (x" := by
    rw [List.rdropWhile, List.reverse_append, List.dropWhile_append_of_pos hdigits, hrev,
      List.dropWhile_cons_of_neg (by decide), ← hrev, List.reverse_reverse]
  have hcount : ((code ++ labelTail ++ text " (x") ++ Text.ofNat n).rtakeWhile Json.isDigit = Text.ofNat n := by
    rw [List.rtakeWhile, List.reverse_append, List.takeWhile_append_of_pos hdigits, hrev,
      List.takeWhile_cons_of_neg (by decide), List.append_nil, List.reverse_reverse]
  rw [readRow, hinner]
  simp only [hlabel, hcount, Json.ofDigits_ofNat]
  rw [@List.length_append _ (code ++ labelTail), Nat.add_sub_cancel, List.take_left, codeOf_append]

/-! ## Blocks -/

theorem readLabel_append (label t : Text) : readLabel label (label ++ t) = some t := by
  have hp : (label ++ t).startsWith label = true := List.isPrefixOf_iff_prefix.mpr (List.prefix_append label t)
  rw [readLabel, if_pos hp, List.drop_left]

theorem readVerdict_verdictLine (r : Report) : readVerdict r.verdictLine = some r.isMalicious := by
  unfold verdictLine
  cases r.isMalicious <;> decide

theorem readSection_sectionLines {rows : List Text} (h : ∀ row ∈ rows, Text.newline ∉ row) (hne : [] ∉ rows) :
    readSection (sectionLines rows) = rows := by
  rw [sectionLines, Text.lines_joinLines h, readSection]
  by_cases hrows : rows = []
  · rw [if_pos hrows, if_pos rfl, hrows]
  · rw [if_neg hrows, if_neg]
    rintro rfl
    exact hne (List.mem_singleton_self _)

/-- The lines of a block without the one that ends it, if each label has one line. -/
def entryLines (m : Metadata) (r : Report) : List Text :=
  [[], text "Extension: " ++ m.name, text "Version: " ++ m.version, text "Publisher: " ++ m.publisher,
    text "Description: " ++ m.description, r.verdictLine, text "Details:"]
    ++ (sectionLines r.groupLines ++ text "URLs Found:" :: sectionLines r.uniqueUrls)

section Entries

variable {m : Metadata} {r : Report}

theorem blockLines_eq (h : m.IsOneLine) : blockLines m r = entryLines m r ++ [separator] := by
  have hline : ∀ label field : Text, Text.newline ∉ label → Text.newline ∉ field →
      Text.lines (label ++ field) = [label ++ field] := fun label field hl hf =>
    Text.lines_of_notMem (by rw [List.mem_append, not_or]; exact ⟨hl, hf⟩)
  rw [blockLines, hline _ _ (by decide) h.name, hline _ _ (by decide) h.version,
    hline _ _ (by decide) h.publisher, hline _ _ (by decide) h.description]
  simp only [entryLines, List.append_assoc, List.cons_append, List.nil_append]

theorem map_readRow_groupLines (h : r.IsGenuine) : r.groupLines.map readRow = r.details := by
  rw [groupLines, details, List.map_map]
  refine List.map_congr_left fun g hg => ?_
  obtain ⟨hpos, f, -, hlabel⟩ := h.exists_of_mem_grouped hg
  obtain ⟨n, hn⟩ := Int.eq_ofNat_of_zero_le hpos.le
  obtain ⟨label, count⟩ := g
  obtain rfl : label = f.code ++ labelTail := hlabel
  obtain rfl : count = (n : ℤ) := hn
  rw [Function.comp_apply, readRow_groupLine, codeOf_append]

theorem ne_of_mem_sectionLines_groupLines (h : r.IsGenuine) (other : Text) {line : Text}
    (hl : line ∈ sectionLines r.groupLines) (hother : other ≠ [])
    (hlast : other.getLast? ≠ some Detect.callClosing) : line ≠ other := by
  rintro rfl
  rcases mem_sectionLines h.newline_notMem_groupLines hl with he | hrow
  · exact hother he
  · obtain ⟨g, -, rfl⟩ := List.mem_map.mp hrow
    exact hlast (getLast?_groupLine g)

theorem ne_of_mem_sectionLines_uniqueUrls (h : r.IsGenuine) (other : Text) {line : Text}
    (hl : line ∈ sectionLines r.uniqueUrls) (hother : other ≠ [])
    (hhead : other.head? ≠ some (CodePoint.ofChar 'h')) : line ≠ other := by
  rintro rfl
  rcases mem_sectionLines h.newline_notMem_uniqueUrls hl with he | hrow
  · exact hother he
  · exact hhead (h.head?_uniqueUrls _ hrow)

/-- **What is read from the lines of a block** is what the block tells. -/
theorem readEntry_entryLines (h : r.IsGenuine) : readEntry (entryLines m r) = some (Entry.of (m, r)) := by
  have hdetails : ∀ line ∈ sectionLines r.groupLines, (!isUrlsHeading line) = true := by
    intro line hl
    have hne := ne_of_mem_sectionLines_groupLines h (text "URLs Found:") hl (by decide) (by decide)
    simpa [isUrlsHeading] using hne
  have hgroups : [] ∉ r.groupLines := by
    intro hmem
    obtain ⟨g, -, hg⟩ := List.mem_map.mp hmem
    have hlast := getLast?_groupLine g
    rw [hg] at hlast
    cases hlast
  have hurls : [] ∉ r.uniqueUrls := fun hmem => by cases h.head?_uniqueUrls _ hmem
  simp only [entryLines, List.cons_append, List.nil_append, readEntry, readLabel_append, readVerdict_verdictLine,
    Option.bind_eq_bind, Option.bind_some, List.takeWhile_append_of_pos hdetails,
    List.dropWhile_append_of_pos hdetails]
  rw [List.takeWhile_cons_of_neg (by decide), List.dropWhile_cons_of_neg (by decide), List.append_nil,
    List.tail_cons, readSection_sectionLines h.newline_notMem_groupLines hgroups,
    readSection_sectionLines h.newline_notMem_uniqueUrls hurls, map_readRow_groupLines h]
  rfl

theorem separator_notMem_entryLines (h : r.IsGenuine) : ∀ line ∈ entryLines m r, (line == separator) = false := by
  have hlabel : ∀ label t : Text, label ≠ [] → label.head? ≠ separator.head? → label ++ t ≠ separator := by
    intro label t hne hh he
    rw [← he, List.head?_append_of_ne_nil _ hne] at hh
    exact hh rfl
  have hends : ∀ line ∈ [[], text "Extension: " ++ m.name, text "Version: " ++ m.version,
      text "Publisher: " ++ m.publisher, text "Description: " ++ m.description, r.verdictLine, text "Details:"],
      line ≠ separator := by
    simp only [List.forall_mem_cons]
    exact ⟨by decide, hlabel _ _ (by decide) (by decide), hlabel _ _ (by decide) (by decide),
      hlabel _ _ (by decide) (by decide), hlabel _ _ (by decide) (by decide), hlabel _ _ (by decide) (by decide),
      by decide, List.forall_mem_nil _⟩
  intro line hl
  rw [beq_eq_false_iff_ne]
  rcases List.mem_append.mp hl with hl | hl
  · exact hends line hl
  rcases List.mem_append.mp hl with hl | hl
  · exact ne_of_mem_sectionLines_groupLines h _ hl (by decide) (by decide)
  rcases List.mem_cons.mp hl with rfl | hl
  · decide
  · exact ne_of_mem_sectionLines_uniqueUrls h _ hl (by decide) (by decide)

end Entries

/-! ## Logs -/

section Logs

variable {xs ys : List (Metadata × Report)}

theorem splitOnP_blockLines (h : ∀ x ∈ xs, x.1.IsOneLine ∧ x.2.IsGenuine) :
    ((xs.flatMap fun x : Metadata × Report => blockLines x.1 x.2) ++ [[]]).splitOnP (· == separator) =
      (xs.map fun x => entryLines x.1 x.2) ++ [[[]]] := by
  induction xs with
  | nil => decide
  | cons x xs ih =>
    obtain ⟨⟨hm, hr⟩, hrest⟩ := List.forall_mem_cons.mp h
    have hentry : (entryLines x.1 x.2).splitOnP (· == separator) = [entryLines x.1 x.2] :=
      List.splitOnP_eq_singleton (separator_notMem_entryLines hr)
    have hsplit := List.splitOnP_append_cons (entryLines x.1 x.2)
      ((xs.flatMap fun x => blockLines x.1 x.2) ++ [[]]) (p := (· == separator)) (beq_self_eq_true separator)
    rw [List.flatMap_cons, blockLines_eq hm, List.append_assoc, List.append_assoc, List.singleton_append, hsplit,
      hentry, ih hrest]
    rfl

/-- **A log is read back**: what is read is what its blocks tell. -/
theorem decode_log (h : ∀ x ∈ xs, x.1.IsOneLine ∧ x.2.IsGenuine) :
    decode (header ++ blocks xs) = some (xs.map Entry.of) := by
  rw [decode, lines_log, List.append_assoc, List.drop_left, splitOnP_blockLines h, List.dropLast_concat]
  induction xs with
  | nil => rfl
  | cons x xs ih =>
    obtain ⟨⟨-, hr⟩, hrest⟩ := List.forall_mem_cons.mp h
    rw [List.map_cons, List.mapM_cons, readEntry_entryLines hr, ih hrest]
    rfl

/-- The report is one that a scan returned. -/
def IsScanned (r : Report) : Prop := ∃ (s s' : Scanner) (w w' : World), s.scan w = (s', w', .ok r)

/-- **Different analyses have different logs.** Two logs with the same text are about equally many packages, and they
agree on the labels of each, on the verdict, on the codes with their counts and on the URLs. What is read from a log
is a verdict of yes exactly if there are details. -/
theorem log_injective (hx : ∀ x ∈ xs, x.1.IsOneLine ∧ x.2.IsScanned) (hy : ∀ y ∈ ys, y.1.IsOneLine ∧ y.2.IsScanned) :
    (header ++ blocks xs = header ++ blocks ys →
      List.Forall₂ (fun x y => x.1 = y.1 ∧ x.2.isMalicious = y.2.isMalicious ∧ x.2.details = y.2.details ∧
        x.2.uniqueUrls = y.2.uniqueUrls) xs ys) ∧
    ∃ entries, decode (header ++ blocks xs) = some entries ∧ entries.length = xs.length ∧
      ∀ e ∈ entries, e.malicious = true ↔ e.details ≠ [] := by
  have hgenuine : ∀ {zs : List (Metadata × Report)}, (∀ z ∈ zs, z.1.IsOneLine ∧ z.2.IsScanned) →
      ∀ z ∈ zs, z.1.IsOneLine ∧ z.2.IsGenuine := by
    intro zs h z hz
    obtain ⟨hm, s, s', w, w', hs⟩ := h z hz
    exact ⟨hm, Scanner.isGenuine_of_scan hs⟩
  have hdx := decode_log (hgenuine hx)
  have hdy := decode_log (hgenuine hy)
  refine ⟨fun he => ?_, _, hdx, List.length_map _, fun e hmem => ?_⟩
  · rw [he, hdy, Option.some.injEq] at hdx
    have hall : List.Forall₂ (· = ·) (xs.map Entry.of) (ys.map Entry.of) := by
      rw [List.forall₂_eq_eq_eq]
      exact hdx.symm
    rw [List.forall₂_map_left_iff, List.forall₂_map_right_iff] at hall
    refine hall.imp fun x y h => ?_
    obtain ⟨hm, hv, hd, hu⟩ := Entry.mk.inj h
    exact ⟨hm, hv, hd, hu⟩
  · obtain ⟨x, hxs, rfl⟩ := List.mem_map.mp hmem
    obtain ⟨-, hr⟩ := hgenuine hx x hxs
    show x.2.isMalicious = true ↔ x.2.details ≠ []
    rw [hr.isMalicious_iff, details, ne_eq, ne_eq, List.map_eq_nil_iff]

end Logs

theorem block_congr {m : Metadata} {r r' : Report} (hv : r.isMalicious = r'.isMalicious)
    (hg : r.grouped = r'.grouped) (hu : r.uniqueUrls = r'.uniqueUrls) : r.block m = r'.block m := by
  rw [block, block, hv, hg, hu]

section Twins

open Scanner

theorem exists_report_hasty : ∃ s w r, hasty.scan hastyWorld = (s, w, .ok r) ∧
    r.findings = [⟨text "/tool/main", 1, text "rm", execKind⟩] ∧ r.grouped = [(text "rm" ++ labelTail, 1)] ∧
      r.uniqueUrls = [] := by
  obtain ⟨s, w, x, clock, hx, h⟩ := exists_scan_eq (by decide) (by decide) walk_hastyWorld
  obtain rfl := congrArg Prod.fst hx
  exact ⟨s, w, _, h, by decide +kernel, by decide +kernel, by decide +kernel⟩

theorem exists_report_patient : ∃ s w r, patient.scan lairWorld = (s, w, .ok r) ∧
    r.findings = [⟨text "/lair/den/beast", 1, text "rm", execKind⟩] ∧ r.grouped = [(text "rm" ++ labelTail, 1)] ∧
      r.uniqueUrls = [] := by
  obtain ⟨s, w, x, clock, hx, h⟩ := exists_scan_eq (by decide) (by decide) walk_lairWorld
  obtain rfl := congrArg Prod.fst hx
  exact ⟨s, w, _, h, by decide +kernel, by decide +kernel, by decide +kernel⟩

/-- Two packages with the same command in different files have the same log. -/
theorem log_injective_twins : ∃ r r' : Report, r.findings ≠ r'.findings ∧
    header ++ blocks [({}, r)] = header ++ blocks [({}, r')] ∧
    List.Forall₂ (fun x y => x.1 = y.1 ∧ x.2.isMalicious = y.2.isMalicious ∧ x.2.details = y.2.details ∧
      x.2.uniqueUrls = y.2.uniqueUrls) [(({} : Metadata), r)] [({}, r')] := by
  obtain ⟨s, w, r, h, hf, hg, hu⟩ := exists_report_hasty
  obtain ⟨s', w', r', h', hf', hg', hu'⟩ := exists_report_patient
  have hm : Metadata.IsOneLine {} := ⟨by decide, by decide, by decide, by decide⟩
  have hblock : r.block {} = r'.block {} :=
    block_congr (by rw [isMalicious, isMalicious, hf, hf']; rfl) (hg.trans hg'.symm) (hu.trans hu'.symm)
  have he : header ++ blocks [({}, r)] = header ++ blocks [({}, r')] := by
    simp only [blocks, List.flatMap_cons, hblock, List.flatMap_nil]
  refine ⟨r, r', ?_, he, (log_injective ?_ ?_).1 he⟩
  · rw [hf, hf']
    decide
  · exact List.forall_mem_singleton.mpr ⟨hm, _, _, _, _, h⟩
  · exact List.forall_mem_singleton.mpr ⟨hm, _, _, _, _, h'⟩

end Twins

end Report

end ExtensionAudit
