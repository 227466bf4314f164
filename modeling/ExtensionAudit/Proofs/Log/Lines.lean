import Mathlib
import ExtensionAudit.Proofs.Scan.Report
import ExtensionAudit.Report.Block

/-!
# The lines of a log

A log is made of lines: those of its heading, and then those of one block after the other. Only the labels of a
package can spread over several lines.

* `Report.blockLines`, **`Report.lines_block_append`**: the lines of a block;
* `Report.blocks`, `Report.lines_log`: the lines of a log;
* `Report.mem_sectionLines`, `Report.countP_sectionLines`: the lines of the two sections;
* `Report.getLast?_groupLine`, `Report.IsGenuine.head?_uniqueUrls`: how their rows end and start.
-/

namespace ExtensionAudit.Report

/-! ## Blocks -/

/-- What a block says about the verdict. -/
def verdictLine (r : Report) : Text :=
  text "Malicious Code Detected: " ++ text (if r.isMalicious then "Yes" else "No")

def groupLines (r : Report) : List Text := r.grouped.map groupLine

/-- The lines of a section: one empty line if there are no entries. -/
def sectionLines (rows : List Text) : List Text := Text.lines (Text.joinLines rows)

/-- The lines of a block. -/
def blockLines (m : Metadata) (r : Report) : List Text :=
  [[]] ++ Text.lines (text "Extension: " ++ m.name) ++ Text.lines (text "Version: " ++ m.version)
    ++ Text.lines (text "Publisher: " ++ m.publisher) ++ Text.lines (text "Description: " ++ m.description)
    ++ [r.verdictLine, text "Details:"] ++ sectionLines r.groupLines
    ++ [text "URLs Found:"] ++ sectionLines r.uniqueUrls ++ [separator]

theorem lines_cons_newline (t : Text) : Text.lines (Text.newline :: t) = [] :: Text.lines t :=
  Text.lines_append_newline [] t

theorem newline_notMem_verdictLine (r : Report) : Text.newline ∉ r.verdictLine := by
  unfold verdictLine
  cases r.isMalicious <;> decide

/-- **The lines of a block**, whatever comes behind it. -/
theorem lines_block_append (m : Metadata) (r : Report) (t : Text) :
    Text.lines (r.block m ++ t) = blockLines m r ++ Text.lines t := by
  have hblock : r.block m ++ t = Text.newline :: ((text "Extension: " ++ m.name) ++ Text.newline ::
      ((text "Version: " ++ m.version) ++ Text.newline :: ((text "Publisher: " ++ m.publisher) ++ Text.newline ::
      ((text "Description: " ++ m.description) ++ Text.newline :: (r.verdictLine ++ Text.newline ::
      (text "Details:" ++ Text.newline :: (Text.joinLines r.groupLines ++ Text.newline ::
      (text "URLs Found:" ++ Text.newline :: (Text.joinLines r.uniqueUrls ++ Text.newline ::
      (separator ++ Text.newline :: t)))))))))) := by
    simp only [block, verdictLine, groupLines, List.append_assoc]
    rfl
  rw [hblock, lines_cons_newline]
  simp only [Text.lines_append_newline]
  rw [Text.lines_of_notMem r.newline_notMem_verdictLine,
    Text.lines_of_notMem (show Text.newline ∉ text "Details:" by decide),
    Text.lines_of_notMem (show Text.newline ∉ text "URLs Found:" by decide),
    Text.lines_of_notMem (show Text.newline ∉ separator by decide)]
  simp only [blockLines, sectionLines, List.append_assoc, List.cons_append, List.nil_append]

/-! ## Logs -/

/-- The blocks of some packages. -/
def blocks (xs : List (Metadata × Report)) : Text := xs.flatMap fun x => x.2.block x.1

theorem lines_blocks (xs : List (Metadata × Report)) :
    Text.lines (blocks xs) = (xs.flatMap fun x => blockLines x.1 x.2) ++ [[]] := by
  induction xs with
  | nil => exact Text.lines_nil
  | cons x xs ih =>
    rw [blocks, List.flatMap_cons, lines_block_append]
    show _ ++ Text.lines (blocks xs) = _
    rw [ih, List.flatMap_cons, List.append_assoc]

/-- The lines of the heading of a log. -/
def headerLines : List Text := [text "Extension Analysis Log", separator, []]

/-- **The lines of a log.** -/
theorem lines_log (xs : List (Metadata × Report)) :
    Text.lines (header ++ blocks xs) = headerLines ++ (xs.flatMap fun x => blockLines x.1 x.2) ++ [[]] := by
  have hheader : header ++ blocks xs = text "Extension Analysis Log" ++ Text.newline ::
      (separator ++ Text.newline :: (Text.newline :: blocks xs)) := by
    simp only [header, List.append_assoc]
    rfl
  rw [hheader]
  simp only [Text.lines_append_newline, lines_cons_newline]
  rw [Text.lines_of_notMem (show Text.newline ∉ text "Extension Analysis Log" by decide),
    Text.lines_of_notMem (show Text.newline ∉ separator by decide), lines_blocks]
  rfl

/-! ## Sections -/

section Sections

variable {rows : List Text}

theorem mem_sectionLines (h : ∀ row ∈ rows, Text.newline ∉ row) {line : Text} (hl : line ∈ sectionLines rows) :
    line = [] ∨ line ∈ rows := by
  rw [sectionLines, Text.lines_joinLines h] at hl
  split at hl
  · exact Or.inl (List.mem_singleton.mp hl)
  · exact Or.inr hl

theorem countP_sectionLines (h : ∀ row ∈ rows, Text.newline ∉ row) {p : Text → Bool} (hp : p [] = false) :
    (sectionLines rows).countP p = rows.countP p := by
  rw [sectionLines, Text.lines_joinLines h]
  split
  · next he => simp [he, hp]
  · rfl

end Sections

/-! ## Rows -/

theorem getLast?_groupLine (g : Text × ℤ) : (groupLine g).getLast? = some Detect.callClosing :=
  List.getLast?_append_of_ne_nil _ (by decide)

theorem newline_notMem_ofNat (n : ℕ) : Text.newline ∉ Text.ofNat n := by
  intro h
  obtain ⟨c, hc, he⟩ := List.mem_map.mp h
  obtain rfl := CodePoint.ofChar_injective he
  exact absurd (Nat.isDigit_of_mem_toDigits (by decide) (by decide) hc) (by decide)

theorem newline_notMem_ofInt (n : ℤ) : Text.newline ∉ Text.ofInt n := by
  cases n with
  | ofNat n => exact newline_notMem_ofNat n
  | negSucc n =>
    rw [Text.ofInt, List.mem_cons, not_or]
    exact ⟨by decide, newline_notMem_ofNat (n + 1)⟩

namespace IsGenuine

variable {r : Report}

theorem newline_notMem_groupLines (h : r.IsGenuine) : ∀ row ∈ r.groupLines, Text.newline ∉ row := by
  intro row hrow
  obtain ⟨g, hg, rfl⟩ := List.mem_map.mp hrow
  obtain ⟨-, f, hf, hlabel⟩ := h.exists_of_mem_grouped hg
  rw [groupLine, hlabel]
  simp only [List.mem_append, not_or]
  exact ⟨⟨⟨⟨h.newline_notMem f hf, by decide⟩, by decide⟩, newline_notMem_ofInt _⟩, by decide⟩

theorem newline_notMem_uniqueUrls (h : r.IsGenuine) : ∀ url ∈ r.uniqueUrls, Text.newline ∉ url :=
  fun url hu hn => (Detect.of_isUrlChar ((h.isUrl url hu).isUrlChar _ hn)).1 rfl

theorem head?_uniqueUrls (h : r.IsGenuine) : ∀ url ∈ r.uniqueUrls, url.head? = some (CodePoint.ofChar 'h') := by
  intro url hu
  obtain ⟨rest, rfl⟩ := (h.isUrl url hu).isPrefix
  rfl

end IsGenuine

end ExtensionAudit.Report
