import Mathlib
import ExtensionAudit.Proofs.Detect.Spans
import ExtensionAudit.Scanner.Basic

/-!
# Contents in pieces

Neither detector looks beyond the end of a line. So what is found in a content is what is found in its lines, each taken
for itself, except that a finding counts its line from the first one of the whole content.

* `Finding.down`: a finding in a content that stands behind other lines;
* `Detect.execFindings_append`, `Detect.urls_append`: two contents with a line feed between them;
* `Detect.execFindings_eq`, `Detect.urls_eq`: a content from its lines;
* **`Detect.search_append`**: both.
-/

namespace ExtensionAudit

/-! ## Findings -/

/-- The finding, with so many lines more in front of it. -/
def Finding.down (n : ℕ) (f : Finding) : Finding := { f with line := f.line + n }

theorem Finding.down_zero (f : Finding) : f.down 0 = f := by
  rw [down, Nat.cast_zero, Int.add_zero]

theorem Finding.down_down (f : Finding) (m n : ℕ) : (f.down m).down n = f.down (m + n) := by
  simp only [down, Nat.cast_add, Int.add_assoc]

namespace Detect

theorem lineFinding?_add (d : Denylist) (line : Text) (number n : ℕ) :
    lineFinding? d line (number + n) = (lineFinding? d line number).map (Finding.down n) := by
  unfold lineFinding?
  cases argument? line with
  | none => rfl
  | some code =>
    simp only
    split
    · simp only [Option.map_some, Finding.down, Nat.cast_add]
    · rfl

/-- **Findings of two contents** with a line feed between them: those of the second one stand further down. -/
theorem execFindings_append (d : Denylist) (a b : Text) : execFindings d (a ++ Text.newline :: b) =
    execFindings d a ++ (execFindings d b).map (Finding.down (1 + a.count Text.newline)) := by
  unfold execFindings
  rw [Text.lines_append_newline, List.zipIdx_append, List.filterMap_append, Text.length_lines,
    Nat.add_comm 1 (1 + a.count Text.newline), ← List.map_snd_add_zipIdx_eq_zipIdx, List.filterMap_map,
    List.map_filterMap]
  congr 2
  funext x
  exact lineFinding?_add d x.1 x.2 _

/-- **The findings of a content, line by line.** -/
theorem execFindings_eq (d : Denylist) (content : Text) : execFindings d content =
    (Text.lines content).zipIdx.flatMap fun (line, n) => (execFindings d line).map (Finding.down n) := by
  have hzero : ∀ fs : List Finding, fs.map (Finding.down 0) = fs := fun fs => by
    rw [funext Finding.down_zero, List.map_id']
  induction content using Text.lines_induction with
  | line t h =>
    rw [Text.lines_of_notMem h, List.zipIdx_singleton, List.flatMap_singleton]
    exact (hzero _).symm
  | append first rest h ih =>
    rw [execFindings_append, List.count_eq_zero_of_not_mem h, ih, Text.lines_cons h, List.zipIdx_cons',
      List.flatMap_cons, List.flatMap_map, List.map_flatMap]
    refine congrArg₂ (· ++ ·) (hzero _).symm (congrArg (List.flatMap · _) (funext fun x => ?_))
    rw [List.map_map]
    exact List.map_congr_left fun f _ => f.down_down x.2 1

/-! ## URLs -/

/-- **URLs of two contents** with something between them that stands in no URL, such as a line feed. -/
theorem urls_append {c : CodePoint} (h : isUrlChar c = false) (a b : Text) :
    urls (a ++ c :: b) = urls a ++ urls b := by
  rw [urls_eq_map, wholeUrls_append_cons h, List.map_append, ← urls_eq_map, ← urls_eq_map]

theorem urls_eq (content : Text) : urls content = (Text.lines content).flatMap urls := by
  induction content using Text.lines_induction with
  | line t h => rw [Text.lines_of_notMem h, List.flatMap_singleton]
  | append first rest h ih => rw [urls_append rfl, ih, Text.lines_cons h, List.flatMap_cons]

/-! ## Both -/

/-- **A search goes line by line.** What is found in two contents with a line feed between them is what is found in
the first one and then what is found in the second one, with the findings of the latter as many lines further down as
the first one has. Hence what is found in a content is what is found in its lines, one after the other. -/
theorem search_append (d : Denylist) (a b : Text) :
    execFindings d (a ++ Text.newline :: b) =
        execFindings d a ++ (execFindings d b).map (Finding.down (1 + a.count Text.newline)) ∧
      urls (a ++ Text.newline :: b) = urls a ++ urls b ∧
      ∀ content, search d content =
        ((Text.lines content).zipIdx.flatMap fun (line, n) => (search d line).1.map (Finding.down n),
          (Text.lines content).flatMap fun line => (search d line).2) := by
  refine ⟨execFindings_append d a b, urls_append rfl a b, fun content => Prod.ext ?_ ?_⟩
  · exact execFindings_eq d content
  · exact urls_eq content

end Detect

end ExtensionAudit
