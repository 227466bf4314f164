import Mathlib
import ExtensionAudit.Text.Lines

/-!
# The lines of a text

A text that is put together from parts with line feeds between them has the lines of its parts.

* `Text.of_mem_splitOnP`: what stands in a piece of a text;
* `Text.lines_append`, `Text.lines_joinLines`: the lines of a label with a text behind it, and of joined lines;
* `Text.lines_induction`, `Text.length_lines`: texts line by line;
* `Text.mem_unifyNewlines`: what stands in a text with unified line endings.
-/

namespace ExtensionAudit.Text

theorem of_mem_splitOnP {p : CodePoint → Bool} {t piece : Text} (h : piece ∈ t.splitOnP p) :
    ∀ c ∈ piece, p c = false ∧ c ∈ t := by
  induction t generalizing piece with
  | nil =>
    rw [List.splitOnP_nil, List.mem_singleton] at h
    simp [h]
  | cons a t ih =>
    have later : ∀ piece ∈ t.splitOnP p, ∀ c ∈ piece, p c = false ∧ c ∈ a :: t :=
      fun q hq c hc => ⟨(ih hq c hc).1, List.mem_cons_of_mem _ (ih hq c hc).2⟩
    rw [List.splitOnP_cons_eq_if_modifyHead] at h
    split at h
    · rcases List.mem_cons.mp h with rfl | h
      · simp
      · exact later piece h
    · next ha =>
      obtain ⟨first, rest, hs⟩ := List.exists_cons_of_ne_nil (List.splitOnP_ne_nil p t)
      rw [hs] at h later
      rw [List.modifyHead_cons] at h
      rcases List.mem_cons.mp h with rfl | h
      · intro c hc
        rcases List.mem_cons.mp hc with rfl | hc
        · exact ⟨by simpa using ha, List.mem_cons_self ..⟩
        · exact later first (List.mem_cons_self ..) c hc
      · exact later piece (List.mem_cons_of_mem _ h)

theorem of_mem_lines {t line : Text} (h : line ∈ lines t) : newline ∉ line ∧ ∀ c ∈ line, c ∈ t :=
  ⟨fun hn => by simpa using (of_mem_splitOnP h _ hn).1, fun c hc => (of_mem_splitOnP h c hc).2⟩

theorem lines_ne_nil (t : Text) : lines t ≠ [] := List.splitOnP_ne_nil _ t

theorem lines_of_notMem {t : Text} (h : newline ∉ t) : lines t = [t] :=
  List.splitOnP_eq_singleton fun c hc => by simpa using fun e : c = newline => h (e ▸ hc)

theorem lines_append {label : Text} (h : newline ∉ label) (t : Text) :
    lines (label ++ t) = (label ++ (lines t).headI) :: (lines t).tail := by
  induction label with
  | nil =>
    obtain ⟨first, rest, hs⟩ := List.exists_cons_of_ne_nil (lines_ne_nil t)
    simp [hs]
  | cons c label ih =>
    rw [List.mem_cons, not_or] at h
    rw [List.cons_append, lines, List.splitOnP_cons_eq_if_modifyHead, if_neg (by simpa using Ne.symm h.1)]
    show (lines (label ++ t)).modifyHead _ = _
    rw [ih h.2]
    rfl

theorem lines_joinLines {ls : List Text} (h : ∀ l ∈ ls, newline ∉ l) :
    lines (joinLines ls) = if ls = [] then [[]] else ls := by
  split
  · next he => rw [he]; exact lines_nil
  · next hne => exact List.splitOn_intercalate newline h hne

/-! ## Line by line -/

theorem lines_cons {first : Text} (h : newline ∉ first) (rest : Text) :
    lines (first ++ newline :: rest) = first :: lines rest := by
  rw [lines_append_newline, lines_of_notMem h, List.singleton_append]

/-- **Induction line by line**: a text is one line, or it is a line with a text behind its line feed. -/
theorem lines_induction {motive : Text → Prop} (line : ∀ t, newline ∉ t → motive t)
    (append : ∀ first rest, newline ∉ first → motive rest → motive (first ++ newline :: rest)) (t : Text) :
    motive t := by
  induction hn : t.length using Nat.strong_induction_on generalizing t with
  | _ n ih =>
    by_cases h : newline ∈ t
    · obtain ⟨first, rest, rfl, hfirst⟩ := List.eq_append_cons_of_mem h
      have hlt : rest.length < n := by
        rw [← hn, List.length_append, List.length_cons]
        omega
      exact append first rest hfirst (ih rest.length hlt rest rfl)
    · exact line t h

theorem length_lines (t : Text) : (lines t).length = 1 + t.count newline := by
  induction t using lines_induction with
  | line t h => rw [lines_of_notMem h, List.count_eq_zero_of_not_mem h, List.length_singleton]
  | append first rest h ih =>
    rw [lines_cons h, List.length_cons, ih, List.count_append, List.count_eq_zero_of_not_mem h, List.count_cons_self]
    omega

/-! ## Line endings -/

theorem mem_unifyNewlines {t : Text} {c : CodePoint} (h : c ∈ unifyNewlines t) : c ∈ t ∨ c = newline := by
  have key : ∀ (t : Text) (u : Unifier), c ∈ (t.foldl Unifier.step u).reversed →
      c ∈ u.reversed ∨ c ∈ t ∨ c = newline := by
    intro t
    induction t with
    | nil => exact fun u hc => Or.inl hc
    | cons a t ih =>
      intro u hc
      have hstep : ∀ d ∈ (u.step a).reversed, d ∈ u.reversed ∨ d = a ∨ d = newline := by
        intro d hd
        unfold Unifier.step at hd
        split at hd
        · rcases List.mem_cons.mp hd with rfl | hd
          · exact Or.inr (Or.inr rfl)
          · exact Or.inl hd
        · split at hd
          · exact Or.inl hd
          · rcases List.mem_cons.mp hd with rfl | hd
            · exact Or.inr (Or.inl rfl)
            · exact Or.inl hd
      rcases ih (u.step a) hc with hc | hc | hc
      · rcases hstep c hc with hc | rfl | hc
        · exact Or.inl hc
        · exact Or.inr (Or.inl (List.mem_cons_self ..))
        · exact Or.inr (Or.inr hc)
      · exact Or.inr (Or.inl (List.mem_cons_of_mem _ hc))
      · exact Or.inr (Or.inr hc)
  rw [unifyNewlines, List.mem_reverse] at h
  simpa using key t {} h

end ExtensionAudit.Text
