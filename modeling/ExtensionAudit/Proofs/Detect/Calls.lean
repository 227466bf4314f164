import Mathlib
import ExtensionAudit.Proofs.Detect

/-!
# Which calls are found

A search goes through a line from left to right and takes as few characters as it can for the argument of a call. What
it finds is the first opening of a call with all that stands before the first closing parenthesis behind it, because
an opening with nothing that closes it has none behind it that is closed either.

* `Text.after?_eq_some_iff`: the first occurrence of a pattern;
* `Detect.IsCall`, `Detect.IsFound`: the calls of a line, and the one that a search finds;
* **`Detect.argument?_eq_some_iff`**: the argument of the first call is that of the call found;
* `Detect.isFound_iff`: the call found, by its opening and its end alone;
* **`Detect.execFindings_exact`**: the findings of a content.
-/

namespace ExtensionAudit

/-- **The first occurrence** of a pattern: no other one starts before it. -/
theorem Text.after?_eq_some_iff {pattern t rest : Text} : after? pattern t = some rest ↔
    ∃ before, t = before ++ pattern ++ rest ∧ ∀ b, b ++ pattern <+: t → before.length ≤ b.length := by
  induction t with
  | nil =>
    cases pattern with
    | nil => simp [after?, eq_comm]
    | cons p ps => simp [after?]
  | cons c t ih =>
    by_cases hp : pattern <+: c :: t
    · obtain ⟨tail, ht⟩ := hp
      rw [after?, if_pos (List.isPrefixOf_iff_prefix.mpr ⟨tail, ht⟩), Option.some.injEq]
      constructor
      · rintro rfl
        exact ⟨[], by rw [← ht]; simp, fun b _ => Nat.zero_le _⟩
      · rintro ⟨before, hb, hfirst⟩
        obtain rfl : before = [] := List.length_eq_zero_iff.mp (Nat.le_zero.mp (hfirst [] ⟨tail, ht⟩))
        rw [hb]
        simp
    · rw [after?, if_neg (mt List.isPrefixOf_iff_prefix.mp hp), ih]
      constructor
      · rintro ⟨before, rfl, hfirst⟩
        refine ⟨c :: before, by simp, fun b hb => ?_⟩
        cases b with
        | nil => exact absurd hb hp
        | cons d b =>
          rw [List.cons_append, List.cons_prefix_cons] at hb
          exact Nat.succ_le_succ (hfirst b hb.2)
      · rintro ⟨before, hb, hfirst⟩
        cases before with
        | nil => exact absurd ⟨rest, by simpa using hb.symm⟩ hp
        | cons d before =>
          rw [List.cons_append, List.cons_append, List.cons.injEq] at hb
          refine ⟨before, hb.2, fun b hbt => Nat.le_of_succ_le_succ (hfirst (c :: b) ?_)⟩
          rw [List.cons_append, List.cons_prefix_cons]
          exact ⟨rfl, hbt⟩

namespace Detect

variable {line before code after : Text}

/-! ## Calls of a line -/

/-- A call in a line: what stands before it, its argument and what stands behind it. The argument may be any text. -/
def IsCall (line before code after : Text) : Prop := line = before ++ callOpening ++ code ++ callClosing :: after

/-- **The call that a search finds**: none starts before it, and none that starts where it does has a shorter
argument. -/
structure IsFound (line before code after : Text) : Prop where
  isCall : IsCall line before code after
  leftmost : ∀ b c a, IsCall line b c a → before.length ≤ b.length
  shortest : ∀ b c a, IsCall line b c a → b.length = before.length → code.length ≤ c.length

/-- **The call found, by its opening and its end alone**: the opening is the first one of the line, and nothing closes
the call before its end. -/
theorem isFound_iff : IsFound line before code after ↔ IsCall line before code after ∧ callClosing ∉ code ∧
    ∀ b, b ++ callOpening <+: line → before.length ≤ b.length := by
  constructor
  · intro h
    have hcall : line = before ++ callOpening ++ code ++ callClosing :: after := h.isCall
    refine ⟨h.isCall, fun hm => ?_, fun b hb => ?_⟩
    · -- a shorter argument would end at the parenthesis
      obtain ⟨c, rest, rfl⟩ := List.append_of_mem hm
      have hle := h.shortest before c (rest ++ callClosing :: after) (by rw [IsCall, hcall]; simp) rfl
      simp at hle
    · -- the parenthesis that closes the call closes every call that is opened before it
      by_contra hlt
      obtain ⟨rest, hrest⟩ := hb
      have hlen : (b ++ callOpening).length ≤ (before ++ callOpening ++ code).length := by
        simp only [List.length_append]
        omega
      obtain ⟨c, hc⟩ : b ++ callOpening <+: before ++ callOpening ++ code :=
        List.prefix_of_prefix_length_le ⟨rest, hrest⟩ ⟨_, hcall.symm⟩ hlen
      exact hlt (h.leftmost b c after (by rw [IsCall, hcall, ← hc]))
  · rintro ⟨hcall, hclosing, hfirst⟩
    refine ⟨hcall, fun b c a h => hfirst b ⟨c ++ callClosing :: a, ?_⟩, fun b c a h hlen => ?_⟩
    · rw [show line = _ from h, List.append_assoc _ c]
    · rw [IsCall, hcall, List.append_assoc, List.append_assoc, List.append_assoc, List.append_assoc] at h
      obtain ⟨-, h⟩ := List.append_inj h hlen.symm
      have htail := List.append_cancel_left h
      -- the shorter one of two arguments ends at a parenthesis that the other one would hold
      by_contra hlt
      have hpre : c ++ [callClosing] <+: code :=
        List.prefix_of_prefix_length_le ⟨a, by rw [htail]; simp⟩ ⟨_, rfl⟩ (by simp; omega)
      exact hclosing (hpre.subset (by simp))

theorem IsFound.code_eq {before' code' after' : Text} (h : IsFound line before code after)
    (h' : IsFound line before' code' after') : code = code' := by
  have hlen : before.length = before'.length :=
    Nat.le_antisymm (h.leftmost _ _ _ h'.isCall) (h'.leftmost _ _ _ h.isCall)
  have hcode : code.length = code'.length :=
    Nat.le_antisymm (h.shortest _ _ _ h'.isCall hlen.symm) (h'.shortest _ _ _ h.isCall hlen)
  have he := h'.isCall
  rw [IsCall, show line = _ from h.isCall, List.append_assoc, List.append_assoc, List.append_assoc,
    List.append_assoc] at he
  exact (List.append_inj (List.append_cancel_left (List.append_inj he hlen).2) hcode).1

theorem exists_isFound {rest : Text} (h : Text.after? callOpening line = some rest) (hm : callClosing ∈ rest) :
    ∃ before after, IsFound line before (rest.takeWhile (· != callClosing)) after := by
  obtain ⟨before, hline, hfirst⟩ := Text.after?_eq_some_iff.mp h
  obtain ⟨code, after, rfl, hcode⟩ := List.eq_append_cons_of_mem hm
  have htake : (code ++ callClosing :: after).takeWhile (· != callClosing) = code := by
    rw [List.takeWhile_append_of_pos fun c hc => by simpa using fun e : c = callClosing => hcode (e ▸ hc)]
    simp
  refine ⟨before, after, isFound_iff.mpr ⟨?_, by rwa [htake], hfirst⟩⟩
  rw [IsCall, htake, hline]
  simp only [List.append_assoc]

/-- **The argument of the first call** is the argument of the call that a search finds. -/
theorem argument?_eq_some_iff : argument? line = some code ↔ ∃ before after, IsFound line before code after := by
  unfold argument?
  constructor
  · intro h
    split at h
    · cases h
    · next rest hrest =>
      split at h
      · next hm =>
        cases h
        exact exists_isFound hrest hm
      · cases h
  · rintro ⟨before, after, h⟩
    obtain ⟨hcall, -, hfirst⟩ := isFound_iff.mp h
    have hrest : Text.after? callOpening line = some (code ++ callClosing :: after) :=
      Text.after?_eq_some_iff.mpr ⟨before, by rw [show line = _ from hcall, List.append_assoc _ code], hfirst⟩
    have hm : callClosing ∈ code ++ callClosing :: after := by simp
    obtain ⟨before', after', h'⟩ := exists_isFound hrest hm
    rw [hrest]
    simp only [hm, if_true]
    exact congrArg some (h'.code_eq h)

/-- A call in a call, and another one behind it. -/
example : argument? (text "exec(exec(rm -rf) exec(curl)") = some (text "exec(rm -rf") := by decide

/-! ## Findings -/

/-- **Findings stand in the order of their lines**, no two of them in the same line. -/
theorem pairwise_line_execFindings (d : Denylist) (content : Text) :
    (execFindings d content).Pairwise fun f g => f.line < g.line := by
  have hnumbers : ((Text.lines content).zipIdx 1).Pairwise fun a b => a.2 < b.2 := by
    rw [← List.pairwise_map (f := Prod.snd) (R := (· < ·)), List.zipIdx_map_snd]
    exact List.pairwise_lt_range' 1
  rw [execFindings, List.pairwise_filterMap]
  refine hnumbers.imp ?_
  rintro ⟨line, n⟩ ⟨line', m⟩ hlt f hf g hg
  obtain ⟨_, -, -, rfl⟩ := lineFinding?_eq_some_iff.mp hf
  obtain ⟨_, -, -, rfl⟩ := lineFinding?_eq_some_iff.mp hg
  exact Int.ofNat_lt.mpr hlt

/-- **The findings of a content.** A line has a finding exactly if its first opening of a call is followed by a
closing parenthesis, and what stands between the two holds a command. The findings stand in the order of their lines,
at most one for each; no code holds a line feed or a closing parenthesis; and all are of the one kind there is, with
no path yet. -/
theorem execFindings_exact (d : Denylist) (content : Text) :
    (∀ (number : ℤ) (code : Text), (∃ f ∈ execFindings d content, f.line = number ∧ f.code = code) ↔
      ∃ (n : ℕ) (line before after : Text), number = n + 1 ∧ (Text.lines content)[n]? = some line ∧
        line = before ++ text "exec(" ++ code ++ text ")" ++ after ∧ callClosing ∉ code ∧
        (∀ b, b ++ text "exec(" <+: line → before.length ≤ b.length) ∧
        ∃ command ∈ d.commands, command <:+: code) ∧
      ((execFindings d content).Pairwise fun f g => f.line < g.line) ∧
      ∀ f ∈ execFindings d content, Text.newline ∉ f.code ∧ callClosing ∉ f.code ∧ f.kind = execKind ∧ f.path = [] := by
  refine ⟨fun number code => ?_, pairwise_line_execFindings d content, fun f hf => ?_⟩
  · constructor
    · rintro ⟨f, hf, rfl, rfl⟩
      obtain ⟨n, line, hline, hf⟩ := mem_execFindings.mp hf
      obtain ⟨code, hcode, hhit, rfl⟩ := lineFinding?_eq_some_iff.mp hf
      obtain ⟨before, after, hfound⟩ := argument?_eq_some_iff.mp hcode
      obtain ⟨hcall, hclosing, hfirst⟩ := isFound_iff.mp hfound
      exact ⟨n, line, before, after, rfl, hline, by rw [List.append_assoc _ (text ")")]; exact hcall, hclosing,
        hfirst, hhit⟩
    · rintro ⟨n, line, before, after, rfl, hline, hcall, hclosing, hfirst, hhit⟩
      have hfound : IsFound line before code after :=
        isFound_iff.mpr ⟨by rw [IsCall, hcall, List.append_assoc _ (text ")")]; rfl, hclosing, hfirst⟩
      have hcode : argument? line = some code := argument?_eq_some_iff.mpr ⟨before, after, hfound⟩
      exact ⟨_, mem_execFindings.mpr ⟨n, line, hline, lineFinding?_eq_some_iff.mpr ⟨code, hcode, hhit, rfl⟩⟩, rfl, rfl⟩
  · obtain ⟨hcode, hkind⟩ := isCode_of_mem_execFindings hf
    obtain ⟨n, line, -, hf⟩ := mem_execFindings.mp hf
    obtain ⟨code, -, -, rfl⟩ := lineFinding?_eq_some_iff.mp hf
    exact ⟨hcode.newline_notMem, hcode.closing_notMem, hkind, rfl⟩

end Detect

end ExtensionAudit
