import Mathlib
import ExtensionAudit.Proofs.Utf8
import ExtensionAudit.Text.Lines

/-!
# Line endings

A text can be written with line feeds, with a carriage return in front of some of them, or with carriage returns in
their place. Unifying the line endings gives the text back.

* `Text.unifyNewlines_cons`, `Text.unifyNewlines_returnFeed`, `Text.unifyNewlines_return`: one line ending after the
  other;
* `Text.ReturnFeeds`, `Text.returns`, `Text.LineEndings`: the ways to write the line endings of a text;
* **`Text.LineEndings.unifyNewlines_eq`**: all of them are unified to the same text.
-/

namespace ExtensionAudit.Text

variable {t t' : Text}

/-! ## Unifying -/

theorem Unifier.reversed_foldl_step (r : Text) (a : Bool) (t : Text) :
    (t.foldl Unifier.step ⟨r, a⟩).reversed = (t.foldl Unifier.step ⟨[], a⟩).reversed ++ r := by
  induction t generalizing r a with
  | nil => rfl
  | cons c t ih =>
    have hstep : ∃ out after, ∀ r, Unifier.step ⟨r, a⟩ c = ⟨out ++ r, after⟩ := by
      unfold Unifier.step
      split
      · exact ⟨[newline], true, fun _ => rfl⟩
      · by_cases hc : c = newline ∧ a = true
        · exact ⟨[], false, fun _ => if_pos hc⟩
        · exact ⟨[c], false, fun _ => if_neg hc⟩
    obtain ⟨out, after, hstep⟩ := hstep
    rw [List.foldl_cons, List.foldl_cons, hstep, hstep, ih, ih (out ++ []), List.append_nil, List.append_assoc]

theorem unifyNewlines_nil : unifyNewlines [] = [] := rfl

theorem unifyNewlines_cons {c : CodePoint} (h : c ≠ carriageReturn) (t : Text) :
    unifyNewlines (c :: t) = c :: unifyNewlines t := by
  have hstep : Unifier.step {} c = ⟨[c], false⟩ := by
    rw [Unifier.step, if_neg h, if_neg (by simp)]
  rw [unifyNewlines, List.foldl_cons, hstep, Unifier.reversed_foldl_step, List.reverse_append]
  rfl

theorem unifyNewlines_returnFeed (t : Text) :
    unifyNewlines (carriageReturn :: newline :: t) = newline :: unifyNewlines t := by
  have hstep : Unifier.step (Unifier.step {} carriageReturn) newline = ⟨[newline], false⟩ := rfl
  rw [unifyNewlines, List.foldl_cons, List.foldl_cons, hstep, Unifier.reversed_foldl_step, List.reverse_append]
  rfl

theorem unifyNewlines_return (h : t.head? ≠ some newline) :
    unifyNewlines (carriageReturn :: t) = newline :: unifyNewlines t := by
  -- with no line feed behind it, the carriage return is as good as a line feed
  have hafter : t.foldl Unifier.step ⟨[newline], true⟩ = t.foldl Unifier.step ⟨[newline], false⟩ ∨ t = [] := by
    cases t with
    | nil => exact Or.inr rfl
    | cons c t =>
      have hc : c ≠ newline := fun he => h (congrArg some he)
      have hstep : Unifier.step ⟨[newline], true⟩ c = Unifier.step ⟨[newline], false⟩ c := by
        simp only [Unifier.step, hc, false_and, if_false]
      exact Or.inl (by rw [List.foldl_cons, List.foldl_cons, hstep])
  rcases hafter with hafter | rfl
  · rw [unifyNewlines, List.foldl_cons,
      show Unifier.step {} carriageReturn = ⟨[newline], true⟩ from rfl, hafter, Unifier.reversed_foldl_step,
      List.reverse_append]
    rfl
  · rfl

/-! ## The ways to write line endings -/

/-- **A text with a carriage return in front of some of its line feeds.** -/
inductive ReturnFeeds : Text → Text → Prop where
  | nil : ReturnFeeds [] []
  | cons (c : CodePoint) {t t' : Text} (h : ReturnFeeds t t') : ReturnFeeds (c :: t) (c :: t')
  | feed {t t' : Text} (h : ReturnFeeds t t') : ReturnFeeds (newline :: t) (carriageReturn :: newline :: t')

/-- The text with carriage returns in place of its line feeds. -/
def returns (t : Text) : Text := t.map fun c => if c = newline then carriageReturn else c

/-- **The ways to write the line endings of a text.** -/
inductive LineEndings (t : Text) : Text → Prop where
  | feeds : LineEndings t t
  | returnFeeds {t' : Text} (h : ReturnFeeds t t') : LineEndings t t'
  | returns : LineEndings t (returns t)

theorem ReturnFeeds.refl (t : Text) : ReturnFeeds t t := by
  induction t with
  | nil => exact .nil
  | cons c t ih => exact .cons c ih

theorem ReturnFeeds.mem (h : ReturnFeeds t t') {c : CodePoint} (hc : c ∈ t') : c ∈ t ∨ c = carriageReturn := by
  induction h with
  | nil => exact Or.inl hc
  | cons a _ ih =>
    rcases List.mem_cons.mp hc with rfl | hc
    · exact Or.inl (List.mem_cons_self ..)
    · exact (ih hc).imp_left (List.mem_cons_of_mem _)
  | feed _ ih =>
    rcases List.mem_cons.mp hc with rfl | hc
    · exact Or.inr rfl
    rcases List.mem_cons.mp hc with rfl | hc
    · exact Or.inl (List.mem_cons_self ..)
    · exact (ih hc).imp_left (List.mem_cons_of_mem _)

theorem LineEndings.mem (h : LineEndings t t') {c : CodePoint} (hc : c ∈ t') : c ∈ t ∨ c = carriageReturn := by
  cases h with
  | feeds => exact Or.inl hc
  | returnFeeds h => exact h.mem hc
  | returns =>
    obtain ⟨a, ha, rfl⟩ := List.mem_map.mp hc
    split
    · exact Or.inr rfl
    · exact Or.inl ha

theorem LineEndings.isEncodable (h : LineEndings t t') (ht : t.isEncodable = true) : t'.isEncodable = true := by
  rw [isEncodable_iff] at ht ⊢
  intro c hc
  rcases h.mem hc with hc | rfl
  · exact ht c hc
  · rfl

theorem ReturnFeeds.unifyNewlines_eq (h : ReturnFeeds t t') (hr : carriageReturn ∉ t) : unifyNewlines t' = t := by
  induction h with
  | nil => exact unifyNewlines_nil
  | cons c _ ih =>
    rw [List.mem_cons, not_or] at hr
    rw [unifyNewlines_cons (Ne.symm hr.1), ih hr.2]
  | feed _ ih =>
    rw [List.mem_cons, not_or] at hr
    rw [unifyNewlines_returnFeed, ih hr.2]

theorem head?_returns (t : Text) : (returns t).head? ≠ some newline := by
  intro h
  obtain ⟨c, -, hc⟩ : ∃ c ∈ t.head?, (if c = newline then carriageReturn else c) = newline := by
    simpa [returns, List.head?_map] using h
  split at hc
  · exact absurd hc (by decide)
  · next hne => exact hne hc

theorem unifyNewlines_returns (hr : carriageReturn ∉ t) : unifyNewlines (returns t) = t := by
  induction t with
  | nil => exact unifyNewlines_nil
  | cons c t ih =>
    rw [List.mem_cons, not_or] at hr
    by_cases hc : c = newline
    · rw [hc, show returns (newline :: t) = carriageReturn :: returns t from rfl,
        unifyNewlines_return (head?_returns t), ih hr.2]
    · have hreturns : returns (c :: t) = c :: returns t := congrArg (· :: returns t) (if_neg hc)
      rw [hreturns, unifyNewlines_cons (Ne.symm hr.1), ih hr.2]

/-- **Unified line endings do not depend on how they were written.** -/
theorem LineEndings.unifyNewlines_eq (h : LineEndings t t') (hr : carriageReturn ∉ t) : unifyNewlines t' = t := by
  cases h with
  | feeds => exact (ReturnFeeds.refl t).unifyNewlines_eq hr
  | returnFeeds h => exact h.unifyNewlines_eq hr
  | returns => exact unifyNewlines_returns hr

end ExtensionAudit.Text
