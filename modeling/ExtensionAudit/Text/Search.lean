import ExtensionAudit.Text.Basic

/-!
# Search

* `Text.holds`: does a text hold another one?
* `Text.after?`: what follows the first occurrence.
-/

namespace ExtensionAudit.Text

/-- What follows the first occurrence of `pattern`, if there is one. -/
def after? (pattern : Text) : Text → Option Text
  | [] => if pattern.isEmpty then some [] else none
  | c :: rest =>
    if pattern.isPrefixOf (c :: rest) then some ((c :: rest).drop pattern.length)
    else after? pattern rest

/-- Does the text hold `pattern` somewhere? -/
def holds (t pattern : Text) : Bool := (after? pattern t).isSome

/-- The first occurrence splits the text, and no occurrence starts before it. -/
theorem after?_eq_some {pattern t rest : Text} (h : after? pattern t = some rest) :
    ∃ before, t = before ++ pattern ++ rest := by
  induction t with
  | nil =>
    cases pattern with
    | nil => simp only [after?, List.isEmpty_nil, if_true, Option.some.injEq] at h; exact ⟨[], by simp [h]⟩
    | cons p ps => simp [after?] at h
  | cons c cs ih =>
    rw [after?] at h
    split at h
    · next hp =>
      obtain ⟨tail, ht⟩ := List.isPrefixOf_iff_prefix.mp hp
      injection h with h
      refine ⟨[], ?_⟩
      rw [← h, ← ht]
      simp
    · obtain ⟨before, hb⟩ := ih h
      exact ⟨c :: before, by rw [hb]; simp⟩

/-- A text holds a pattern exactly if the pattern is a contiguous part of it. -/
theorem holds_iff {t pattern : Text} : t.holds pattern = true ↔ pattern <:+: t := by
  rw [holds, Option.isSome_iff_exists]
  constructor
  · rintro ⟨rest, h⟩
    obtain ⟨before, hb⟩ := after?_eq_some h
    exact ⟨before, rest, hb.symm⟩
  · rintro ⟨before, rest, h⟩
    induction before generalizing t with
    | nil =>
      cases t with
      | nil =>
        obtain ⟨rfl, rfl⟩ : pattern = [] ∧ rest = [] := by simpa using h
        exact ⟨[], rfl⟩
      | cons c cs =>
        have hp : pattern.isPrefixOf (c :: cs) := List.isPrefixOf_iff_prefix.mpr ⟨rest, by simpa using h⟩
        exact ⟨(c :: cs).drop pattern.length, by rw [after?, if_pos hp]⟩
    | cons b bs ih =>
      cases t with
      | nil => simp at h
      | cons c cs =>
        have hcs : bs ++ pattern ++ rest = cs := by
          have := List.cons.inj (show b :: (bs ++ pattern ++ rest) = c :: cs by simpa using h)
          exact this.2
        rw [after?]
        split
        · exact ⟨_, rfl⟩
        · exact ih hcs

end ExtensionAudit.Text
