import ExtensionAudit.Text.Basic

/-!
# Lines

* `Text.lines`: the pieces between line feeds;
* `Text.unifyNewlines`: every line ending becomes a line feed.
-/

namespace ExtensionAudit.Text

/-- The pieces between line feeds. There is one more of them than there are line feeds. -/
def lines (t : Text) : List Text := t.splitOnP (· == newline)

@[simp]
theorem lines_nil : lines [] = [[]] := List.splitOnP_nil

/-- Lines of a text joined by a line feed are the lines of its two parts. -/
theorem lines_append_newline (a b : Text) : lines (a ++ newline :: b) = lines a ++ lines b :=
  List.splitOnP_append_cons _ _ (beq_self_eq_true _)

def carriageReturn : CodePoint := CodePoint.ofChar '\r'

/-- The state of the unification of line endings: the text so far, last code point first, and whether the
code point before was a carriage return. -/
structure Unifier where
  reversed : Text := []
  afterReturn : Bool := false

/-- A carriage return becomes a line feed, and a line feed right after one is dropped. -/
def Unifier.step (u : Unifier) (c : CodePoint) : Unifier :=
  if c = carriageReturn then ⟨newline :: u.reversed, true⟩
  else if c = newline ∧ u.afterReturn then ⟨u.reversed, false⟩
  else ⟨c :: u.reversed, false⟩

/-- The text with each line ending, be it a carriage return with a line feed, a carriage return or a line
feed, written as one line feed. -/
def unifyNewlines (t : Text) : Text := (t.foldl Unifier.step {}).reversed.reverse

end ExtensionAudit.Text
