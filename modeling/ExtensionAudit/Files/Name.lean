import ExtensionAudit.Text.Utf8

/-!
# File names

* `FileName`: a name of one entry of a directory, compared by code points;
* `Location`: the names that lead from the root to an entry, links resolved.
-/

namespace ExtensionAudit

/-- The greatest number of bytes of a name. -/
def maxNameBytes : Nat := 255

/-- The number of bytes from which on a path is too long to be looked up. -/
def maxPathBytes : Nat := 4096

/-- The slash, which separates the names of a path. -/
def slash : CodePoint := CodePoint.ofChar '/'

/-- The code point that no path may hold. -/
def nul : CodePoint := CodePoint.ofChar (Char.ofNat 0)

/-- Can a directory have an entry of this name? The two names of every directory for itself and for its
parent are no entries. -/
def IsFileName (t : Text) : Prop :=
  t ≠ [] ∧ t ≠ text "." ∧ t ≠ text ".." ∧ slash ∉ t ∧ nul ∉ t ∧ t.isEncodable
    ∧ Utf8.size t ≤ maxNameBytes

instance (t : Text) : Decidable (IsFileName t) := by unfold IsFileName; infer_instance

/-- The name of an entry of a directory. -/
structure FileName where
  text : Text
  valid : IsFileName text
deriving DecidableEq

namespace FileName

/-- The name with a given text, if it is one. -/
def ofText? (t : Text) : Option FileName := if h : IsFileName t then some ⟨t, h⟩ else none

/-- Names in the order of their code points. -/
def le (a b : FileName) : Bool := decide (a.text ≤ b.text)

end FileName

/-- Where an entry lies: the names from the root down, none of them a link. -/
abbrev Location := List FileName

-- Named, so that a definition which compares locations refers to it and keeps no proof of its own.
instance : LawfulBEq Location := inferInstance

end ExtensionAudit
