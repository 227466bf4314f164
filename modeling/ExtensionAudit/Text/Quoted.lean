import ExtensionAudit.Text.Printable

/-!
# Quoted text

The quoted form shows a text on one line: what cannot be shown as it is becomes an escape.

* `Text.hex`: a number in a fixed number of hexadecimal digits;
* `Text.quoted`: the text between quotation marks.
-/

namespace ExtensionAudit.Text

def hexDigit (n : Nat) : CodePoint := CodePoint.ofChar (Nat.digitChar (n % 16))

def hex (width n : Nat) : Text :=
  (List.range width).reverse.map fun i => hexDigit (n / Nat.pow 16 i)

def backslash : CodePoint := CodePoint.ofChar '\\'

/-- The quotation mark around a text: an apostrophe, unless the text holds one and no double quote. -/
def quoteMark (t : Text) : CodePoint :=
  let apostrophe := CodePoint.ofChar (Char.ofNat 0x27)
  let double := CodePoint.ofChar (Char.ofNat 0x22)
  if apostrophe ∈ t ∧ double ∉ t then double else apostrophe

/-- One code point of a quoted text. The mark and the backslash are escaped, line ends and tabs have
short escapes, and an unprintable code point is given by its number. -/
def quotedPoint (mark c : CodePoint) : Text :=
  if c = mark ∨ c = backslash then [backslash, c]
  else if c = CodePoint.ofChar '\t' then text "\\t"
  else if c = CodePoint.ofChar '\n' then text "\\n"
  else if c = CodePoint.ofChar '\r' then text "\\r"
  else if c.isPrintable then [c]
  else if c.toNat < 0x100 then text "\\x" ++ hex 2 c.toNat
  else if c.toNat < 0x10000 then text "\\u" ++ hex 4 c.toNat
  else text "\\U" ++ hex 8 c.toNat

/-- The text between quotation marks, on one line. -/
def quoted (t : Text) : Text :=
  let mark := quoteMark t
  mark :: t.flatMap (quotedPoint mark) ++ [mark]

end ExtensionAudit.Text
