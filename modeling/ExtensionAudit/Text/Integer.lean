import ExtensionAudit.Text.Digit

/-!
# Integers in a setting

An integer is written as blanks, a sign, decimal digits of any scripts with single underscores between
them, and blanks. At most 4300 digits are read.

* `Text.trimBlanks`, `Text.decimal?`, `Text.integer?`.
-/

namespace ExtensionAudit.Text

/-- The greatest number of digits of an integer, leading zeros included. -/
def maxDigits : Nat := 4300

/-- The text without the blanks around it. -/
def trimBlanks (t : Text) : Text :=
  ((t.dropWhile CodePoint.isBlank).reverse.dropWhile CodePoint.isBlank).reverse

/-- The number that a list of digit values denotes. -/
def ofDigitValues (values : List Nat) : Nat := values.foldl (fun n d => n * 10 + d) 0

/-- The value of digits with single underscores between them. An underscore at an end, or two in a row,
leaves an empty group. -/
def decimal? (t : Text) : Option Nat :=
  let groups := t.splitOnP (· == CodePoint.ofChar '_')
  if groups.any List.isEmpty then none
  else do
    let values ← groups.flatten.mapM CodePoint.decimalValue?
    if values.length ≤ maxDigits then some (ofDigitValues values) else none

/-- The integer that a setting spells out. -/
def integer? (t : Text) : Option Int :=
  match trimBlanks t with
  | [] => none
  | c :: rest =>
    if c = CodePoint.ofChar '+' then (decimal? rest).map Int.ofNat
    else if c = CodePoint.ofChar '-' then (decimal? rest).map fun n => -Int.ofNat n
    else (decimal? (c :: rest)).map Int.ofNat

end ExtensionAudit.Text
