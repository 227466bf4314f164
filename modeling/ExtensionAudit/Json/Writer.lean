import ExtensionAudit.Failure
import ExtensionAudit.Json.Numeral

/-!
# Writing JSON

A document is written in ASCII, with an item or member on each line and two spaces more for each level.

* `Json.escaped`: a string in quotes; what is not ASCII is written by its number, in sixteen-bit units;
* `Json.pretty`: the document of a value;
* `Json.cut`, `Json.dump`: what is written of a value if integers have a greatest number of digits.
-/

namespace ExtensionAudit.Json

/-- An escape by number. -/
def numericEscape (n : Nat) : Text := text "\\u" ++ Text.hex 4 n

/-- The short escape of a code point. A slash is written as it is. -/
def shortEscapeOf? (c : CodePoint) : Option CodePoint :=
  (shortEscapes.find? fun e => e.1 ≠ '/' ∧ CodePoint.ofChar e.2 = c).map fun e => CodePoint.ofChar e.1

/-- One code point of a string. -/
def escapedPoint (c : CodePoint) : Text :=
  let n := c.toNat
  match shortEscapeOf? c with
  | some letter => [Text.backslash, letter]
  | none =>
    if 0x20 ≤ n ∧ n ≤ 0x7E then [c]
    else if n < 0x10000 then numericEscape n
    else
      numericEscape (0xD800 + (n - 0x10000) / 0x400) ++ numericEscape (0xDC00 + (n - 0x10000) % 0x400)

/-- A string in quotes. -/
def escaped (t : Text) : Text := quote :: t.flatMap escapedPoint ++ [quote]

/-- A line end and the indentation of a level. -/
def indentation (level : Nat) : Text :=
  Text.newline :: List.replicate (2 * level) (CodePoint.ofChar ' ')

mutual

/-- A value whose first line stands at some place of a line of the given level. -/
def write (level : Nat) : Json → Text
  | .null => text "null"
  | .bool b => text (if b then "true" else "false")
  | .integer n => Text.ofInt n
  | .real r => realText "Infinity" "NaN" r
  | .string s => escaped s
  | .array [] => text "[]"
  | .array (item :: items) =>
    CodePoint.ofChar '[' :: indentation (level + 1) ++ write (level + 1) item
      ++ writeItems (level + 1) items ++ indentation level ++ [CodePoint.ofChar ']']
  | .object [] => [CodePoint.ofChar '{', CodePoint.ofChar '}']
  | .object ((name, value) :: members) =>
    CodePoint.ofChar '{' :: indentation (level + 1) ++ escaped name ++ text ": "
      ++ write (level + 1) value ++ writeMembers (level + 1) members
      ++ indentation level ++ [CodePoint.ofChar '}']

/-- The further items of an array, each after a comma on a line of its own. -/
def writeItems (level : Nat) : List Json → Text
  | [] => []
  | item :: items =>
    CodePoint.ofChar ',' :: indentation level ++ write level item ++ writeItems level items

/-- The further members of an object. -/
def writeMembers (level : Nat) : List (Text × Json) → Text
  | [] => []
  | (name, value) :: members =>
    CodePoint.ofChar ',' :: indentation level ++ escaped name ++ text ": " ++ write level value
      ++ writeMembers level members

end

/-- The document of a value, without a line end after it. -/
def pretty (value : Json) : Text := write 0 value

/-! ## Integers that are too long -/

/-- What is written in front of an item of an array that is written in part: the bracket or comma before a
number waits for its digits. -/
def heldBack (separator : Text) : Json → Text
  | .integer _ => []
  | _ => separator

mutual

/-- What is written of a value before its first integer with too many digits, if there is one. -/
def cut (limit : Option Nat) (level : Nat) : Json → Option Text
  | .null | .bool _ | .real _ | .string _ | .array [] | .object [] => none
  | .integer n => if allowsDigits limit (Text.ofNat n.natAbs).length then none else some []
  | .array (item :: items) =>
    let opening := CodePoint.ofChar '[' :: indentation (level + 1)
    match cut limit (level + 1) item with
    | some t => some (heldBack opening item ++ t)
    | none => (cutItems limit (level + 1) items).map (opening ++ write (level + 1) item ++ ·)
  | .object ((name, value) :: members) =>
    let opening := CodePoint.ofChar '{' :: indentation (level + 1) ++ escaped name ++ text ": "
    match cut limit (level + 1) value with
    | some t => some (opening ++ t)
    | none => (cutMembers limit (level + 1) members).map (opening ++ write (level + 1) value ++ ·)

/-- What is written of the further items of an array. -/
def cutItems (limit : Option Nat) (level : Nat) : List Json → Option Text
  | [] => none
  | item :: items =>
    let separator := CodePoint.ofChar ',' :: indentation level
    match cut limit level item with
    | some t => some (heldBack separator item ++ t)
    | none => (cutItems limit level items).map (separator ++ write level item ++ ·)

/-- What is written of the further members of an object. -/
def cutMembers (limit : Option Nat) (level : Nat) : List (Text × Json) → Option Text
  | [] => none
  | (name, value) :: members =>
    let separator := CodePoint.ofChar ',' :: indentation level ++ escaped name ++ text ": "
    match cut limit level value with
    | some t => some (separator ++ t)
    | none => (cutMembers limit level members).map (separator ++ write level value ++ ·)

end

/-- The text that is written of a value, and the failure that ends the writing. -/
def dump (limit : Option Nat) (value : Json) : Text × Except Failure Unit :=
  match value.cut limit 0 with
  | none => (value.pretty, .ok ())
  | some t => (t, .error (.tooManyDigits (limit.getD 0)))

end ExtensionAudit.Json
