import ExtensionAudit.Text.Basic

/-!
# JSON values

* `Json`: a value; an object keeps its members in order;
* `Json.Real`: a number that is not written as an integer, as it is written. The three numbers that no
  digits denote have names of their own;
* `Json.allowsDigits`: how many digits an integer may have.
-/

namespace ExtensionAudit

/-- A number with a fraction or an exponent: `digits * 10 ^ exponent`, an infinity, or no number. -/
inductive Json.Real where
  | finite (negative : Bool) (digits : Nat) (exponent : Int)
  | infinite (negative : Bool)
  | undefined
deriving DecidableEq

/-- A JSON value. -/
inductive Json where
  | null
  | bool (value : Bool)
  | integer (value : Int)
  | real (value : Json.Real)
  | string (value : Text)
  | array (items : List Json)
  | object (members : List (Text × Json))

namespace Json

/-- White space between the tokens of a document. -/
def isBlank (c : CodePoint) : Bool :=
  c.toNat == 0x20 || c.toNat == 0x9 || c.toNat == 0xA || c.toNat == 0xD

/-- The letter after a backslash and the character it stands for. -/
def shortEscapes : List (Char × Char) :=
  [(Char.ofNat 0x22, Char.ofNat 0x22), ('\\', '\\'), ('/', '/'), ('b', Char.ofNat 0x08),
    ('f', Char.ofNat 0x0C), ('n', '\n'), ('r', '\r'), ('t', '\t')]

/-- The double quote. -/
def quote : CodePoint := CodePoint.ofChar (Char.ofNat 0x22)

/-- The greatest number of digits of an integer, unless another limit is given. -/
def maxIntegerDigits : Nat := 4300

/-- Does a limit allow so many digits? Without one there may be any number of them. -/
def allowsDigits (limit : Option Nat) (digits : Nat) : Bool := limit.all (digits ≤ ·)

end Json

end ExtensionAudit
