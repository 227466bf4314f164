/-!
# Text

Text is a list of Unicode code points. A surrogate is a code point too: a manifest can name one by
an escape, and such a text reaches every report.

* `CodePoint`, `Text`;
* `Text.ofString`, `Text.ofNat`, `Text.ofInt`: literals and numerals as text;
* `Text.startsWith`, `Text.endsWith`, `Text.joinLines`, `Text.dropTrailing`: affixes and lines.
-/

namespace ExtensionAudit

/-- A Unicode code point. Unlike `Char` it may be a surrogate. -/
structure CodePoint where
  toNat : Nat
  toNat_lt : toNat < 0x110000
deriving DecidableEq

namespace CodePoint

@[ext]
theorem ext {a b : CodePoint} (h : a.toNat = b.toNat) : a = b := by
  cases a; cases b; cases h; rfl

instance : LT CodePoint := ⟨fun a b => a.toNat < b.toNat⟩
instance : LE CodePoint := ⟨fun a b => a.toNat ≤ b.toNat⟩

instance (a b : CodePoint) : Decidable (a < b) := inferInstanceAs (Decidable (a.toNat < b.toNat))
instance (a b : CodePoint) : Decidable (a ≤ b) := inferInstanceAs (Decidable (a.toNat ≤ b.toNat))

def ofChar (c : Char) : CodePoint :=
  ⟨c.toNat, by
    have h : c.toNat.isValidChar := c.valid
    rcases h with h | h
    · exact Nat.lt_trans h (by decide)
    · exact h.2⟩

instance : Coe Char CodePoint := ⟨ofChar⟩
instance : Inhabited CodePoint := ⟨ofChar '\x00'⟩

@[simp]
theorem toNat_ofChar (c : Char) : (ofChar c).toNat = c.toNat := rfl

theorem ofChar_injective {a b : Char} (h : ofChar a = ofChar b) : a = b := by
  have : a.toNat = b.toNat := congrArg CodePoint.toNat h
  exact Char.toNat_inj.mp this

/-- The code point with a given number, if there is one. -/
def ofNat? (n : Nat) : Option CodePoint := if h : n < 0x110000 then some ⟨n, h⟩ else none

/-- The first half of a surrogate pair. -/
def isHighSurrogate (c : CodePoint) : Bool := 0xD800 ≤ c.toNat && c.toNat ≤ 0xDBFF

/-- The second half of a surrogate pair. -/
def isLowSurrogate (c : CodePoint) : Bool := 0xDC00 ≤ c.toNat && c.toNat ≤ 0xDFFF

/-- A surrogate stands for no character, and no encoding of text holds one. -/
def isSurrogate (c : CodePoint) : Bool := 0xD800 ≤ c.toNat && c.toNat ≤ 0xDFFF

/-- The code point beyond the sixteen-bit range that a surrogate pair stands for. -/
def ofPair (high low : CodePoint) : Option CodePoint :=
  if high.isHighSurrogate && low.isLowSurrogate then
    ofNat? (0x10000 + (high.toNat - 0xD800) * 0x400 + (low.toNat - 0xDC00))
  else none

def digit? (c : CodePoint) : Option Nat :=
  if 0x30 ≤ c.toNat && c.toNat ≤ 0x39 then some (c.toNat - 0x30) else none

/-- The value of an ASCII hexadecimal digit of either case. -/
def hexDigit? (c : CodePoint) : Option Nat :=
  if 0x30 ≤ c.toNat && c.toNat ≤ 0x39 then some (c.toNat - 0x30)
  else if 0x61 ≤ c.toNat && c.toNat ≤ 0x66 then some (c.toNat - 0x61 + 10)
  else if 0x41 ≤ c.toNat && c.toNat ≤ 0x46 then some (c.toNat - 0x41 + 10)
  else none

end CodePoint

/-- Text: a list of code points, compared and sorted code point by code point. -/
abbrev Text := List CodePoint

instance Text.lawfulBEq : LawfulBEq Text := List.instLawfulBEq

namespace Text

def ofString (s : String) : Text := s.toList.map CodePoint.ofChar

def ofNat (n : Nat) : Text := (Nat.toDigits 10 n).map CodePoint.ofChar

/-- An integer in decimal, with a minus sign if it is negative. -/
def ofInt : Int → Text
  | .ofNat n => ofNat n
  | .negSucc n => CodePoint.ofChar '-' :: ofNat (n + 1)

def startsWith (t start : Text) : Bool := start.isPrefixOf t

def endsWith (t tail : Text) : Bool := tail.isSuffixOf t

def beginsWithChar (t : Text) (c : Char) : Bool := t.head? == some (CodePoint.ofChar c)

def newline : CodePoint := CodePoint.ofChar '\n'

/-- Lines with a line feed between each two and none at the end. -/
def joinLines (lines : List Text) : Text := [newline].intercalate lines

/-- Is the text free of surrogates, so that it can be encoded? -/
def isEncodable (t : Text) : Bool := t.all fun c => !c.isSurrogate

/-- The text without the trailing copies of the character `c`. -/
def dropTrailing (t : Text) (c : Char) : Text :=
  (t.reverse.dropWhile (· == CodePoint.ofChar c)).reverse

end Text

/-- A literal as text. -/
abbrev text (s : String) : Text := Text.ofString s

end ExtensionAudit
