import ExtensionAudit.Table
import ExtensionAudit.Json.Value

/-!
# Reading JSON

The reader takes a whole document. It reads NaN and the infinities by name, refuses control characters
in strings and integers with more digits than a limit allows, and of two members with one name keeps the
last value at the first place. Values may lie in each other to any depth.

* `Json.skipBlanks`, `Json.readString`, `Json.readMagnitude`, `Json.readValue`: a token or value and the rest;
* `Json.parseWithin`: the value of a document, for any limit or none;
* `Json.parse`: the value of a document whose integers have at most 4300 digits.
-/

namespace ExtensionAudit.Json

/-- The text without the blanks in front. -/
def skipBlanks (t : Text) : Text := t.dropWhile isBlank

/-! ## Strings -/

/-- Where the reader stands inside a string: between characters, after a backslash, or within the
digits of an escape by number. -/
inductive StringMode where
  | plain
  | escape
  | hex (missing value : Nat)

/-- The character that a short escape stands for. -/
def shortEscape? (c : CodePoint) : Option CodePoint :=
  (shortEscapes.find? fun e => CodePoint.ofChar e.1 = c).map fun e => CodePoint.ofChar e.2

/-- The rest of a string up to its closing quote, with the escapes read, and what follows. -/
def readStringBody : StringMode → Text → Text → Option (Text × Text)
  | _, _, [] => none
  | .plain, reversed, c :: rest =>
    if c = quote then some (reversed.reverse, rest)
    else if c = CodePoint.ofChar '\\' then readStringBody .escape reversed rest
    else if c.toNat < 0x20 then none
    else readStringBody .plain (c :: reversed) rest
  | .escape, reversed, c :: rest =>
    if c = CodePoint.ofChar 'u' then readStringBody (.hex 4 0) reversed rest
    else match shortEscape? c with
      | some d => readStringBody .plain (d :: reversed) rest
      | none => none
  | .hex missing value, reversed, c :: rest =>
    match c.hexDigit? with
    | none => none
    | some d =>
      let value := value * 16 + d
      if missing ≤ 1 then
        match CodePoint.ofNat? value with
        | some c => readStringBody .plain (c :: reversed) rest
        | none => none
      else readStringBody (.hex (missing - 1) value) reversed rest

/-- A step of pairing: the text so far, last code point first, with the pair closed by `c` joined. -/
def pairStep (reversed : Text) (c : CodePoint) : Text :=
  match reversed with
  | high :: before =>
    match CodePoint.ofPair high c with
    | some joined => joined :: before
    | none => c :: reversed
  | [] => [c]

/-- Each surrogate pair as the code point it stands for. A surrogate without a partner stays. -/
def joinPairs (t : Text) : Text := (t.foldl pairStep []).reverse

/-- A string after its opening quote, and what follows its closing one. -/
def readString (t : Text) : Option (Text × Text) :=
  (readStringBody .plain [] t).map fun (body, rest) => (joinPairs body, rest)

/-! ## Numbers -/

/-- Is the code point an ASCII digit? -/
def isDigit (c : CodePoint) : Bool := c.digit?.isSome

/-- The number that ASCII digits denote. -/
def ofDigits (t : Text) : Nat := t.foldl (fun n c => n * 10 + c.digit?.getD 0) 0

/-- The integer part of a number: a zero alone, or digits that start with another one. -/
def readWhole (t : Text) : Option (Text × Text) :=
  match t with
  | [] => none
  | c :: rest =>
    if c = CodePoint.ofChar '0' then some ([c], rest)
    else if isDigit c then some (t.takeWhile isDigit, t.dropWhile isDigit)
    else none

/-- The digits after a point, if a point and a digit follow. -/
def readFraction (t : Text) : Option (Text × Text) :=
  match t with
  | dot :: rest =>
    if dot = CodePoint.ofChar '.' ∧ (rest.takeWhile isDigit).length ≠ 0 then
      some (rest.takeWhile isDigit, rest.dropWhile isDigit)
    else none
  | [] => none

/-- The exponent after a letter E and a sign that may be missing, if a digit follows them. -/
def readExponent (t : Text) : Option (Int × Text) :=
  match t with
  | [] => none
  | e :: rest =>
    if e = CodePoint.ofChar 'e' ∨ e = CodePoint.ofChar 'E' then
      let negative := Text.beginsWithChar rest '-'
      let rest := if negative || Text.beginsWithChar rest '+' then rest.drop 1 else rest
      let digits := rest.takeWhile isDigit
      if digits.isEmpty then none
      else
        let n : Int := ofDigits digits
        some (if negative then -n else n, rest.dropWhile isDigit)
    else none

/-- The number after its sign. Without a fraction and an exponent it is an integer. -/
def readMagnitude (limit : Option Nat) (negative : Bool) (t : Text) : Option (Json × Text) := do
  let (whole, rest) ← readWhole t
  let fraction := readFraction rest
  let afterFraction := (fraction.map (·.2)).getD rest
  let exponent := readExponent afterFraction
  match fraction, exponent with
  | none, none =>
    if allowsDigits limit whole.length then
      let n : Int := ofDigits whole
      some (.integer (if negative then -n else n), rest)
    else none
  | _, _ =>
    let places := (fraction.map (·.1)).getD []
    let power := (exponent.map (·.1)).getD 0
    some (.real (.finite negative (ofDigits (whole ++ places)) (power - places.length)),
      (exponent.map (·.2)).getD afterFraction)

/-- The names that stand for values, with the values. -/
def names : List (Text × Json) :=
  [(text "null", .null), (text "true", .bool true), (text "false", .bool false),
    (text "NaN", .real .undefined), (text "Infinity", .real (.infinite false)),
    (text "-Infinity", .real (.infinite true))]

/-- A value given by its name, or a number. -/
def readScalar (limit : Option Nat) (t : Text) : Option (Json × Text) :=
  match names.find? fun n => t.startsWith n.1 with
  | some (name, value) => some (value, t.drop name.length)
  | none =>
    if t.beginsWithChar '-' then readMagnitude limit true (t.drop 1) else readMagnitude limit false t

/-! ## Values -/

/-- What a bracket or comma after an item says: whether another item follows, and the rest. -/
def readSeparator (closing : Char) (t : Text) : Option (Bool × Text) :=
  match skipBlanks t with
  | [] => none
  | c :: rest =>
    if c = CodePoint.ofChar ',' then some (true, rest)
    else if c = CodePoint.ofChar closing then some (false, rest)
    else none

/-- A member's name and the colon after it. -/
def readName (t : Text) : Option (Text × Text) :=
  match skipBlanks t with
  | [] => none
  | c :: rest =>
    if c = quote then do
      let (name, rest) ← readString rest
      match skipBlanks rest with
      | colon :: rest => if colon = CodePoint.ofChar ':' then some (name, rest) else none
      | [] => none
    else none

mutual

/-- A value and what follows it. Each level of nesting and each item costs one unit of fuel. -/
def readValue (limit : Option Nat) : Nat → Text → Option (Json × Text)
  | 0, _ => none
  | fuel + 1, t =>
    match skipBlanks t with
    | [] => none
    | c :: rest =>
      if c = quote then (readString rest).map fun (s, rest) => (.string s, rest)
      else if c = CodePoint.ofChar '[' then
        if (skipBlanks rest).beginsWithChar ']' then some (.array [], (skipBlanks rest).drop 1)
        else readItems limit fuel [] rest
      else if c = CodePoint.ofChar '{' then
        if (skipBlanks rest).beginsWithChar '}' then some (.object [], (skipBlanks rest).drop 1)
        else readMembers limit fuel [] rest
      else readScalar limit (c :: rest)

/-- The items of an array from the next one on. -/
def readItems (limit : Option Nat) : Nat → List Json → Text → Option (Json × Text)
  | 0, _, _ => none
  | fuel + 1, reversed, t =>
    match readValue limit fuel t with
    | none => none
    | some (item, rest) =>
      match readSeparator ']' rest with
      | none => none
      | some (true, rest) => readItems limit fuel (item :: reversed) rest
      | some (false, rest) => some (.array (item :: reversed).reverse, rest)

/-- The members of an object from the next one on. -/
def readMembers (limit : Option Nat) : Nat → List (Text × Json) → Text → Option (Json × Text)
  | 0, _, _ => none
  | fuel + 1, reversed, t =>
    match readName t with
    | none => none
    | some (name, rest) =>
      match readValue limit fuel rest with
      | none => none
      | some (value, rest) =>
        match readSeparator '}' rest with
        | none => none
        | some (true, rest) => readMembers limit fuel ((name, value) :: reversed) rest
        | some (false, rest) =>
          some (.object (Table.ofPairs ((name, value) :: reversed).reverse), rest)

end

/-- The value of a document, which holds nothing else but blanks, under a limit on the digits of integers. -/
def parseWithin (limit : Option Nat) (t : Text) : Option Json :=
  match readValue limit (t.length + 1) t with
  | some (value, rest) => if (skipBlanks rest).isEmpty then some value else none
  | none => none

/-- The value of a document. -/
def parse (t : Text) : Option Json := parseWithin (some maxIntegerDigits) t

end ExtensionAudit.Json
