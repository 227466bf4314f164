import ExtensionAudit.Text.Basic

/-!
# UTF-8

* `Utf8.encodeScalar`, `Utf8.encode`: the bytes of a text, or where its first run of surrogates lies;
* `Utf8.Decoder`: a machine that takes one byte at a time. A sequence that a byte breaks is dropped,
  and the byte is read again from the start;
* `Utf8.decodeLossy`, `Utf8.decodeStrict`: all that can be read, and all or nothing.
-/

namespace ExtensionAudit

/-- File contents. -/
abbrev Bytes := List UInt8

namespace Utf8

/-! ## Encoding -/

/-- The bytes of one code point. -/
def encodeScalar (c : CodePoint) : Bytes :=
  let n := c.toNat
  if n < 0x80 then [n.toUInt8]
  else if n < 0x800 then [(0xC0 + n / 0x40).toUInt8, (0x80 + n % 0x40).toUInt8]
  else if n < 0x10000 then
    [(0xE0 + n / 0x1000).toUInt8, (0x80 + n / 0x40 % 0x40).toUInt8, (0x80 + n % 0x40).toUInt8]
  else
    [(0xF0 + n / 0x40000).toUInt8, (0x80 + n / 0x1000 % 0x40).toUInt8,
      (0x80 + n / 0x40 % 0x40).toUInt8, (0x80 + n % 0x40).toUInt8]

/-- The bytes of a text, code point by code point. -/
def encodeAll (t : Text) : Bytes := t.flatMap encodeScalar

theorem encodeAll_append (t t' : Text) : encodeAll (t ++ t') = encodeAll t ++ encodeAll t' := List.flatMap_append

/-- A run of surrogates: where it starts in the text, and the code points in it. -/
structure SurrogateRun where
  start : Nat
  run : Text
deriving DecidableEq

/-- The first run of surrogates of a text. -/
def firstSurrogates (t : Text) : SurrogateRun :=
  ⟨(t.takeWhile fun c => !c.isSurrogate).length,
    (t.dropWhile fun c => !c.isSurrogate).takeWhile CodePoint.isSurrogate⟩

/-- The bytes of a text. A text with a surrogate has none. -/
def encode (t : Text) : Except SurrogateRun Bytes :=
  if t.isEncodable then .ok (encodeAll t) else .error (firstSurrogates t)

def size (t : Text) : Nat := (encodeAll t).length

/-! ## Decoding -/

/-- What the rest of a sequence must look like: the value read so far, the number of bytes missing,
and the bounds of the next one. -/
structure Pending where
  value : Nat
  missing : Nat
  low : UInt8
  high : UInt8
deriving DecidableEq

/-- What the first byte of a sequence says. -/
inductive Lead where
  | scalar (value : Nat)
  | pending (p : Pending)
  | invalid
deriving DecidableEq

/-- The bounds of a byte that no shorter form and no surrogate rules out. -/
def Pending.plain (value missing : Nat) : Pending := ⟨value, missing, 0x80, 0xBF⟩

/-- The first byte of a sequence. After E0 and F0 the bounds rule out shorter forms, after ED
surrogates, and after F4 what lies beyond the last code point. -/
def lead (b : UInt8) : Lead :=
  if b < 0x80 then .scalar b.toNat
  else if b < 0xC2 then .invalid
  else if b < 0xE0 then .pending (.plain (b.toNat - 0xC0) 1)
  else if b = 0xE0 then .pending ⟨0, 2, 0xA0, 0xBF⟩
  else if b = 0xED then .pending ⟨0xD, 2, 0x80, 0x9F⟩
  else if b < 0xF0 then .pending (.plain (b.toNat - 0xE0) 2)
  else if b = 0xF0 then .pending ⟨0, 3, 0x90, 0xBF⟩
  else if b < 0xF4 then .pending (.plain (b.toNat - 0xF0) 3)
  else if b = 0xF4 then .pending ⟨4, 3, 0x80, 0x8F⟩
  else .invalid

/-- A decoder between two bytes: the text so far, last code point first, the sequence under way, and
whether nothing has been dropped. -/
structure Decoder where
  reversed : Text := []
  pending : Option Pending := none
  clean : Bool := true

namespace Decoder

def emit (d : Decoder) (n : Nat) : Decoder :=
  match CodePoint.ofNat? n with
  | some c => { d with reversed := c :: d.reversed, pending := none }
  | none => { d with pending := none, clean := false }

def start (d : Decoder) (b : UInt8) : Decoder :=
  match lead b with
  | .scalar n => d.emit n
  | .pending p => { d with pending := some p }
  | .invalid => { d with pending := none, clean := false }

/-- Take a byte. If it breaks the sequence under way, that sequence is dropped and the byte is read
again as a first one. -/
def step (d : Decoder) (b : UInt8) : Decoder :=
  match d.pending with
  | none => d.start b
  | some p =>
    if p.low ≤ b ∧ b ≤ p.high then
      let value := p.value * 0x40 + (b.toNat - 0x80)
      if p.missing ≤ 1 then d.emit value
      else { d with pending := some (.plain value (p.missing - 1)) }
    else { d with clean := false }.start b

def run (d : Decoder) (bytes : Bytes) : Decoder := bytes.foldl step d

end Decoder

/-- All text that can be read; broken sequences, also one cut off by the end, are dropped. -/
def decodeLossy (bytes : Bytes) : Text := (Decoder.run {} bytes).reversed.reverse

/-- The text, if every byte belongs to a whole sequence. -/
def decodeStrict (bytes : Bytes) : Option Text :=
  let d := Decoder.run {} bytes
  if d.clean && d.pending.isNone then some d.reversed.reverse else none

end Utf8

end ExtensionAudit
