import Mathlib
import ExtensionAudit.Proofs.Json.Numbers
import ExtensionAudit.Proofs.Json.Strings
import ExtensionAudit.Proofs.Utf8

/-!
# Documents in ASCII

Whatever a value holds, its document is ASCII, and so the bytes of the document stand for its text.

* `Text.IsAscii`: texts in ASCII;
* **`Json.isAscii_write`**: what is written;
* **`Json.decodeStrict_pretty`**: the bytes of a document.
-/

namespace ExtensionAudit

/-- No code point of the text is beyond ASCII. -/
def Text.IsAscii (t : Text) : Prop := ∀ c ∈ t, c.toNat < 0x80

instance (t : Text) : Decidable t.IsAscii := inferInstanceAs (Decidable (∀ c ∈ t, c.toNat < 0x80))

section Ascii

variable {t t' : Text} {c : CodePoint}

@[simp]
theorem Text.isAscii_nil : IsAscii [] := List.forall_mem_nil _

@[simp]
theorem Text.isAscii_cons : IsAscii (c :: t) ↔ c.toNat < 0x80 ∧ t.IsAscii := List.forall_mem_cons

@[simp]
theorem Text.isAscii_append : IsAscii (t ++ t') ↔ t.IsAscii ∧ t'.IsAscii := List.forall_mem_append

theorem Text.IsAscii.isEncodable (h : t.IsAscii) : t.isEncodable = true := by
  rw [isEncodable_iff]
  intro c hc
  have hlt := h c hc
  simp only [CodePoint.isSurrogate, Bool.and_eq_false_iff, decide_eq_false_iff_not]
  omega

theorem Text.isAscii_ofNat (n : ℕ) : (ofNat n).IsAscii := fun c hc => by
  have := Json.isDigit_iff.mp (Json.isDigit_of_mem_ofNat hc)
  omega

theorem Text.isAscii_ofInt (n : ℤ) : (ofInt n).IsAscii := by
  cases n with
  | ofNat n => exact isAscii_ofNat n
  | negSucc n => exact isAscii_cons.mpr ⟨by decide, isAscii_ofNat (n + 1)⟩

end Ascii

namespace Json

theorem isAscii_numericEscape (n : ℕ) : (numericEscape n).IsAscii := by
  have hdigit : ∀ d < 16, (CodePoint.ofChar (Nat.digitChar d)).toNat < 0x80 := by decide
  have hhex : ∀ n, (Text.hexDigit n).toNat < 0x80 := fun n => hdigit (n % 16) (Nat.mod_lt n (by decide))
  rw [numericEscape, hex_four, Text.isAscii_append]
  exact ⟨by decide, by simp [hhex]⟩

theorem isAscii_escapedPoint (c : CodePoint) : (escapedPoint c).IsAscii := by
  simp only [escapedPoint]
  split
  · next letter hletter => simpa using ⟨by decide, (of_shortEscapeOf? hletter).2.2.2⟩
  · split
    · next hprint => simp; omega
    · split
      · exact isAscii_numericEscape _
      · exact Text.isAscii_append.mpr ⟨isAscii_numericEscape _, isAscii_numericEscape _⟩

theorem isAscii_escaped (s : Text) : (escaped s).IsAscii := by
  intro c hc
  rw [escaped, List.cons_append, List.mem_cons, List.mem_append, List.mem_flatMap, List.mem_singleton] at hc
  rcases hc with rfl | ⟨d, -, hc⟩ | rfl
  · decide
  · exact isAscii_escapedPoint d c hc
  · decide

theorem isAscii_indentation (level : ℕ) : (indentation level).IsAscii := by
  intro c hc
  rcases List.mem_cons.mp hc with rfl | hc
  · decide
  · rw [List.eq_of_mem_replicate hc]
    decide

theorem isAscii_separator : (text ": ").IsAscii := by decide

theorem isAscii_realText (r : Real) : (realText "Infinity" "NaN" r).IsAscii := by
  intro c hc
  rcases (isNumeral_realText r).1 c hc with hd | hmem
  · have := isDigit_iff.mp hd
    omega
  · have hall : ∀ c ∈ text ".e+-InfityNa", c.toNat < 0x80 := by decide
    exact hall c hmem

mutual

/-- **What is written is ASCII.** -/
theorem isAscii_write (level : ℕ) : (v : Json) → (write level v).IsAscii
  | .null => by rw [write]; decide
  | .bool b => by rw [write]; cases b <;> decide
  | .integer n => Text.isAscii_ofInt n
  | .real r => isAscii_realText r
  | .string s => isAscii_escaped s
  | .array [] => by rw [write]; decide
  | .array (item :: items) => by
    rw [write]
    simp [isAscii_indentation, isAscii_write (level + 1) item, isAscii_writeItems (level + 1) items]
  | .object [] => by rw [write]; decide
  | .object ((name, value) :: members) => by
    rw [write]
    simp [isAscii_indentation, isAscii_escaped, isAscii_separator, isAscii_write (level + 1) value,
      isAscii_writeMembers (level + 1) members]

theorem isAscii_writeItems (level : ℕ) : (items : List Json) → (writeItems level items).IsAscii
  | [] => Text.isAscii_nil
  | item :: items => by
    rw [writeItems]
    simp [isAscii_indentation, isAscii_write level item, isAscii_writeItems level items]

theorem isAscii_writeMembers (level : ℕ) : (members : List (Text × Json)) → (writeMembers level members).IsAscii
  | [] => Text.isAscii_nil
  | (name, value) :: members => by
    rw [writeMembers]
    simp [isAscii_indentation, isAscii_escaped, isAscii_separator, isAscii_write level value,
      isAscii_writeMembers level members]

end

/-- **The bytes of a document stand for its text.** -/
theorem decodeStrict_pretty (v : Json) : Utf8.decodeStrict (Utf8.encodeAll v.pretty) = some v.pretty :=
  Utf8.decodeStrict_encodeAll (isAscii_write 0 v).isEncodable

theorem decodeStrict_of_prefix {v : Json} {t : Text} (h : t <+: v.pretty) :
    Utf8.decodeStrict (Utf8.encodeAll t) = some t := by
  have hascii : t.IsAscii := fun c hc => isAscii_write 0 v c (h.subset hc)
  exact Utf8.decodeStrict_encodeAll hascii.isEncodable

end Json

end ExtensionAudit
