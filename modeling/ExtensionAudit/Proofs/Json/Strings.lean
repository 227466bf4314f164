import Mathlib
import ExtensionAudit.Json.Reader
import ExtensionAudit.Json.Writer

/-!
# Strings in JSON

A string is written code point by code point: as it is, by a short escape, or by its number in units of sixteen bits. A
reader gets these units first, and joins each high surrogate with a low one behind it. So a string is read as it was
written unless it holds such a pair itself.

* `Text.IsUnpaired`: no high surrogate stands directly in front of a low one;
* `Json.units`: the units of a code point;
* `Json.readStringBody_escapedPoint`: the units of one code point are read;
* `Json.joinPairs_units`: joining the units of a text gives the text;
* **`Json.readString_escaped`**: a string is read as it was written.
-/

namespace ExtensionAudit

/-- No high surrogate stands directly in front of a low one. -/
def Text.IsUnpaired (t : Text) : Prop := t.IsChain fun a b => ¬ (a.isHighSurrogate = true ∧ b.isLowSurrogate = true)

instance (t : Text) : Decidable t.IsUnpaired :=
  inferInstanceAs (Decidable (t.IsChain fun a b => ¬ (a.isHighSurrogate = true ∧ b.isLowSurrogate = true)))

namespace Json

/-! ## Units -/

/-- The units of sixteen bits of a code point: itself, or a pair of surrogates. -/
def units (c : CodePoint) : Text :=
  if c.toNat < 0x10000 then [c]
  else [⟨0xD800 + (c.toNat - 0x10000) / 0x400, by have := c.toNat_lt; omega⟩,
    ⟨0xDC00 + (c.toNat - 0x10000) % 0x400, by omega⟩]

theorem exists_units_eq_pair {c : CodePoint} (h : ¬ c.toNat < 0x10000) : ∃ high low : CodePoint,
    units c = [high, low] ∧ high.toNat = 0xD800 + (c.toNat - 0x10000) / 0x400 ∧
      low.toNat = 0xDC00 + (c.toNat - 0x10000) % 0x400 :=
  ⟨⟨_, _⟩, ⟨_, _⟩, if_neg h, rfl, rfl⟩

theorem hexDigit?_hexDigit (n : ℕ) : (Text.hexDigit n).hexDigit? = some (n % 16) := by
  have hall : ∀ d < 16, (CodePoint.ofChar (Nat.digitChar d)).hexDigit? = some d := by decide
  exact hall (n % 16) (Nat.mod_lt n (by decide))

theorem hex_four (n : ℕ) : Text.hex 4 n =
    [Text.hexDigit (n / 4096), Text.hexDigit (n / 256), Text.hexDigit (n / 16), Text.hexDigit (n / 1)] := rfl

theorem of_shortEscapeOf? {c letter : CodePoint} (h : shortEscapeOf? c = some letter) :
    letter ≠ CodePoint.ofChar 'u' ∧ shortEscape? letter = some c ∧ c.toNat < 0x80 ∧ letter.toNat < 0x80 := by
  have hall : ∀ e ∈ shortEscapes, CodePoint.ofChar e.1 ≠ CodePoint.ofChar 'u' ∧
      shortEscape? (CodePoint.ofChar e.1) = some (CodePoint.ofChar e.2) ∧ (CodePoint.ofChar e.2).toNat < 0x80 ∧
      (CodePoint.ofChar e.1).toNat < 0x80 := by
    decide
  obtain ⟨e, he, rfl⟩ := Option.map_eq_some_iff.mp h
  have hfound := List.find?_some he
  rw [decide_eq_true_eq] at hfound
  exact hfound.2 ▸ hall e (List.mem_of_find?_eq_some he)

section Reading

variable (reversed more : Text)

theorem readStringBody_hexDigit (missing value n : ℕ) : readStringBody (.hex (missing + 2) value) reversed
    (Text.hexDigit n :: more) = readStringBody (.hex (missing + 1) (value * 16 + n % 16)) reversed more := by
  rw [readStringBody, hexDigit?_hexDigit]
  exact if_neg (by omega)

theorem readStringBody_lastHexDigit {value n : ℕ} {c : CodePoint} (h : value * 16 + n % 16 = c.toNat) :
    readStringBody (.hex 1 value) reversed (Text.hexDigit n :: more) = readStringBody .plain (c :: reversed) more := by
  have hc : CodePoint.ofNat? c.toNat = some c := dif_pos c.toNat_lt
  simp only [readStringBody, hexDigit?_hexDigit, h, hc, le_refl, if_true]

theorem readStringBody_numericEscape {c : CodePoint} (h : c.toNat < 0x10000) :
    readStringBody .plain reversed (numericEscape c.toNat ++ more) = readStringBody .plain (c :: reversed) more := by
  have hescape : ∀ t, readStringBody .plain reversed (text "\\u" ++ t) = readStringBody (.hex 4 0) reversed t := by
    intro t
    rw [show text "\\u" ++ t = CodePoint.ofChar '\\' :: CodePoint.ofChar 'u' :: t from rfl, readStringBody,
      if_neg (by decide), if_pos rfl, readStringBody, if_pos rfl]
  rw [numericEscape, hex_four, List.append_assoc, hescape]
  simp only [List.cons_append, List.nil_append, readStringBody_hexDigit]
  exact readStringBody_lastHexDigit reversed more (by omega)

theorem readStringBody_shortEscape {c letter : CodePoint} (h : shortEscapeOf? c = some letter) :
    readStringBody .plain reversed (Text.backslash :: letter :: more) = readStringBody .plain (c :: reversed) more := by
  obtain ⟨hu, hshort, -⟩ := of_shortEscapeOf? h
  have hbackslash : Text.backslash = CodePoint.ofChar '\\' := rfl
  rw [hbackslash, readStringBody, if_neg (by decide), if_pos rfl, readStringBody, if_neg hu, hshort]

/-- **One code point is read as its units.** -/
theorem readStringBody_escapedPoint (c : CodePoint) : readStringBody .plain reversed (escapedPoint c ++ more) =
    readStringBody .plain ((units c).reverse ++ reversed) more := by
  cases hshort : shortEscapeOf? c with
  | some letter =>
    have hunits : units c = [c] := if_pos (Nat.lt_trans (of_shortEscapeOf? hshort).2.2.1 (by decide))
    have hescape : escapedPoint c = [Text.backslash, letter] := by simp only [escapedPoint, hshort]
    rw [hunits, hescape]
    exact readStringBody_shortEscape reversed more hshort
  | none =>
    by_cases hprint : 0x20 ≤ c.toNat ∧ c.toNat ≤ 0x7E
    · have hquote : c ≠ quote := by rintro rfl; revert hshort; decide
      have hbackslash : c ≠ CodePoint.ofChar '\\' := by rintro rfl; revert hshort; decide
      have hunits : units c = [c] := if_pos (by omega)
      have hescape : escapedPoint c = [c] := by simp only [escapedPoint, hshort, if_pos hprint]
      rw [hunits, hescape, List.singleton_append, readStringBody, if_neg hquote, if_neg hbackslash, if_neg (by omega)]
      rfl
    by_cases hlt : c.toNat < 0x10000
    · have hunits : units c = [c] := if_pos hlt
      have hescape : escapedPoint c = numericEscape c.toNat := by
        simp only [escapedPoint, hshort, if_neg hprint, if_pos hlt]
      rw [hunits, hescape]
      exact readStringBody_numericEscape reversed more hlt
    · have hescape : escapedPoint c = numericEscape (0xD800 + (c.toNat - 0x10000) / 0x400) ++
          numericEscape (0xDC00 + (c.toNat - 0x10000) % 0x400) := by
        simp only [escapedPoint, hshort, if_neg hprint, if_neg hlt]
      have hc := c.toNat_lt
      obtain ⟨high, low, hunits, hhigh, hlow⟩ := exists_units_eq_pair hlt
      rw [hunits, hescape, ← hhigh, ← hlow, List.append_assoc, readStringBody_numericEscape reversed _ (by omega),
        readStringBody_numericEscape _ more (by omega)]
      rfl

theorem readStringBody_flatMap (t : Text) : readStringBody .plain reversed (t.flatMap escapedPoint ++ quote :: more) =
    some (reversed.reverse ++ t.flatMap units, more) := by
  induction t generalizing reversed with
  | nil => rw [List.flatMap_nil, List.nil_append, readStringBody, if_pos rfl, List.flatMap_nil, List.append_nil]
  | cons c t ih =>
    rw [List.flatMap_cons, List.append_assoc, readStringBody_escapedPoint, ih, List.reverse_append,
      List.reverse_reverse, List.append_assoc, List.flatMap_cons]

end Reading

/-! ## Pairs -/

theorem pairStep_of_not {high c : CodePoint} {reversed : Text}
    (h : ¬ (high.isHighSurrogate = true ∧ c.isLowSurrogate = true)) :
    pairStep (high :: reversed) c = c :: high :: reversed := by
  have hpair : CodePoint.ofPair high c = none := if_neg (by simpa using h)
  simp only [pairStep, hpair]

theorem foldl_pairStep_units (reversed : Text) (c : CodePoint)
    (h : ∀ a ∈ reversed.head?, ¬ (a.isHighSurrogate = true ∧ c.isLowSurrogate = true)) :
    (units c).foldl pairStep reversed = c :: reversed := by
  by_cases hlt : c.toNat < 0x10000
  · have hunits : units c = [c] := if_pos hlt
    rw [hunits, List.foldl_cons, List.foldl_nil]
    cases reversed with
    | nil => rfl
    | cons a reversed => exact pairStep_of_not (h a rfl)
  · have hc := c.toNat_lt
    obtain ⟨high, low, hunits, hhigh, hlow⟩ := exists_units_eq_pair hlt
    have hfirst : pairStep reversed high = high :: reversed := by
      cases reversed with
      | nil => rfl
      | cons a reversed =>
        refine pairStep_of_not fun hl => ?_
        have := hl.2
        simp only [CodePoint.isLowSurrogate, Bool.and_eq_true, decide_eq_true_eq] at this
        omega
    have hjoined : CodePoint.ofPair high low = some c := by
      have hboth : (high.isHighSurrogate && low.isLowSurrogate) = true := by
        simp only [CodePoint.isHighSurrogate, CodePoint.isLowSurrogate, Bool.and_eq_true, decide_eq_true_eq]
        omega
      have hn : 0x10000 + (high.toNat - 0xD800) * 0x400 + (low.toNat - 0xDC00) = c.toNat := by omega
      rw [CodePoint.ofPair, if_pos hboth, hn, CodePoint.ofNat?, dif_pos hc]
    rw [hunits, List.foldl_cons, List.foldl_cons, List.foldl_nil, hfirst]
    simp only [pairStep, hjoined]

theorem foldl_pairStep_flatMap (t reversed : Text) (ht : t.IsUnpaired)
    (h : ∀ a ∈ reversed.head?, ∀ b ∈ t.head?, ¬ (a.isHighSurrogate = true ∧ b.isLowSurrogate = true)) :
    (t.flatMap units).foldl pairStep reversed = t.reverse ++ reversed := by
  induction t generalizing reversed with
  | nil => rfl
  | cons c t ih =>
    have htail : Text.IsUnpaired t := List.IsChain.tail ht
    rw [List.flatMap_cons, List.foldl_append, foldl_pairStep_units reversed c fun a ha => h a ha c rfl,
      ih (c :: reversed) htail, List.reverse_cons, List.append_assoc, List.singleton_append]
    rintro a ⟨⟩ b hb
    cases t with
    | nil => cases hb
    | cons d t =>
      obtain rfl : d = b := Option.some.inj hb
      exact (List.isChain_cons_cons.mp ht).1

/-- **Joining the units of a text gives the text**, if it holds no pair itself. -/
theorem joinPairs_units {t : Text} (ht : t.IsUnpaired) : joinPairs (t.flatMap units) = t := by
  rw [joinPairs, foldl_pairStep_flatMap t [] ht (by simp), List.append_nil, List.reverse_reverse]

/-- **A string is read as it was written.** -/
theorem readString_escaped {t : Text} (ht : t.IsUnpaired) (more : Text) :
    readString (t.flatMap escapedPoint ++ quote :: more) = some (t, more) := by
  rw [readString, readStringBody_flatMap, Option.map_some, List.reverse_nil, List.nil_append]
  simp only [joinPairs_units ht]

end Json

end ExtensionAudit
