import Mathlib
import ExtensionAudit.Json.Reader
import ExtensionAudit.Json.Writer

/-!
# Numbers in JSON

An integer is read as what it was written for, if nothing behind it goes on with it and if it has no more digits than
the reader allows.

* `Json.ofDigits_ofNat`: a numeral and its value;
* `Json.EndsNumber`, `Json.Delimits`: what may stand behind a number;
* `Json.readMagnitude_ofNat`: integers without their signs;
* **`Json.readScalar_ofInt`**: integers;
* `Json.IsNumeral`, `Json.isNumeral_realText`: what other numbers are written with.
-/

namespace ExtensionAudit.Json

/-! ## Numerals -/

theorem digit?_ofChar {c : Char} (h : c.isDigit = true) :
    (CodePoint.ofChar c).digit? = some (c.toNat - '0'.toNat) := by
  have hb : (decide (0x30 ≤ c.toNat) && decide (c.toNat ≤ 0x39)) = true := by
    simpa using Char.isDigit_iff_toNat.mp h
  exact if_pos hb

theorem isDigit_iff {c : CodePoint} : isDigit c = true ↔ 0x30 ≤ c.toNat ∧ c.toNat ≤ 0x39 := by
  simp only [isDigit, CodePoint.digit?]
  split <;> simp_all

theorem isDigit_of_mem_ofNat {n : ℕ} {c : CodePoint} (h : c ∈ Text.ofNat n) : isDigit c = true := by
  obtain ⟨d, hd, rfl⟩ := List.mem_map.mp h
  rw [isDigit, digit?_ofChar (Nat.isDigit_of_mem_toDigits (by decide) (by decide) hd)]
  rfl

theorem ofDigits_ofNat (n : ℕ) : ofDigits (Text.ofNat n) = n := by
  have hdigit : ∀ c ∈ Nat.toDigits 10 n, ∀ k : ℕ,
      k * 10 + (CodePoint.ofChar c).digit?.getD 0 = 10 * k + (c.toNat - '0'.toNat) := by
    intro c hc k
    rw [digit?_ofChar (Nat.isDigit_of_mem_toDigits (by decide) (by decide) hc), Option.getD_some, mul_comm]
  calc ofDigits (Text.ofNat n)
      = (Nat.toDigits 10 n).foldl (fun k c => k * 10 + (CodePoint.ofChar c).digit?.getD 0) 0 := by
        rw [ofDigits, Text.ofNat, List.foldl_map]
    _ = Nat.ofDigitChars 10 (Nat.toDigits 10 n) 0 := by
        rw [Nat.ofDigitChars_eq_foldl]
        exact List.foldl_ext _ _ _ fun k c hc => hdigit c hc k
    _ = n := Nat.ofDigitChars_ten_toDigits

theorem exists_toDigits_eq_cons {n : ℕ} (hn : n ≠ 0) : ∃ c rest, Nat.toDigits 10 n = c :: rest ∧ c ≠ '0' := by
  induction n using Nat.strong_induction_on with
  | _ n ih =>
    by_cases hlt : n < 10
    · exact ⟨_, [], Nat.toDigits_of_lt_base hlt, by simpa using hn⟩
    · obtain ⟨c, rest, hc, hne⟩ := ih (n / 10) (by omega) (by omega)
      exact ⟨c, rest ++ [(n % 10).digitChar], by rw [Nat.toDigits_of_base_le (by decide) (by omega), hc]; rfl, hne⟩

theorem ofNat_eq_zero_or (n : ℕ) : Text.ofNat n = [CodePoint.ofChar '0'] ∨
    ∃ c rest, Text.ofNat n = c :: rest ∧ c ≠ CodePoint.ofChar '0' ∧ isDigit c = true := by
  by_cases hn : n = 0
  · subst hn
    exact Or.inl (by decide)
  · obtain ⟨c, rest, hc, hne⟩ := exists_toDigits_eq_cons hn
    have hofNat : Text.ofNat n = CodePoint.ofChar c :: rest.map CodePoint.ofChar := by rw [Text.ofNat, hc]; rfl
    refine Or.inr ⟨_, _, hofNat, fun e => hne (CodePoint.ofChar_injective e), ?_⟩
    exact isDigit_of_mem_ofNat (n := n) (by rw [hofNat]; exact List.mem_cons_self ..)

theorem exists_ofNat (n : ℕ) : ∃ c rest, Text.ofNat n = c :: rest ∧ isDigit c = true := by
  rcases ofNat_eq_zero_or n with h | ⟨c, rest, h, -, hd⟩
  · exact ⟨_, _, h, by decide⟩
  · exact ⟨c, rest, h, hd⟩

theorem beginsWithChar_of_isDigit {c : CodePoint} {tail : Text} {x : Char} (hc : isDigit c = true)
    (hx : isDigit (CodePoint.ofChar x) = false) : Text.beginsWithChar (c :: tail) x = false := by
  rw [Text.beginsWithChar, List.head?_cons, beq_eq_false_iff_ne]
  rintro ⟨⟩
  rw [hx] at hc
  cases hc

theorem ofInt_eq (n : ℤ) : Text.ofInt n = text (if n < 0 then "-" else "") ++ Text.ofNat n.natAbs := by
  cases n with
  | ofNat k => rfl
  | negSucc k =>
    rw [if_pos (Int.negSucc_lt_zero k)]
    rfl

/-! ## What stands behind a number -/

/-- The code point does not go on with a number. -/
def EndsNumber (c : CodePoint) : Prop :=
  isDigit c = false ∧ c ≠ CodePoint.ofChar '.' ∧ c ≠ CodePoint.ofChar 'e' ∧ c ≠ CodePoint.ofChar 'E'

instance (c : CodePoint) : Decidable (EndsNumber c) := inferInstanceAs (Decidable (_ ∧ _))

/-- The text does not go on with a number in front of it. -/
def Delimits (rest : Text) : Prop := ∀ c ∈ rest.head?, EndsNumber c

section Rest

variable {rest digits : Text}

theorem takeWhile_isDigit (hdigits : ∀ c ∈ digits, isDigit c = true) (h : ∀ c ∈ rest.head?, isDigit c = false) :
    (digits ++ rest).takeWhile isDigit = digits ∧ (digits ++ rest).dropWhile isDigit = rest := by
  rw [List.takeWhile_append_of_pos hdigits, List.dropWhile_append_of_pos hdigits]
  cases rest with
  | nil => exact ⟨by simp, rfl⟩
  | cons c rest =>
    have hc : ¬ isDigit c = true := by rw [h c rfl]; simp
    rw [List.takeWhile_cons_of_neg hc, List.dropWhile_cons_of_neg hc, List.append_nil]
    exact ⟨rfl, rfl⟩

theorem readWhole_ofNat (n : ℕ) (h : ∀ c ∈ rest.head?, isDigit c = false) :
    readWhole (Text.ofNat n ++ rest) = some (Text.ofNat n, rest) := by
  rcases ofNat_eq_zero_or n with hn | ⟨c, tail, hn, hne, hd⟩
  · rw [hn, List.singleton_append, readWhole, if_pos rfl]
  · obtain ⟨htake, hdrop⟩ := takeWhile_isDigit (fun c => isDigit_of_mem_ofNat (n := n)) h
    rw [hn] at htake hdrop ⊢
    rw [List.cons_append] at htake hdrop ⊢
    rw [readWhole, if_neg hne, if_pos hd, htake, hdrop]

theorem Delimits.readFraction_eq (h : Delimits rest) : readFraction rest = none := by
  cases rest with
  | nil => rfl
  | cons c rest => exact if_neg fun e => (h c rfl).2.1 e.1

theorem Delimits.readExponent_eq (h : Delimits rest) : readExponent rest = none := by
  cases rest with
  | nil => rfl
  | cons c rest => exact if_neg (not_or.mpr (h c rfl).2.2)

theorem Delimits.isDigit_eq (h : Delimits rest) : ∀ c ∈ rest.head?, isDigit c = false := fun c hc => (h c hc).1

/-! ## Numbers without their signs -/

variable {limit : Option ℕ} (negative : Bool)

theorem readMagnitude_ofNat (n : ℕ) (hlimit : allowsDigits limit (Text.ofNat n).length = true) (h : Delimits rest) :
    readMagnitude limit negative (Text.ofNat n ++ rest) =
      some (.integer (if negative then -(n : ℤ) else n), rest) := by
  simp only [readMagnitude, readWhole_ofNat n h.isDigit_eq, Option.bind_eq_bind, Option.bind_some, h.readFraction_eq,
    h.readExponent_eq, Option.map_none, Option.getD_none, hlimit, if_true, ofDigits_ofNat]

/-! ## Numbers -/

theorem find?_names {t : Text}
    (h : ∃ c tail, isDigit c = true ∧ (t = c :: tail ∨ t = CodePoint.ofChar '-' :: c :: tail)) :
    names.find? (fun n => t.startsWith n.1) = none := by
  have hnames : ∀ n ∈ names, ∃ a b tail, n.1 = a :: b :: tail ∧ isDigit a = false ∧ isDigit b = false := by
    intro n hn
    simp only [names, List.mem_cons, List.not_mem_nil, or_false] at hn
    rcases hn with rfl | rfl | rfl | rfl | rfl | rfl <;> exact ⟨_, _, _, rfl, by decide, by decide⟩
  rw [List.find?_eq_none]
  intro n hn hstarts
  obtain ⟨a, b, tail, hab, ha, hb⟩ := hnames n hn
  obtain ⟨more, hmore⟩ := List.isPrefixOf_iff_prefix.mp hstarts
  obtain ⟨c, rest, hc, rfl | rfl⟩ := h
  · rw [hab] at hmore
    obtain ⟨rfl, -⟩ := List.cons_eq_cons.mp hmore
    rw [ha] at hc
    cases hc
  · rw [hab] at hmore
    obtain ⟨-, hmore⟩ := List.cons_eq_cons.mp hmore
    obtain ⟨rfl, -⟩ := List.cons_eq_cons.mp hmore
    rw [hb] at hc
    cases hc

theorem readScalar_signed (n : ℕ) (more : Text) :
    readScalar limit (text (if negative then "-" else "") ++ (Text.ofNat n ++ more)) =
      readMagnitude limit negative (Text.ofNat n ++ more) := by
  obtain ⟨c, tail, hc, hd⟩ := exists_ofNat n
  rw [hc, List.cons_append]
  cases negative with
  | true =>
    have hminus : text (if true then "-" else "") = [CodePoint.ofChar '-'] := by decide
    rw [hminus, List.singleton_append, readScalar, find?_names ⟨c, tail ++ more, hd, Or.inr rfl⟩]
    simp [Text.beginsWithChar]
  | false =>
    have hnone : text (if false then "-" else "") = [] := by decide
    have hstart : Text.beginsWithChar (c :: (tail ++ more)) '-' = false := beginsWithChar_of_isDigit hd (by decide)
    rw [hnone, List.nil_append, readScalar, find?_names ⟨c, tail ++ more, hd, Or.inl rfl⟩]
    simp [hstart]

/-- **An integer is read as it was written**, if it has no more digits than the reader allows. -/
theorem readScalar_ofInt (n : ℤ) (hlimit : allowsDigits limit (Text.ofNat n.natAbs).length = true) (h : Delimits rest) :
    readScalar limit (Text.ofInt n ++ rest) = some (.integer n, rest) := by
  have hs := @readScalar_signed limit (decide (n < 0)) n.natAbs rest
  have hn : (if decide (n < 0) then -(n.natAbs : ℤ) else n.natAbs) = n := by
    simp only [decide_eq_true_eq]
    split <;> omega
  rw [readMagnitude_ofNat _ _ hlimit h, hn] at hs
  rw [ofInt_eq, List.append_assoc, ← hs]
  simp only [decide_eq_true_eq]

end Rest

/-! ## Numbers that are no integers -/

/-- The text has what numbers are written with, their names included, and nothing else. -/
def IsNumeral (t : Text) : Prop := ∀ c ∈ t, isDigit c = true ∨ c ∈ text ".e+-InfityNa"

instance (t : Text) : Decidable (IsNumeral t) :=
  inferInstanceAs (Decidable (∀ c ∈ t, isDigit c = true ∨ c ∈ text ".e+-InfityNa"))

section Numeral

variable {t t' : Text} {c : CodePoint}

theorem isNumeral_append : IsNumeral (t ++ t') ↔ IsNumeral t ∧ IsNumeral t' := List.forall_mem_append

theorem isNumeral_cons : IsNumeral (c :: t) ↔ (isDigit c = true ∨ c ∈ text ".e+-InfityNa") ∧ IsNumeral t :=
  List.forall_mem_cons

theorem IsNumeral.of_subset (h : IsNumeral t') (hs : t ⊆ t') : IsNumeral t := fun c hc => h c (hs hc)

theorem isNumeral_ofNat (n : ℕ) : IsNumeral (Text.ofNat n) := fun _ hc => Or.inl (isDigit_of_mem_ofNat hc)

theorem isNumeral_zeros (n : ℕ) : IsNumeral (Decimal.zeros n) := by
  intro c hc
  rw [List.eq_of_mem_replicate hc]
  exact Or.inl (by decide)

theorem exists_shortest (significand : ℕ) (exponent : ℤ) :
    ∃ n k, Decimal.shortest significand exponent = Decimal.Digits.ofScaled n k := by
  rw [Decimal.shortest]
  cases hf : (List.range 17).findSome? _ with
  | none => exact ⟨_, _, rfl⟩
  | some d =>
    obtain ⟨n, -, hn⟩ := List.exists_of_findSome?_eq_some hf
    obtain ⟨c, -, rfl⟩ := Option.map_eq_some_iff.mp hn
    exact ⟨_, _, rfl⟩

theorem isNumeral_shortest (significand : ℕ) (exponent : ℤ) :
    IsNumeral ((Decimal.shortest significand exponent).digits.map CodePoint.ofChar) := by
  obtain ⟨n, k, h⟩ := exists_shortest significand exponent
  rw [h]
  refine (isNumeral_ofNat n).of_subset (List.map_subset _ fun x hx => ?_)
  have hx := List.dropWhile_subset _ (List.mem_reverse.mp hx)
  exact List.mem_reverse.mp hx

theorem isNumeral_padded (width n : ℕ) : IsNumeral (Decimal.padded width n) :=
  isNumeral_append.mpr ⟨isNumeral_zeros _, isNumeral_ofNat n⟩

theorem isNumeral_layout (l : Decimal.Layout) {d : Decimal.Digits} (h : IsNumeral (d.digits.map CodePoint.ofChar)) :
    IsNumeral (Decimal.layout l d) := by
  have htake : ∀ n, IsNumeral ((d.digits.map CodePoint.ofChar).take n) := fun n => h.of_subset (List.take_subset n _)
  have hdrop : ∀ n, IsNumeral ((d.digits.map CodePoint.ofChar).drop n) := fun n => h.of_subset (List.drop_subset n _)
  have hdot : isDigit (CodePoint.ofChar '.') = true ∨ CodePoint.ofChar '.' ∈ text ".e+-InfityNa" := by decide
  have hzero : IsNumeral (text "0.") ∧ IsNumeral (text ".0") := by decide
  have hexponent : IsNumeral (text "e-") ∧ IsNumeral (text "e+") := by decide
  simp only [Decimal.layout]
  split_ifs <;>
    simp only [isNumeral_append, isNumeral_cons, isNumeral_zeros, isNumeral_padded, h, htake, hdrop, hdot, hzero,
      hexponent, and_self]

theorem layout_ne_nil (l : Decimal.Layout) (d : Decimal.Digits) : Decimal.layout l d ≠ [] := by
  have hpoint : text ".0" ≠ [] ∧ text "0." ≠ [] ∧ text "e-" ≠ [] ∧ text "e+" ≠ [] := by decide
  simp only [Decimal.layout]
  split_ifs <;> simp [hpoint]

/-- **A number is written with what numbers are written with**, and it is written at all. -/
theorem isNumeral_realText (r : Real) : IsNumeral (realText "Infinity" "NaN" r) ∧ realText "Infinity" "NaN" r ≠ [] := by
  have hsign : ∀ b : Bool, IsNumeral (text (if b then "-" else "")) := by decide
  have hname : IsNumeral (text "Infinity") ∧ text "Infinity" ≠ [] := by decide
  have hmagnitude : ∀ m, IsNumeral (magnitudeText "Infinity" m) ∧ magnitudeText "Infinity" m ≠ [] := by
    intro m
    cases m with
    | infinite => exact hname
    | finite significand exponent =>
      rw [magnitudeText]
      split
      · decide
      · exact ⟨isNumeral_layout _ (isNumeral_shortest _ _), layout_ne_nil _ _⟩
  cases r with
  | finite negative digits exponent =>
    obtain ⟨hm, hne⟩ := hmagnitude (Binary64.ofDecimal digits exponent)
    exact ⟨isNumeral_append.mpr ⟨hsign negative, hm⟩, List.append_ne_nil_of_right_ne_nil _ hne⟩
  | infinite negative =>
    exact ⟨isNumeral_append.mpr ⟨hsign negative, hname.1⟩, List.append_ne_nil_of_right_ne_nil _ hname.2⟩
  | undefined => decide

end Numeral

end ExtensionAudit.Json
