import Mathlib
import ExtensionAudit.Proofs.Json.Numbers
import ExtensionAudit.Settings

/-!
# Settings that are integers

A text spells an integer if it consists of blanks, a sign that may be missing, decimal digits of any scripts with single
underscores between them, and blanks. Settings are read as the integers that they spell, and every other text is as good
as none.

* `Text.Digits`, `Text.IsSign`, **`Text.Spells`**: the texts of integers;
* `Text.decimal?_eq_some_iff`, `Text.trimBlanks_eq`: digits and the blanks around them;
* **`Text.integer?_eq_some_iff`**: what is read as an integer;
* `Text.spells_ofInt`: the decimal text of an integer spells it;
* **`Settings.Numeric.read_spells`**: what a setting is read as.
-/

namespace ExtensionAudit

namespace Text

/-! ## Texts of integers -/

/-- The underscore, which may stand between two digits. -/
def underscore : CodePoint := CodePoint.ofChar '_'

/-- Decimal digits of any scripts with single underscores between them, and their values in order. -/
inductive Digits : Text → List ℕ → Prop where
  | last {c : CodePoint} {d : ℕ} (hc : c.decimalValue? = some d) : Digits [c] [d]
  | next {c : CodePoint} {d : ℕ} {t : Text} {ds : List ℕ} (hc : c.decimalValue? = some d) (h : Digits t ds) :
      Digits (c :: t) (d :: ds)
  | spaced {c : CodePoint} {d : ℕ} {t : Text} {ds : List ℕ} (hc : c.decimalValue? = some d) (h : Digits t ds) :
      Digits (c :: underscore :: t) (d :: ds)

/-- A sign that may be missing, and whether it is a minus sign. -/
inductive IsSign : Text → Bool → Prop where
  | missing : IsSign [] false
  | plus : IsSign [CodePoint.ofChar '+'] false
  | minus : IsSign [CodePoint.ofChar '-'] true

/-- The integer with a sign and a magnitude. -/
def signed (negative : Bool) (n : ℕ) : ℤ := if negative then -(n : ℤ) else n

/-- Nothing but blanks. -/
def IsBlank (t : Text) : Prop := ∀ c ∈ t, c.isBlank = true

/-- **The text spells the integer**: between blanks there are a sign and digits, not more of them than are read, whose
values are those of the integer in the decimal system. -/
def Spells (t : Text) (n : ℤ) : Prop :=
  ∃ before sign digits after negative values, t = before ++ (sign ++ digits) ++ after ∧ IsBlank before ∧ IsBlank after ∧
    IsSign sign negative ∧ Digits digits values ∧ values.length ≤ maxDigits ∧
    n = signed negative (Nat.ofDigits 10 values.reverse)

/-! ## Digits -/

theorem decimalValue?_underscore : underscore.decimalValue? = none := by decide

theorem of_mem_decimalZeros : ∀ z ∈ CodePoint.decimalZeros, z = 0x30 ∨ (0x660 ≤ z ∧ z + 9 < 0x1680) ∨
    (0x1680 < z ∧ z + 9 < 0x2000) ∨ 0x3000 < z := by decide

theorem isBlank_of_decimalValue? {c : CodePoint} {d : ℕ} (h : c.decimalValue? = some d) : c.isBlank = false := by
  obtain ⟨z, hz, -⟩ := Option.map_eq_some_iff.mp h
  have hmem := of_mem_decimalZeros z (List.mem_of_find?_eq_some hz)
  have hrange := List.find?_some hz
  simp only [Bool.and_eq_true, decide_eq_true_eq] at hrange
  simp only [CodePoint.isBlank, Bool.or_eq_false_iff, Bool.and_eq_false_iff, decide_eq_false_iff_not,
    beq_eq_false_iff_ne]
  omega

theorem ofDigitValues_eq (values : List ℕ) : ofDigitValues values = Nat.ofDigits 10 values.reverse := by
  rw [Nat.ofDigits_eq_foldr, List.foldr_reverse, ofDigitValues]
  refine List.foldl_ext _ _ _ fun n d _ => ?_
  rw [Nat.cast_id, add_comm, mul_comm]

/-- The groups of digits between underscores. -/
def digitGroups (t : Text) : List Text := t.splitOnP (· == underscore)

theorem digitGroups_cons {c : CodePoint} (h : c ≠ underscore) (t : Text) :
    digitGroups (c :: t) = (digitGroups t).modifyHead (c :: ·) := by
  rw [digitGroups, List.splitOnP_cons_eq_if_modifyHead, if_neg (by simpa using h)]
  rfl

theorem digitGroups_underscore (t : Text) : digitGroups (underscore :: t) = [] :: digitGroups t := by
  rw [digitGroups, List.splitOnP_cons_eq_if_modifyHead, if_pos (by simp)]
  rfl

/-- The groups are full and their digits have the values. -/
def HaveValues (groups : List Text) (values : List ℕ) : Prop :=
  (∀ g ∈ groups, g ≠ []) ∧ groups.flatten.mapM CodePoint.decimalValue? = some values

theorem mapM_decimalValue?_cons {c : CodePoint} {t : Text} {values : List ℕ} :
    (c :: t).mapM CodePoint.decimalValue? = some values ↔
      ∃ d ds, values = d :: ds ∧ c.decimalValue? = some d ∧ t.mapM CodePoint.decimalValue? = some ds := by
  rw [List.mapM_cons]
  simp only [Option.bind_eq_bind, Option.bind_eq_some_iff, Option.pure_def, Option.some.injEq]
  constructor
  · rintro ⟨d, hd, ds, hds, rfl⟩
    exact ⟨d, ds, rfl, hd, hds⟩
  · rintro ⟨d, ds, rfl, hd, hds⟩
    exact ⟨d, hd, ds, hds, rfl⟩

theorem haveValues_modifyHead {c : CodePoint} {groups : List Text} {values : List ℕ} (hne : groups ≠ []) :
    HaveValues (groups.modifyHead (c :: ·)) values ↔
      (∀ g ∈ groups.tail, g ≠ []) ∧ ∃ d ds, values = d :: ds ∧ c.decimalValue? = some d ∧
        groups.flatten.mapM CodePoint.decimalValue? = some ds := by
  obtain ⟨g, groups, rfl⟩ := List.exists_cons_of_ne_nil hne
  rw [HaveValues, List.modifyHead_cons, List.flatten_cons, List.cons_append, mapM_decimalValue?_cons]
  simp

theorem ne_underscore_of_decimalValue? {c : CodePoint} {d : ℕ} (h : c.decimalValue? = some d) : c ≠ underscore := by
  rintro rfl
  rw [decimalValue?_underscore] at h
  cases h

theorem digitGroups_ne_nil (t : Text) : digitGroups t ≠ [] := List.splitOnP_ne_nil _ t

theorem Digits.haveValues {t : Text} {values : List ℕ} (h : Digits t values) : HaveValues (digitGroups t) values := by
  induction h with
  | @last c d hc =>
    rw [digitGroups_cons (ne_underscore_of_decimalValue? hc), haveValues_modifyHead (digitGroups_ne_nil [])]
    exact ⟨by simp [digitGroups], d, [], rfl, hc, rfl⟩
  | @next c d t ds hc h ih =>
    rw [digitGroups_cons (ne_underscore_of_decimalValue? hc), haveValues_modifyHead (digitGroups_ne_nil t)]
    exact ⟨fun g hg => ih.1 g (List.mem_of_mem_tail hg), d, ds, rfl, hc, ih.2⟩
  | @spaced c d t ds hc h ih =>
    rw [digitGroups_cons (ne_underscore_of_decimalValue? hc), haveValues_modifyHead (digitGroups_ne_nil _),
      digitGroups_underscore]
    exact ⟨ih.1, d, ds, rfl, hc, ih.2⟩

theorem HaveValues.exists_head {c : CodePoint} {t : Text} {values : List ℕ}
    (h : HaveValues (digitGroups (c :: t)) values) : (∀ g ∈ (digitGroups t).tail, g ≠ []) ∧
      ∃ d ds, values = d :: ds ∧ c.decimalValue? = some d ∧
        (digitGroups t).flatten.mapM CodePoint.decimalValue? = some ds := by
  by_cases hc : c = underscore
  · subst hc
    exact absurd rfl (h.1 [] (by rw [digitGroups_underscore]; exact List.mem_cons_self ..))
  · rwa [digitGroups_cons hc, haveValues_modifyHead (digitGroups_ne_nil t)] at h

theorem digits_of_haveValues {t : Text} {values : List ℕ} (h : HaveValues (digitGroups t) values) :
    Digits t values := by
  -- an underscore takes two code points at once
  induction t using List.twoStepInduction generalizing values with
  | nil => exact absurd rfl (h.1 [] (by simp [digitGroups]))
  | singleton c =>
    obtain ⟨-, d, ds, rfl, hd, hds⟩ := h.exists_head
    cases hds
    exact .last hd
  | cons_cons c e t ih ih' =>
    obtain ⟨hfull, d, ds, rfl, hd, hds⟩ := h.exists_head
    by_cases he : e = underscore
    · subst he
      rw [digitGroups_underscore] at hfull hds
      exact .spaced hd (ih ⟨hfull, hds⟩)
    · refine .next hd (ih' e ⟨?_, hds⟩)
      obtain ⟨g, groups, hg⟩ := List.exists_cons_of_ne_nil (digitGroups_ne_nil t)
      rw [digitGroups_cons he, hg, List.modifyHead_cons] at hfull ⊢
      exact List.forall_mem_cons.mpr ⟨List.cons_ne_nil _ _, hfull⟩

/-- **Digits with underscores between them** are full groups of digits. -/
theorem digits_iff {t : Text} {values : List ℕ} : Digits t values ↔ HaveValues (digitGroups t) values :=
  ⟨Digits.haveValues, digits_of_haveValues⟩

/-- **What is read as digits**, and as which number. -/
theorem decimal?_eq_some_iff {t : Text} {n : ℕ} : decimal? t = some n ↔
    ∃ values, Digits t values ∧ values.length ≤ maxDigits ∧ n = Nat.ofDigits 10 values.reverse := by
  have hempty : (digitGroups t).any List.isEmpty = true ↔ ¬ ∀ g ∈ digitGroups t, g ≠ [] := by
    simp
  simp only [digits_iff, HaveValues, ← ofDigitValues_eq]
  rw [decimal?]
  show (if (digitGroups t).any List.isEmpty = true then none else _) = some n ↔ _
  split
  · next h => simp [hempty.mp h]
  · next h =>
    rw [hempty, not_not] at h
    simp only [Option.bind_eq_bind, Option.bind_eq_some_iff, Option.ite_none_right_eq_some, Option.some.injEq]
    constructor
    · rintro ⟨values, hv, hlen, rfl⟩
      exact ⟨values, ⟨h, hv⟩, hlen, rfl⟩
    · rintro ⟨values, ⟨-, hv⟩, hlen, rfl⟩
      exact ⟨values, hv, hlen, rfl⟩

/-! ## Signs and blanks -/

theorem Digits.exists_head {t : Text} {values : List ℕ} (h : Digits t values) :
    ∃ c rest d, t = c :: rest ∧ c.decimalValue? = some d := by
  cases h with
  | last hc => exact ⟨_, _, _, rfl, hc⟩
  | next hc => exact ⟨_, _, _, rfl, hc⟩
  | spaced hc => exact ⟨_, _, _, rfl, hc⟩

theorem Digits.exists_last {t : Text} {values : List ℕ} (h : Digits t values) :
    ∃ front c d, t = front ++ [c] ∧ c.decimalValue? = some d := by
  induction h with
  | last hc => exact ⟨[], _, _, rfl, hc⟩
  | next _ _ ih =>
    obtain ⟨front, c, d, rfl, hd⟩ := ih
    exact ⟨_ :: front, c, d, rfl, hd⟩
  | spaced _ _ ih =>
    obtain ⟨front, c, d, rfl, hd⟩ := ih
    exact ⟨_ :: _ :: front, c, d, rfl, hd⟩

theorem isBlank_ends {sign digits : Text} {negative : Bool} {values : List ℕ} (hs : IsSign sign negative)
    (hd : Digits digits values) : (∃ c rest, sign ++ digits = c :: rest ∧ c.isBlank = false) ∧
      ∃ front c, sign ++ digits = front ++ [c] ∧ c.isBlank = false := by
  constructor
  · obtain ⟨c, rest, d, rfl, hc⟩ := hd.exists_head
    cases hs with
    | missing => exact ⟨c, rest, rfl, isBlank_of_decimalValue? hc⟩
    | plus => exact ⟨_, _, rfl, by decide⟩
    | minus => exact ⟨_, _, rfl, by decide⟩
  · obtain ⟨front, c, d, rfl, hc⟩ := hd.exists_last
    exact ⟨sign ++ front, c, (List.append_assoc ..).symm, isBlank_of_decimalValue? hc⟩

theorem exists_trimBlanks (t : Text) :
    ∃ before after, t = before ++ trimBlanks t ++ after ∧ IsBlank before ∧ IsBlank after := by
  refine ⟨t.takeWhile CodePoint.isBlank,
    (((t.dropWhile CodePoint.isBlank).reverse).takeWhile CodePoint.isBlank).reverse,
    ?_, fun c => List.mem_takeWhile_imp, fun c hc => List.mem_takeWhile_imp (List.mem_reverse.mp hc)⟩
  rw [List.append_assoc, trimBlanks, ← List.reverse_append, List.takeWhile_append_dropWhile, List.reverse_reverse,
    List.takeWhile_append_dropWhile]

theorem trimBlanks_eq {before core after : Text} (hbefore : IsBlank before) (hafter : IsBlank after)
    (hfirst : ∃ c rest, core = c :: rest ∧ c.isBlank = false)
    (hlast : ∃ front c, core = front ++ [c] ∧ c.isBlank = false) :
    trimBlanks (before ++ core ++ after) = core := by
  have hdrop : (before ++ core ++ after).dropWhile CodePoint.isBlank = core ++ after := by
    obtain ⟨c, rest, rfl, hc⟩ := hfirst
    rw [List.append_assoc, List.dropWhile_append_of_pos hbefore, List.cons_append,
      List.dropWhile_cons_of_neg (by simp [hc])]
  have hdrop' : (core ++ after).reverse.dropWhile CodePoint.isBlank = core.reverse := by
    obtain ⟨front, c, rfl, hc⟩ := hlast
    rw [List.reverse_append, List.dropWhile_append_of_pos (fun c hc => hafter c (List.mem_reverse.mp hc)),
      List.reverse_append, List.reverse_singleton, List.singleton_append, List.dropWhile_cons_of_neg (by simp [hc])]
  rw [trimBlanks, hdrop, hdrop', List.reverse_reverse]

/-! ## Integers -/

theorem exists_decimalValue?_of_decimal? {c : CodePoint} {rest : Text} {k : ℕ} (h : decimal? (c :: rest) = some k) :
    ∃ d, c.decimalValue? = some d := by
  obtain ⟨values, hd, -⟩ := decimal?_eq_some_iff.mp h
  obtain ⟨c', rest', d, he, hc⟩ := hd.exists_head
  cases he
  exact ⟨d, hc⟩

theorem exists_sign_of_integer? {t : Text} {n : ℤ} (h : integer? t = some n) :
    ∃ sign digits negative k, trimBlanks t = sign ++ digits ∧ IsSign sign negative ∧ decimal? digits = some k ∧
      n = signed negative k := by
  rw [integer?] at h
  split at h
  · cases h
  next c rest ht =>
  split at h
  · next hc =>
    obtain ⟨k, hk, rfl⟩ := Option.map_eq_some_iff.mp h
    exact ⟨[c], rest, false, k, ht, hc ▸ .plus, hk, rfl⟩
  split at h
  · next hc =>
    obtain ⟨k, hk, rfl⟩ := Option.map_eq_some_iff.mp h
    exact ⟨[c], rest, true, k, ht, hc ▸ .minus, hk, rfl⟩
  · obtain ⟨k, hk, rfl⟩ := Option.map_eq_some_iff.mp h
    exact ⟨[], c :: rest, false, k, ht, .missing, hk, rfl⟩

theorem integer?_of_sign {t sign digits : Text} {negative : Bool} {k : ℕ} (ht : trimBlanks t = sign ++ digits)
    (hs : IsSign sign negative) (hk : decimal? digits = some k) : integer? t = some (signed negative k) := by
  rw [integer?, ht]
  cases hs with
  | missing =>
    cases digits with
    | nil => cases hk
    | cons c rest =>
      obtain ⟨d, hd⟩ := exists_decimalValue?_of_decimal? hk
      have hne : ∀ sign : CodePoint, sign.decimalValue? = none → c ≠ sign := by
        rintro sign hnone rfl
        rw [hnone] at hd
        cases hd
      simp only [List.nil_append, if_neg (hne _ (show (CodePoint.ofChar '+').decimalValue? = none by decide)),
        if_neg (hne _ (show (CodePoint.ofChar '-').decimalValue? = none by decide)), hk]
      rfl
  | plus =>
    simp only [List.singleton_append, if_true, hk]
    rfl
  | minus =>
    simp only [List.singleton_append, if_neg (show CodePoint.ofChar '-' ≠ CodePoint.ofChar '+' by decide), if_true, hk]
    rfl

/-- **What is read as an integer** is what spells one. -/
theorem integer?_eq_some_iff {t : Text} {n : ℤ} : integer? t = some n ↔ Spells t n := by
  constructor
  · intro h
    obtain ⟨sign, digits, negative, k, ht, hs, hk, rfl⟩ := exists_sign_of_integer? h
    obtain ⟨values, hd, hlen, rfl⟩ := decimal?_eq_some_iff.mp hk
    obtain ⟨before, after, he, hbefore, hafter⟩ := exists_trimBlanks t
    rw [ht] at he
    exact ⟨before, sign, digits, after, negative, values, he, hbefore, hafter, hs, hd, hlen, rfl⟩
  · rintro ⟨before, sign, digits, after, negative, values, rfl, hbefore, hafter, hs, hd, hlen, rfl⟩
    obtain ⟨hfirst, hlast⟩ := isBlank_ends hs hd
    exact integer?_of_sign (trimBlanks_eq hbefore hafter hfirst hlast) hs
      (decimal?_eq_some_iff.mpr ⟨values, hd, hlen, rfl⟩)

/-! ## Decimal texts -/

theorem decimalValue?_ofChar {c : Char} (h : c.isDigit = true) :
    (CodePoint.ofChar c).decimalValue? = some (c.toNat - '0'.toNat) := by
  obtain ⟨hlow, hhigh⟩ := Char.isDigit_iff_toNat.mp h
  -- the ASCII digits are the first alphabet of the table
  have hfound : CodePoint.decimalZeros.find? (fun z => z ≤ c.toNat && c.toNat ≤ z + 9) = some 0x30 := by
    rw [CodePoint.decimalZeros, List.find?_cons_of_pos]
    simpa using And.intro hlow hhigh
  rw [CodePoint.decimalValue?, CodePoint.toNat_ofChar, hfound]
  rfl

theorem digits_map_ofChar {cs : List Char} (hne : cs ≠ []) (h : ∀ c ∈ cs, c.isDigit = true) :
    Digits (cs.map CodePoint.ofChar) (cs.map fun c => c.toNat - '0'.toNat) := by
  induction cs with
  | nil => exact absurd rfl hne
  | cons c cs ih =>
    obtain ⟨hc, hcs⟩ := List.forall_mem_cons.mp h
    by_cases hnil : cs = []
    · subst hnil
      exact .last (decimalValue?_ofChar hc)
    · exact .next (decimalValue?_ofChar hc) (ih hnil hcs)

theorem exists_digits_ofNat (n : ℕ) : ∃ values, Digits (ofNat n) values ∧ values.length = (Nat.toDigits 10 n).length ∧
    n = Nat.ofDigits 10 values.reverse := by
  refine ⟨_, digits_map_ofChar Nat.toDigits_ne_nil fun c hc => Nat.isDigit_of_mem_toDigits (by decide) (by decide) hc,
    List.length_map _, ?_⟩
  calc n = Nat.ofDigitChars 10 (Nat.toDigits 10 n) 0 := Nat.ofDigitChars_ten_toDigits.symm
    _ = ofDigitValues ((Nat.toDigits 10 n).map fun c => c.toNat - '0'.toNat) := by
      rw [Nat.ofDigitChars_eq_foldl, ofDigitValues, List.foldl_map]
      exact List.foldl_ext _ _ _ fun k c _ => by rw [mul_comm]
    _ = Nat.ofDigits 10 ((Nat.toDigits 10 n).map fun c => c.toNat - '0'.toNat).reverse := ofDigitValues_eq _

/-- **The decimal text of an integer spells it**, whatever blanks surround it, unless it has more digits than are
read. -/
theorem spells_ofInt {n : ℤ} (hn : n.natAbs < 10 ^ maxDigits) {before after : Text} (hbefore : IsBlank before)
    (hafter : IsBlank after) : Spells (before ++ ofInt n ++ after) n := by
  obtain ⟨values, hd, hlength, hvalue⟩ := exists_digits_ofNat n.natAbs
  have hlen : values.length ≤ maxDigits := by
    rw [hlength, Nat.length_toDigits_le_iff (by decide) (by decide)]
    exact hn
  have hsign : IsSign (text (if n < 0 then "-" else "")) (decide (n < 0)) := by
    split
    · next h => rw [decide_eq_true h]; exact .minus
    · next h => rw [decide_eq_false h]; exact .missing
  refine ⟨before, _, _, after, decide (n < 0), values, by rw [Json.ofInt_eq], hbefore, hafter, hsign, hd, hlen, ?_⟩
  rw [← hvalue, signed]
  split
  · next h => simp only [decide_eq_true_eq] at h; omega
  · next h => simp only [decide_eq_true_eq] at h; omega

end Text

/-! ## Settings -/

namespace Settings

theorem Numeric.read_of_some {s : Numeric} {env : Environment} {value : Text} (h : env.get? s.name = some value) :
    s.read env = (Text.integer? value).elim (s.standard, [.invalidSetting s.name s.standard]) fun n => (n, []) := by
  simp only [read, h]
  cases Text.integer? value <;> rfl

theorem Numeric.read_of_none {s : Numeric} {env : Environment} (h : env.get? s.name = none) :
    s.read env = (s.standard, []) := by
  rw [read, h]

theorem Numeric.read_eq_iff {s : Numeric} {env : Environment} {value : Text}
    (h : env.get? s.name = some value) (n : ℤ) :
    s.read env = (n, []) ↔ Text.Spells value n := by
  rw [read_of_some h, ← Text.integer?_eq_some_iff]
  cases Text.integer? value with
  | none => simp
  | some m => simp

/-- **What a setting is read as.** The variable is not set exactly if the setting takes its standard value, whatever
that is, and nothing is told. If the variable has a value, then

* the setting is read as an integer, and nothing is told, exactly if the value spells that integer;
* the setting has its standard value, and there is one warning, if the value spells no integer, as the empty one does;
* the decimal text of an integer of at most 4300 digits, with any blanks around it, is read as that integer.

So nothing is told about a setting that has its standard value in two cases only: the variable is not set, or its value
happens to spell the standard one. -/
theorem Numeric.read_spells (s : Numeric) (env : Environment) :
    (env.get? s.name = none ↔ ∀ standard, Numeric.read { s with standard } env = (standard, [])) ∧
    (∀ value, env.get? s.name = some value →
      (∀ n, s.read env = (n, []) ↔ Text.Spells value n) ∧
      ((∀ n, ¬ Text.Spells value n) → s.read env = (s.standard, [.invalidSetting s.name s.standard])) ∧
      ∀ (n : ℤ) (before after : Text), n.natAbs < 10 ^ Text.maxDigits → Text.IsBlank before → Text.IsBlank after →
        value = before ++ Text.ofInt n ++ after → s.read env = (n, [])) ∧
    (s.read env = (s.standard, []) ↔
      env.get? s.name = none ∨ ∃ value, env.get? s.name = some value ∧ Text.Spells value s.standard) ∧
    (∀ n, ¬ Text.Spells [] n) ∧ (Notice.invalidSetting s.name s.standard).level = .warning := by
  have hempty : ∀ n, ¬ Text.Spells [] n := by
    intro n hn
    cases Text.integer?_eq_some_iff.mpr hn
  refine ⟨⟨fun h standard => Numeric.read_of_none (s := { s with standard }) h, fun h => ?_⟩,
    fun value hv => ⟨?_, ?_, ?_⟩, ?_, hempty, rfl⟩
  · -- no value spells two integers
    by_contra hne
    obtain ⟨value, hv⟩ := Option.ne_none_iff_exists'.mp hne
    have h0 := (Numeric.read_eq_iff (s := { s with standard := 0 }) hv 0).mp (h 0)
    have h1 := (Numeric.read_eq_iff (s := { s with standard := 1 }) hv 1).mp (h 1)
    rw [← Text.integer?_eq_some_iff] at h0 h1
    rw [h0] at h1
    cases h1
  · exact Numeric.read_eq_iff hv
  · intro hnone
    have h : Text.integer? value = none := Option.eq_none_iff_forall_ne_some.mpr fun n hn =>
      hnone n (Text.integer?_eq_some_iff.mp hn)
    rw [Numeric.read_of_some hv, h, Option.elim_none]
  · rintro n before after hn hbefore hafter rfl
    exact (Numeric.read_eq_iff hv n).mpr (Text.spells_ofInt hn hbefore hafter)
  · cases hv : env.get? s.name with
    | none => simp [Numeric.read_of_none hv]
    | some value => simp [Numeric.read_eq_iff hv]

/-- Settings with digits of three scripts, with a blank inside, and without a value. -/
def motley : Environment :=
  [(text "SCAN_TIME_LIMIT", text "\t-1_\u0662\uff13 "), (text "MAX_FILE_SIZE", text "+ 5")]

theorem Numeric.read_spells_motley : timeLimit.read motley = (-123, []) ∧
    maxFileSize.read motley = (5242880, [.invalidSetting (text "MAX_FILE_SIZE") 5242880]) ∧
    fetchDepth.read motley = (1, []) := by
  have hspells : Text.Spells (text "\t-1_\u0662\uff13 ") (-123) := Text.integer?_eq_some_iff.mp (by decide)
  have hnone : ∀ n, ¬ Text.Spells (text "+ 5") n := fun n hn => by
    cases Text.integer?_eq_some_iff.mpr hn
  exact ⟨(((Numeric.read_spells timeLimit motley).2.1 _ (by decide)).1 _).mpr hspells,
    ((Numeric.read_spells maxFileSize motley).2.1 _ (by decide)).2.1 hnone,
    (Numeric.read_spells fetchDepth motley).1.mp (by decide) 1⟩

end Settings

end ExtensionAudit
