import Mathlib
import ExtensionAudit.Text.Utf8

/-!
# Reading UTF-8 back

The bytes of a text without surrogates read back as that text. Whatever bytes are read, no surrogate comes out.

* `Utf8.lead_eq`, `Utf8.Decoder.step_of_pending`: the first byte of a sequence and those that continue it;
* **`Utf8.Decoder.run_encodeScalar`**, **`Utf8.decodeStrict_encodeAll`**: what the bytes of a text read as;
* `Utf8.Pending.Sound`, `Utf8.Decoder.Sound.step`, **`Utf8.isEncodable_decodeLossy`**: text that was read can be
  written.
-/

namespace ExtensionAudit

theorem CodePoint.ofNat?_toNat (c : CodePoint) : ofNat? c.toNat = some c := dif_pos c.toNat_lt

theorem Text.isEncodable_iff {t : Text} : t.isEncodable = true ↔ ∀ c ∈ t, c.isSurrogate = false := by
  simp [isEncodable]

theorem Text.isEncodable_append {t t' : Text} :
    (t ++ t').isEncodable = true ↔ t.isEncodable = true ∧ t'.isEncodable = true := by
  simp only [isEncodable, List.all_append, Bool.and_eq_true]

theorem CodePoint.isSurrogate_ofChar (c : Char) : (ofChar c).isSurrogate = false := by
  have hvalid : c.toNat < 0xD800 ∨ (0xDFFF < c.toNat ∧ c.toNat < 0x110000) := c.valid
  rw [isSurrogate, toNat_ofChar, Bool.and_eq_false_iff, decide_eq_false_iff_not, decide_eq_false_iff_not]
  omega

theorem Text.isEncodable_map_ofChar (cs : List Char) : Text.isEncodable (cs.map CodePoint.ofChar) = true := by
  rw [isEncodable_iff]
  intro c hc
  obtain ⟨d, -, rfl⟩ := List.mem_map.mp hc
  exact CodePoint.isSurrogate_ofChar d

theorem Text.isEncodable_ofInt (n : ℤ) : (ofInt n).isEncodable = true := by
  cases n with
  | ofNat n => exact isEncodable_map_ofChar _
  | negSucc n => exact isEncodable_map_ofChar ('-' :: _)

namespace Utf8

/-! ## Single bytes -/

theorem toNat_toUInt8 {n : ℕ} (h : n < 256) : n.toUInt8.toNat = n := by
  simpa using Nat.mod_eq_of_lt h

theorem lead_eq (b : UInt8) : lead b =
    if b.toNat < 0x80 then .scalar b.toNat
    else if b.toNat < 0xC2 then .invalid
    else if b.toNat < 0xE0 then .pending (.plain (b.toNat - 0xC0) 1)
    else if b.toNat = 0xE0 then .pending ⟨0, 2, 0xA0, 0xBF⟩
    else if b.toNat = 0xED then .pending ⟨0xD, 2, 0x80, 0x9F⟩
    else if b.toNat < 0xF0 then .pending (.plain (b.toNat - 0xE0) 2)
    else if b.toNat = 0xF0 then .pending ⟨0, 3, 0x90, 0xBF⟩
    else if b.toNat < 0xF4 then .pending (.plain (b.toNat - 0xF0) 3)
    else if b.toNat = 0xF4 then .pending ⟨4, 3, 0x80, 0x8F⟩
    else .invalid := by
  simp only [lead, UInt8.lt_iff_toNat_lt, ← UInt8.toNat_inj]
  rfl

namespace Decoder

variable {d : Decoder} {p : Pending}

theorem step_of_pending {b : UInt8} (hd : d.pending = some p) (hl : p.low.toNat ≤ b.toNat)
    (hh : b.toNat ≤ p.high.toNat) : d.step b =
      if p.missing ≤ 1 then d.emit (p.value * 0x40 + (b.toNat - 0x80))
      else { d with pending := some (.plain (p.value * 0x40 + (b.toNat - 0x80)) (p.missing - 1)) } := by
  have hb : p.low ≤ b ∧ b ≤ p.high := ⟨UInt8.le_iff_toNat_le.mpr hl, UInt8.le_iff_toNat_le.mpr hh⟩
  unfold step
  rw [hd]
  exact if_pos hb

theorem step_of_start {b : UInt8} (hd : d.pending = none) : d.step b = d.start b := by
  rw [step, hd]

theorem run_append (d : Decoder) (x y : Bytes) : d.run (x ++ y) = (d.run x).run y := List.foldl_append

theorem emit_toNat (d : Decoder) (c : CodePoint) :
    d.emit c.toNat = { d with reversed := c :: d.reversed, pending := none } := by
  unfold emit
  rw [CodePoint.ofNat?_toNat]

end Decoder

/-! ## Sequences -/

section Sequences

variable {n : ℕ}

theorem lead_two (h : 0x80 ≤ n) (h' : n < 0x800) :
    lead (0xC0 + n / 0x40).toUInt8 = .pending (.plain (n / 0x40) 1) := by
  rw [lead_eq, toNat_toUInt8 (by omega), if_neg (by omega), if_neg (by omega), if_pos (by omega)]
  rw [Nat.add_sub_cancel_left]

theorem lead_three (h : 0x800 ≤ n) (h' : n < 0x10000) (hs : n < 0xD800 ∨ 0xDFFF < n) :
    ∃ p, lead (0xE0 + n / 0x1000).toUInt8 = .pending p ∧ p.value = n / 0x1000 ∧ p.missing = 2 ∧
      p.low.toNat ≤ 0x80 + n / 0x40 % 0x40 ∧ 0x80 + n / 0x40 % 0x40 ≤ p.high.toNat := by
  rw [lead_eq, toNat_toUInt8 (by omega), if_neg (by omega), if_neg (by omega), if_neg (by omega)]
  split
  · refine ⟨_, rfl, ?_, rfl, ?_, ?_⟩
    · show 0 = n / 0x1000
      omega
    · show 0xA0 ≤ 0x80 + n / 0x40 % 0x40
      omega
    · show 0x80 + n / 0x40 % 0x40 ≤ 0xBF
      omega
  split
  · refine ⟨_, rfl, ?_, rfl, ?_, ?_⟩
    · show 0xD = n / 0x1000
      omega
    · show 0x80 ≤ 0x80 + n / 0x40 % 0x40
      omega
    · show 0x80 + n / 0x40 % 0x40 ≤ 0x9F
      omega
  rw [if_pos (by omega)]
  refine ⟨_, rfl, ?_, rfl, ?_, ?_⟩
  · show 0xE0 + n / 0x1000 - 0xE0 = n / 0x1000
    omega
  · show 0x80 ≤ 0x80 + n / 0x40 % 0x40
    omega
  · show 0x80 + n / 0x40 % 0x40 ≤ 0xBF
    omega

theorem lead_four (h : 0x10000 ≤ n) (h' : n < 0x110000) :
    ∃ p, lead (0xF0 + n / 0x40000).toUInt8 = .pending p ∧ p.value = n / 0x40000 ∧ p.missing = 3 ∧
      p.low.toNat ≤ 0x80 + n / 0x1000 % 0x40 ∧ 0x80 + n / 0x1000 % 0x40 ≤ p.high.toNat := by
  rw [lead_eq, toNat_toUInt8 (by omega), if_neg (by omega), if_neg (by omega), if_neg (by omega),
    if_neg (by omega), if_neg (by omega), if_neg (by omega)]
  split
  · refine ⟨_, rfl, ?_, rfl, ?_, ?_⟩
    · show 0 = n / 0x40000
      omega
    · show 0x90 ≤ 0x80 + n / 0x1000 % 0x40
      omega
    · show 0x80 + n / 0x1000 % 0x40 ≤ 0xBF
      omega
  split
  · refine ⟨_, rfl, ?_, rfl, ?_, ?_⟩
    · show 0xF0 + n / 0x40000 - 0xF0 = n / 0x40000
      omega
    · show 0x80 ≤ 0x80 + n / 0x1000 % 0x40
      omega
    · show 0x80 + n / 0x1000 % 0x40 ≤ 0xBF
      omega
  rw [if_pos (by omega)]
  refine ⟨_, rfl, ?_, rfl, ?_, ?_⟩
  · show 4 = n / 0x40000
    omega
  · show 0x80 ≤ 0x80 + n / 0x1000 % 0x40
    omega
  · show 0x80 + n / 0x1000 % 0x40 ≤ 0x8F
    omega

end Sequences

namespace Decoder

variable {d : Decoder}

theorem step_last {p : Pending} {c : CodePoint} (hd : d.pending = some p) (hm : p.missing = 1)
    (hv : p.value = c.toNat / 0x40) (hl : p.low.toNat ≤ 0x80 + c.toNat % 0x40)
    (hh : 0x80 + c.toNat % 0x40 ≤ p.high.toNat) :
    d.step (0x80 + c.toNat % 0x40).toUInt8 = { d with reversed := c :: d.reversed, pending := none } := by
  have hb : (0x80 + c.toNat % 0x40).toUInt8.toNat = 0x80 + c.toNat % 0x40 := toNat_toUInt8 (by omega)
  rw [step_of_pending hd (by rw [hb]; exact hl) (by rw [hb]; exact hh), if_pos hm.le, hb,
    show p.value * 0x40 + (0x80 + c.toNat % 0x40 - 0x80) = c.toNat by omega, emit_toNat]

theorem step_middle {p : Pending} {n : ℕ} (hd : d.pending = some p) (hm : 1 < p.missing)
    (hv : p.value = n / 0x40) (hl : p.low.toNat ≤ 0x80 + n % 0x40) (hh : 0x80 + n % 0x40 ≤ p.high.toNat) :
    d.step (0x80 + n % 0x40).toUInt8 = { d with pending := some (.plain n (p.missing - 1)) } := by
  have hb : (0x80 + n % 0x40).toUInt8.toNat = 0x80 + n % 0x40 := toNat_toUInt8 (by omega)
  rw [step_of_pending hd (by rw [hb]; exact hl) (by rw [hb]; exact hh), if_neg (by omega), hb,
    show p.value * 0x40 + (0x80 + n % 0x40 - 0x80) = n by omega]

/-- **The bytes of a code point** that is no surrogate read as that code point. -/
theorem run_encodeScalar {c : CodePoint} (hc : c.isSurrogate = false) (hd : d.pending = none) :
    d.run (encodeScalar c) = { d with reversed := c :: d.reversed } := by
  have hs : c.toNat < 0xD800 ∨ 0xDFFF < c.toNat := by
    simp only [CodePoint.isSurrogate, Bool.and_eq_false_iff, decide_eq_false_iff_not] at hc
    omega
  have hlt := c.toNat_lt
  have hnone : ({ d with reversed := c :: d.reversed, pending := none } : Decoder) =
      { d with reversed := c :: d.reversed } := by rw [← hd]
  unfold encodeScalar
  simp only
  split
  · rw [run, List.foldl_cons, List.foldl_nil, step_of_start hd, start, lead_eq,
      toNat_toUInt8 (by omega), if_pos ‹_›]
    simp only [emit_toNat, hnone]
  split
  · rw [run, List.foldl_cons, List.foldl_cons, List.foldl_nil, step_of_start hd, start,
      lead_two (by omega) ‹_›]
    simp only
    rw [step_last rfl rfl rfl (by show 0x80 ≤ _; omega) (by show _ ≤ 0xBF; omega), hnone]
  split
  · obtain ⟨p, hp, hv, hm, hl, hh⟩ := lead_three (n := c.toNat) (by omega) ‹_› hs
    rw [run, List.foldl_cons, List.foldl_cons, List.foldl_cons, List.foldl_nil, step_of_start hd, start, hp]
    simp only
    rw [step_middle rfl (by omega) (by omega) hl hh, hm]
    rw [step_last rfl rfl rfl (by show 0x80 ≤ _; omega) (by show _ ≤ 0xBF; omega), hnone]
  · obtain ⟨p, hp, hv, hm, hl, hh⟩ := lead_four (n := c.toNat) (by omega) hlt
    rw [run, List.foldl_cons, List.foldl_cons, List.foldl_cons, List.foldl_cons, List.foldl_nil,
      step_of_start hd, start, hp]
    simp only
    rw [step_middle rfl (by omega) (by omega) hl hh, hm]
    have hmiddle : c.toNat / 0x1000 = c.toNat / 0x40 / 0x40 := by omega
    rw [step_middle (p := .plain (c.toNat / 0x1000) 2) (n := c.toNat / 0x40) rfl one_lt_two hmiddle
      (by show 0x80 ≤ _; omega) (by show _ ≤ 0xBF; omega)]
    rw [step_last rfl rfl rfl (by show 0x80 ≤ _; omega) (by show _ ≤ 0xBF; omega), hnone]

theorem run_encodeAll {t : Text} (ht : t.isEncodable = true) (hd : d.pending = none) :
    d.run (encodeAll t) = { d with reversed := t.reverse ++ d.reversed } := by
  induction t generalizing d with
  | nil => rfl
  | cons c t ih =>
    simp only [Text.isEncodable, List.all_cons, Bool.and_eq_true, Bool.not_eq_true'] at ht
    rw [show encodeAll (c :: t) = encodeScalar c ++ encodeAll t from rfl, run_append, run_encodeScalar ht.1 hd,
      ih (d := { d with reversed := c :: d.reversed }) ht.2 hd]
    simp

end Decoder

/-- **A text without surrogates is read back from its bytes.** -/
theorem decodeStrict_encodeAll {t : Text} (ht : t.isEncodable = true) : decodeStrict (encodeAll t) = some t := by
  rw [decodeStrict, Decoder.run_encodeAll ht rfl]
  simp

/-! ## Surrogates -/

namespace Pending

/-- The least and the greatest number that a sequence under way can end in. -/
def least (p : Pending) : ℕ := (p.value * 0x40 + (p.low.toNat - 0x80)) * 0x40 ^ (p.missing - 1)

@[inherit_doc least]
def greatest (p : Pending) : ℕ := (p.value * 0x40 + (p.high.toNat - 0x80) + 1) * 0x40 ^ (p.missing - 1) - 1

/-- **A sequence under way cannot end in a surrogate.** -/
structure Sound (p : Pending) : Prop where
  low_le : 0x80 ≤ p.low.toNat
  high_le : p.high.toNat ≤ 0xBF
  avoids : p.greatest < 0xD800 ∨ 0xDFFF < p.least

section Plain

variable (v k : ℕ)

@[simp]
theorem low_plain : (plain v k).low.toNat = 0x80 := rfl

@[simp]
theorem high_plain : (plain v k).high.toNat = 0xBF := rfl

theorem least_plain : (plain v (k + 1)).least = v * 0x40 * 0x40 ^ k := by
  simp [least, plain]

theorem greatest_plain : (plain v (k + 1)).greatest = (v + 1) * 0x40 * 0x40 ^ k - 1 := by
  have hv : v * 0x40 + (0xBF - 0x80) + 1 = (v + 1) * 0x40 := by omega
  rw [greatest, high_plain, ← hv]
  rfl

theorem sound_plain_of (h : (plain v k).greatest < 0xD800 ∨ 0xDFFF < (plain v k).least) : (plain v k).Sound :=
  ⟨(low_plain v k).ge, (high_plain v k).le, h⟩

end Plain

theorem least_le_plain {p : Pending} (hm : 1 < p.missing) {b : ℕ} (hl : p.low.toNat ≤ b) :
    p.least ≤ (plain (p.value * 0x40 + (b - 0x80)) (p.missing - 1)).least := by
  obtain ⟨k, hk⟩ : ∃ k, p.missing - 1 = k + 1 := ⟨p.missing - 2, by omega⟩
  rw [hk, least_plain, least, hk, pow_succ', ← mul_assoc]
  exact Nat.mul_le_mul_right _ (Nat.mul_le_mul_right _ (by omega))

theorem sound_plain {p : Pending} (h : p.Sound) (hm : 1 < p.missing) {b : ℕ} (hl : p.low.toNat ≤ b)
    (hh : b ≤ p.high.toNat) : (plain (p.value * 0x40 + (b - 0x80)) (p.missing - 1)).Sound := by
  have hlow := h.low_le
  have hleast := least_le_plain hm hl
  obtain ⟨k, hk⟩ : ∃ k, p.missing - 1 = k + 1 := ⟨p.missing - 2, by omega⟩
  have hgreatest : (plain (p.value * 0x40 + (b - 0x80)) (k + 1)).greatest ≤ p.greatest := by
    rw [greatest_plain, greatest, hk, pow_succ', ← mul_assoc]
    exact Nat.sub_le_sub_right (Nat.mul_le_mul_right _ (Nat.mul_le_mul_right _ (by omega))) 1
  rw [hk] at hleast ⊢
  refine sound_plain_of _ _ ?_
  rcases h.avoids with ha | ha
  · exact Or.inl (hgreatest.trans_lt ha)
  · exact Or.inr (ha.trans_le hleast)

theorem sound_of_lead {b : UInt8} {p : Pending} (h : lead b = .pending p) : p.Sound := by
  have hb := UInt8.toNat_lt_size b
  rw [lead_eq] at h
  split at h
  · cases h
  split at h
  · cases h
  split at h
  · obtain rfl := Lead.pending.inj h
    have hg : (b.toNat - 0xC0 + 1) * 0x40 * 0x40 ^ 0 - 1 < 0xD800 := by omega
    exact sound_plain_of _ _ (Or.inl ((greatest_plain _ 0).trans_lt hg))
  split at h
  · obtain rfl := Lead.pending.inj h
    exact ⟨by decide, by decide, by decide⟩
  split at h
  · obtain rfl := Lead.pending.inj h
    exact ⟨by decide, by decide, by decide⟩
  split at h
  · obtain rfl := Lead.pending.inj h
    have ha : (b.toNat - 0xE0 + 1) * 0x40 * 0x40 ^ 1 - 1 < 0xD800 ∨
        0xDFFF < (b.toNat - 0xE0) * 0x40 * 0x40 ^ 1 := by omega
    exact sound_plain_of _ _ (ha.imp (greatest_plain _ 1).trans_lt fun hl => hl.trans_eq (least_plain _ 1).symm)
  split at h
  · obtain rfl := Lead.pending.inj h
    exact ⟨by decide, by decide, by decide⟩
  split at h
  · obtain rfl := Lead.pending.inj h
    have hl : 0xDFFF < (b.toNat - 0xF0) * 0x40 * 0x40 ^ 2 := by omega
    exact sound_plain_of _ _ (Or.inr (hl.trans_eq (least_plain _ 2).symm))
  split at h
  · obtain rfl := Lead.pending.inj h
    exact ⟨by decide, by decide, by decide⟩
  · cases h

theorem avoids_of_last {p : Pending} (h : p.Sound) (hm : p.missing ≤ 1) {b : ℕ} (hl : p.low.toNat ≤ b)
    (hh : b ≤ p.high.toNat) :
    p.value * 0x40 + (b - 0x80) < 0xD800 ∨ 0xDFFF < p.value * 0x40 + (b - 0x80) := by
  have hzero : p.missing - 1 = 0 := by omega
  have hlow := h.low_le
  have ha := h.avoids
  simp only [least, greatest, hzero, pow_zero, mul_one] at ha
  omega

end Pending

namespace Decoder

/-- No surrogate has come out, and none can come out of the sequence under way. -/
structure Sound (d : Decoder) : Prop where
  text : ∀ c ∈ d.reversed, c.isSurrogate = false
  pending : ∀ p, d.pending = some p → p.Sound

theorem sound_empty : ({} : Decoder).Sound := ⟨fun c hc => absurd hc List.not_mem_nil, fun p hp => by cases hp⟩

variable {d : Decoder}

theorem Sound.emit (h : d.Sound) {n : ℕ} (hn : n < 0xD800 ∨ 0xDFFF < n) : (d.emit n).Sound := by
  unfold Decoder.emit
  split
  case h_1 c hc =>
    have hc' : c.toNat = n := by
      unfold CodePoint.ofNat? at hc
      split at hc
      · exact (congrArg CodePoint.toNat (Option.some.inj hc)).symm
      · cases hc
    refine ⟨fun x hx => ?_, fun p hp => by cases hp⟩
    rcases List.mem_cons.mp hx with rfl | hx
    · simp only [CodePoint.isSurrogate, Bool.and_eq_false_iff, decide_eq_false_iff_not]
      omega
    · exact h.text x hx
  case h_2 => exact ⟨h.text, fun p hp => by cases hp⟩

theorem Sound.start (h : d.Sound) (b : UInt8) : (d.start b).Sound := by
  unfold Decoder.start
  split
  case h_1 n hn =>
    have hlt : n < 0x80 := by
      rw [lead_eq] at hn
      split at hn
      · exact Lead.scalar.inj hn ▸ ‹_›
      · split_ifs at hn
    exact h.emit (Or.inl (by omega))
  case h_2 p hp =>
    exact ⟨h.text, fun q hq => Option.some.inj hq ▸ Pending.sound_of_lead hp⟩
  case h_3 => exact ⟨h.text, fun p hp => by cases hp⟩

theorem Sound.step (h : d.Sound) (b : UInt8) : (d.step b).Sound := by
  unfold Decoder.step
  split
  case h_1 => exact h.start b
  case h_2 p hp =>
    have hs := h.pending p hp
    split
    case isTrue hb =>
      have hl : p.low.toNat ≤ b.toNat := UInt8.le_iff_toNat_le.mp hb.1
      have hh : b.toNat ≤ p.high.toNat := UInt8.le_iff_toNat_le.mp hb.2
      by_cases hm : p.missing ≤ 1
      · rw [if_pos hm]
        exact h.emit (Pending.avoids_of_last hs hm hl hh)
      · rw [if_neg hm]
        refine ⟨h.text, fun q hq => ?_⟩
        obtain rfl := Option.some.inj hq
        exact Pending.sound_plain hs (by omega) hl hh
    case isFalse =>
      have hd : ({ d with clean := false } : Decoder).Sound := ⟨h.text, h.pending⟩
      exact hd.start b

theorem Sound.run (h : d.Sound) (bytes : Bytes) : (d.run bytes).Sound := by
  induction bytes generalizing d with
  | nil => exact h
  | cons b bytes ih => exact ih (h.step b)

end Decoder

/-- **No surrogate comes out of bytes**, whatever they are. -/
theorem isEncodable_decodeLossy (bytes : Bytes) : (decodeLossy bytes).isEncodable = true := by
  rw [Text.isEncodable_iff]
  exact fun c hc => (Decoder.sound_empty.run bytes).text c (List.mem_reverse.mp hc)

end Utf8

end ExtensionAudit
