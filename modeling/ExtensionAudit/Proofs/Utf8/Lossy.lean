import Mathlib
import ExtensionAudit.Proofs.Utf8

/-!
# Reading bytes that are no UTF-8

A sequence ends where a byte cannot continue it, and that byte is read for itself. So bytes read in two pieces read as
the pieces do, if the second one starts with a byte that continues nothing. What is dropped takes no other text with
it.

* `Utf8.Decoder.Ahead`, `Utf8.Decoder.Ahead.run`: a decoder that is another one with some text read before;
* `Utf8.Continues`, **`Utf8.decodeLossy_append_cons`**: where bytes can be cut;
* `Utf8.Foreign`, `Utf8.foreign_iff`: the bytes that stand in no UTF-8;
* `Utf8.decodeLossy_append_ascii`, `Utf8.decodeLossy_append_foreign`, `Utf8.decodeLossy_encodeAll_append`: what such
  bytes and whole texts read as, with any bytes around them;
* **`Utf8.filter_decodeLossy`**: the ASCII characters that come out are the ASCII bytes that go in;
* `Utf8.Laced`, **`Utf8.Laced.decodeLossy_eq`**: foreign bytes put in beside ASCII bytes.
-/

namespace ExtensionAudit.Utf8

/-! ## Text read before -/

namespace Decoder

variable {t : Text} {d d' : Decoder}

/-- **A decoder that has read some text before**, and is else where another one is. -/
structure Ahead (t : Text) (d d' : Decoder) : Prop where
  reversed_eq : d.reversed = d'.reversed ++ t
  pending_eq : d.pending = d'.pending

theorem ahead_emit (h : d.reversed = d'.reversed ++ t) (n : ℕ) : Ahead t (d.emit n) (d'.emit n) := by
  unfold emit
  split
  · exact ⟨congrArg (_ :: ·) h, rfl⟩
  · exact ⟨h, rfl⟩

theorem ahead_start (h : d.reversed = d'.reversed ++ t) (b : UInt8) : Ahead t (d.start b) (d'.start b) := by
  unfold start
  split
  · exact ahead_emit h _
  · exact ⟨h, rfl⟩
  · exact ⟨h, rfl⟩

theorem Ahead.step (h : Ahead t d d') (b : UInt8) : Ahead t (d.step b) (d'.step b) := by
  unfold Decoder.step
  rw [h.pending_eq]
  split
  · exact ahead_start h.reversed_eq b
  · split
    · simp only
      split
      · exact ahead_emit h.reversed_eq _
      · exact ⟨h.reversed_eq, rfl⟩
    · refine ahead_start ?_ b
      exact h.reversed_eq

theorem Ahead.run (h : Ahead t d d') (bytes : Bytes) : Ahead t (d.run bytes) (d'.run bytes) := by
  induction bytes generalizing d d' with
  | nil => exact h
  | cons b bytes ih => exact ih (h.step b)

end Decoder

/-! ## Bytes in two pieces -/

/-- **A byte that may continue a sequence.** -/
def Continues (b : UInt8) : Prop := 0x80 ≤ b.toNat ∧ b.toNat ≤ 0xBF

theorem Decoder.ahead_step {d : Decoder} {b : UInt8} (h : d.Sound) (hb : ¬ Continues b) :
    Ahead d.reversed (d.step b) (({} : Decoder).step b) := by
  have hstart : Ahead d.reversed (d.start b) (({} : Decoder).start b) := ahead_start rfl b
  cases hp : d.pending with
  | none =>
    rw [step_of_start hp]
    exact hstart
  | some p =>
    have hout : ¬ (p.low ≤ b ∧ b ≤ p.high) := by
      rintro ⟨hl, hh⟩
      have hs := h.pending p hp
      exact hb ⟨hs.low_le.trans (UInt8.le_iff_toNat_le.mp hl), (UInt8.le_iff_toNat_le.mp hh).trans hs.high_le⟩
    unfold step
    rw [hp]
    simp only [hout, if_false]
    exact ahead_start rfl b

section Pieces

variable {x y : Bytes}

theorem decodeLossy_append_of_ahead
    (h : Decoder.Ahead (Decoder.run {} x).reversed (Decoder.run {} (x ++ y)) (Decoder.run {} y)) :
    decodeLossy (x ++ y) = decodeLossy x ++ decodeLossy y := by
  rw [decodeLossy, h.reversed_eq, List.reverse_append]
  rfl

/-- **Bytes can be cut in front of a byte that continues no sequence.** -/
theorem decodeLossy_append_cons {b : UInt8} (hb : ¬ Continues b) (x y : Bytes) :
    decodeLossy (x ++ b :: y) = decodeLossy x ++ decodeLossy (b :: y) := by
  refine decodeLossy_append_of_ahead ?_
  rw [Decoder.run_append]
  exact (Decoder.ahead_step (Decoder.sound_empty.run x) hb).run y

theorem decodeLossy_append_of_pending (h : (Decoder.run {} x).pending = none) (y : Bytes) :
    decodeLossy (x ++ y) = decodeLossy x ++ decodeLossy y := by
  refine decodeLossy_append_of_ahead ?_
  rw [Decoder.run_append]
  exact Decoder.Ahead.run ⟨rfl, h⟩ y

theorem decodeLossy_cons {b : UInt8} (h : (Decoder.run {} [b]).pending = none) (y : Bytes) :
    decodeLossy (b :: y) = decodeLossy [b] ++ decodeLossy y :=
  decodeLossy_append_of_pending (x := [b]) h y

/-- **A whole text is read as it is**, whatever bytes follow. -/
theorem decodeLossy_encodeAll_append {t : Text} (ht : t.isEncodable = true) (y : Bytes) :
    decodeLossy (encodeAll t ++ y) = t ++ decodeLossy y := by
  have hrun : Decoder.run {} (encodeAll t) = { reversed := t.reverse } := by
    rw [Decoder.run_encodeAll ht rfl, List.append_nil]
  rw [decodeLossy_append_of_pending (by rw [hrun]), decodeLossy, hrun, List.reverse_reverse]

end Pieces

/-! ## ASCII bytes -/

/-- The ASCII character of a byte. -/
def charOf (b : UInt8) : CodePoint := ⟨b.toNat, b.toNat_lt.trans (by decide)⟩

theorem lead_ascii {b : UInt8} (hb : b.toNat < 0x80) : lead b = .scalar (charOf b).toNat := by
  rw [lead_eq, if_pos hb]
  rfl

theorem run_ascii {b : UInt8} (hb : b.toNat < 0x80) : Decoder.run {} [b] = { reversed := [charOf b] } := by
  rw [Decoder.run, List.foldl_cons, List.foldl_nil, Decoder.step_of_start rfl, Decoder.start, lead_ascii hb]
  simp only [Decoder.emit_toNat]

theorem decodeLossy_cons_ascii {b : UInt8} (hb : b.toNat < 0x80) (y : Bytes) :
    decodeLossy (b :: y) = charOf b :: decodeLossy y := by
  rw [decodeLossy_cons (by rw [run_ascii hb]), decodeLossy, run_ascii hb]
  rfl

/-- **An ASCII byte survives**, whatever stands around it. -/
theorem decodeLossy_append_ascii {b : UInt8} (hb : b.toNat < 0x80) (x y : Bytes) :
    decodeLossy (x ++ b :: y) = decodeLossy x ++ charOf b :: decodeLossy y := by
  have hcontinues : ¬ Continues b := fun h => absurd hb (not_lt.mpr h.1)
  rw [decodeLossy_append_cons hcontinues, decodeLossy_cons_ascii hb]

/-- The byte that breaks off a sequence is read again. -/
example : decodeLossy [0x61, 0xE2, 0x82, 0x62] = text "ab" := by decide

/-! ## Foreign bytes -/

/-- **A byte that stands in no text's UTF-8.** -/
def Foreign (b : UInt8) : Prop := ∀ t : Text, t.isEncodable = true → b ∉ encodeAll t

theorem toNat_of_mem_encodeScalar {c : CodePoint} {b : UInt8} (h : b ∈ encodeScalar c) :
    b.toNat < 0xC0 ∨ (0xC2 ≤ b.toNat ∧ b.toNat < 0xF5) := by
  have hlt := c.toNat_lt
  unfold encodeScalar at h
  simp only at h
  split at h
  · rw [List.mem_singleton.mp h, toNat_toUInt8 (by omega)]
    omega
  split at h
  · simp only [List.mem_cons, List.not_mem_nil, or_false] at h
    rcases h with rfl | rfl <;> rw [toNat_toUInt8 (by omega)] <;> omega
  split at h
  · simp only [List.mem_cons, List.not_mem_nil, or_false] at h
    rcases h with rfl | rfl | rfl <;> rw [toNat_toUInt8 (by omega)] <;> omega
  · simp only [List.mem_cons, List.not_mem_nil, or_false] at h
    rcases h with rfl | rfl | rfl | rfl <;> rw [toNat_toUInt8 (by omega)] <;> omega

/-- A code point that has a byte in its UTF-8, as the first one of a sequence or as the last one. -/
def sample (b : ℕ) : ℕ :=
  if b < 0xC0 then b
  else if b < 0xE0 then (b - 0xC0) * 0x40
  else if b = 0xE0 then 0x800
  else if b < 0xF0 then (b - 0xE0) * 0x1000
  else if b = 0xF0 then 0x10000
  else (b - 0xF0) * 0x40000

theorem exists_mem_encodeScalar {b : UInt8} (hb : b.toNat < 0xC0 ∨ (0xC2 ≤ b.toNat ∧ b.toNat < 0xF5)) :
    ∃ c : CodePoint, c.isSurrogate = false ∧ b ∈ encodeScalar c := by
  have hall : ∀ n : Fin 256, (n < 0xC0 ∨ (0xC2 ≤ n ∧ n < 0xF5)) → ∃ h : sample n < 0x110000,
      CodePoint.isSurrogate ⟨sample n, h⟩ = false ∧ n.val.toUInt8 ∈ encodeScalar ⟨sample n, h⟩ := by
    decide +kernel
  obtain ⟨h, hs, hm⟩ := hall ⟨b.toNat, b.toNat_lt⟩ hb
  exact ⟨⟨sample b.toNat, h⟩, hs, by simpa using hm⟩

theorem foreign_iff {b : UInt8} : Foreign b ↔ b = 0xC0 ∨ b = 0xC1 ∨ 0xF5 ≤ b := by
  have hnum : (b = 0xC0 ∨ b = 0xC1 ∨ 0xF5 ≤ b) ↔ ¬ (b.toNat < 0xC0 ∨ (0xC2 ≤ b.toNat ∧ b.toNat < 0xF5)) := by
    rw [← UInt8.toNat_inj, ← UInt8.toNat_inj, UInt8.le_iff_toNat_le]
    show b.toNat = 0xC0 ∨ b.toNat = 0xC1 ∨ 0xF5 ≤ b.toNat ↔ _
    omega
  rw [hnum]
  constructor
  · intro h hin
    obtain ⟨c, hs, hc⟩ := exists_mem_encodeScalar hin
    refine h [c] (by simpa [Text.isEncodable] using hs) ?_
    rw [encodeAll, List.flatMap_singleton]
    exact hc
  · intro h t _ hm
    obtain ⟨c, -, hc⟩ := List.mem_flatMap.mp hm
    exact h (toNat_of_mem_encodeScalar hc)

theorem run_foreign {b : UInt8} (hb : Foreign b) : Decoder.run {} [b] = { clean := false } := by
  have hlead : lead b = .invalid := by
    rcases foreign_iff.mp hb with rfl | rfl | hle
    · rfl
    · rfl
    · have hle' : 0xF5 ≤ b.toNat := UInt8.le_iff_toNat_le.mp hle
      rw [lead_eq, if_neg (by omega), if_neg (by omega), if_neg (by omega), if_neg (by omega), if_neg (by omega),
        if_neg (by omega), if_neg (by omega), if_neg (by omega), if_neg (by omega)]
  rw [Decoder.run, List.foldl_cons, List.foldl_nil, Decoder.step_of_start rfl, Decoder.start, hlead]

theorem decodeLossy_cons_foreign {b : UInt8} (hb : Foreign b) (y : Bytes) : decodeLossy (b :: y) = decodeLossy y := by
  rw [decodeLossy_cons (by rw [run_foreign hb]), decodeLossy, run_foreign hb]
  rfl

theorem Foreign.not_continues {b : UInt8} (hb : Foreign b) : ¬ Continues b := by
  rintro ⟨-, hle⟩
  rcases foreign_iff.mp hb with rfl | rfl | hb
  · exact absurd hle (by decide)
  · exact absurd hle (by decide)
  · have hb' : 0xF5 ≤ b.toNat := UInt8.le_iff_toNat_le.mp hb
    omega

/-- **A foreign byte is dropped**, and nothing with it. -/
theorem decodeLossy_append_foreign {b : UInt8} (hb : Foreign b) (x y : Bytes) :
    decodeLossy (x ++ b :: y) = decodeLossy x ++ decodeLossy y := by
  rw [decodeLossy_append_cons hb.not_continues, decodeLossy_cons_foreign hb]

/-! ## All ASCII bytes -/

/-- Is the code point an ASCII character? -/
def isAsciiChar (c : CodePoint) : Bool := c.toNat < 0x80

/-- Is the byte an ASCII character? -/
def isAsciiByte (b : UInt8) : Bool := b.toNat < 0x80

theorem Pending.le_least_of_lead {b : UInt8} {p : Pending} (h : lead b = .pending p) : 0x80 ≤ p.least := by
  have hall : ∀ n : Fin 256, (match lead n.val.toUInt8 with
      | .pending p => decide (0x80 ≤ p.least)
      | _ => true) = true := by
    decide +kernel
  have hb := hall ⟨b.toNat, b.toNat_lt⟩
  have hbyte : b.toNat.toUInt8 = b := by simp
  simp only [hbyte, h] at hb
  exact of_decide_eq_true hb

namespace Decoder

variable {d : Decoder}

/-- No sequence under way can end in an ASCII character. -/
def IsLong (d : Decoder) : Prop := ∀ p, d.pending = some p → 0x80 ≤ p.least

theorem filter_emit {n : ℕ} (hn : 0x80 ≤ n) (d : Decoder) :
    (d.emit n).reversed.filter isAsciiChar = d.reversed.filter isAsciiChar ∧ (d.emit n).IsLong := by
  unfold emit CodePoint.ofNat?
  split
  · next c hc =>
    split at hc
    · cases hc
      refine ⟨List.filter_cons_of_neg ?_, fun p hp => by cases hp⟩
      simpa [isAsciiChar] using hn
    · cases hc
  · exact ⟨rfl, fun p hp => by cases hp⟩

theorem filter_start (d : Decoder) (b : UInt8) : (d.start b).reversed.filter isAsciiChar =
    ([b].filter isAsciiByte).map charOf ++ d.reversed.filter isAsciiChar ∧ (d.start b).IsLong := by
  by_cases hb : b.toNat < 0x80
  · have hchar : isAsciiChar (charOf b) = true := decide_eq_true hb
    rw [start, lead_ascii hb]
    simp only [emit_toNat]
    have hbyte : isAsciiByte b = true := decide_eq_true hb
    rw [List.filter_cons_of_pos hchar, List.filter_cons_of_pos hbyte]
    exact ⟨rfl, fun p hp => by cases hp⟩
  · rw [List.filter_cons_of_neg (by simpa [isAsciiByte] using hb)]
    unfold start
    split
    · next n hn =>
      rw [lead_eq, if_neg hb] at hn
      split_ifs at hn
    · next p hp => exact ⟨rfl, fun q hq => Option.some.inj hq ▸ Pending.le_least_of_lead hp⟩
    · exact ⟨rfl, fun p hp => by cases hp⟩

theorem filter_step (h : d.Sound) (hl : d.IsLong) (b : UInt8) : (d.step b).reversed.filter isAsciiChar =
    ([b].filter isAsciiByte).map charOf ++ d.reversed.filter isAsciiChar ∧ (d.step b).IsLong := by
  unfold step
  split
  · exact filter_start d b
  · next p hp =>
    split
    · next hin =>
      have hlow : p.low.toNat ≤ b.toNat := UInt8.le_iff_toNat_le.mp hin.1
      have hbyte : isAsciiByte b = false := decide_eq_false (by have := (h.pending p hp).low_le; omega)
      rw [List.filter_cons_of_neg (by simp [hbyte])]
      simp only
      split
      · next hm =>
        refine filter_emit ?_ d
        have hleast := hl p hp
        have hzero : p.missing - 1 = 0 := by omega
        rw [Pending.least, hzero, pow_zero, mul_one] at hleast
        omega
      · next hm =>
        refine ⟨rfl, fun q hq => ?_⟩
        obtain rfl := Option.some.inj hq
        exact (hl p hp).trans (Pending.least_le_plain (by omega) hlow)
    · exact filter_start _ b

theorem filter_run (h : d.Sound) (hl : d.IsLong) (bytes : Bytes) : (d.run bytes).reversed.filter isAsciiChar =
    ((bytes.filter isAsciiByte).map charOf).reverse ++ d.reversed.filter isAsciiChar := by
  induction bytes generalizing d with
  | nil => rfl
  | cons b bytes ih =>
    obtain ⟨hstep, hlong⟩ := filter_step h hl b
    rw [show d.run (b :: bytes) = (d.step b).run bytes from rfl, ih (h.step b) hlong, hstep,
      show b :: bytes = [b] ++ bytes from rfl, List.filter_append, List.map_append, List.reverse_append,
      List.append_assoc]
    congr 2
    by_cases hb : isAsciiByte b = true <;> simp [hb]

end Decoder

/-- **Every ASCII byte survives**, in order, and no other ASCII character comes out. -/
theorem filter_decodeLossy (bytes : Bytes) :
    (decodeLossy bytes).filter isAsciiChar = (bytes.filter isAsciiByte).map charOf := by
  have hlong : ({} : Decoder).IsLong := fun p hp => by cases hp
  rw [decodeLossy, List.filter_reverse, Decoder.filter_run Decoder.sound_empty hlong]
  simp

/-! ## Foreign bytes beside ASCII bytes -/

/-- **A place beside an ASCII byte**, or at an end. -/
def BesideAscii (x y : Bytes) : Prop := (∀ b ∈ x.getLast?, b.toNat < 0x80) ∨ ∀ b ∈ y.head?, b.toNat < 0x80

/-- **Bytes with foreign ones put in**, each beside an ASCII byte or at an end. -/
inductive Laced (bytes : Bytes) : Bytes → Prop where
  | refl : Laced bytes bytes
  | insert {x y : Bytes} {b : UInt8} (h : Laced bytes (x ++ y)) (hb : Foreign b) (hxy : BesideAscii x y) :
      Laced bytes (x ++ b :: y)

theorem BesideAscii.decodeLossy_append {x y : Bytes} (h : BesideAscii x y) :
    decodeLossy (x ++ y) = decodeLossy x ++ decodeLossy y := by
  rcases h with h | h
  · rcases List.eq_nil_or_concat x with rfl | ⟨init, b, rfl⟩
    · rfl
    · have hb : b.toNat < 0x80 := h b (by simp)
      rw [List.concat_eq_append, List.append_assoc, List.singleton_append, decodeLossy_append_ascii hb,
        decodeLossy_append_ascii hb, List.append_assoc]
      rfl
  · cases y with
    | nil => rw [List.append_nil, show decodeLossy [] = [] from rfl, List.append_nil]
    | cons b y =>
      have hb : b.toNat < 0x80 := h b rfl
      rw [decodeLossy_append_ascii hb, decodeLossy_cons_ascii hb]

/-- **Foreign bytes beside ASCII bytes change nothing.** -/
theorem Laced.decodeLossy_eq {bytes bytes' : Bytes} (h : Laced bytes bytes') :
    decodeLossy bytes' = decodeLossy bytes := by
  induction h with
  | refl => rfl
  | insert _ hb hxy ih => rw [decodeLossy_append_foreign hb, ← hxy.decodeLossy_append, ih]

end ExtensionAudit.Utf8
