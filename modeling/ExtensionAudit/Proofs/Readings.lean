import Mathlib
import ExtensionAudit.Clock

/-!
# Readings of the clock

The clock is read once when the files of a package are begun, and once before each of them. The first
reading past the deadline ends the work; nothing is assumed about the order of the readings.

* `Clock.reading`: the readings by their number;
* `Clock.Late`: the files before which the time is over;
* **`Clock.reach_eq`**, `Clock.reach_unlimited`: how many files are reached;
* `Clock.Tighter`, `Clock.reach_mono`: a tighter limit reaches no more of them.
-/

namespace ExtensionAudit.Clock

/-- The readings from zero on. The last one repeats for ever. -/
def reading (clock : Clock) (i : ℕ) : ℚ := (clock[min i (clock.length - 1)]?).getD 0

theorem reading_zero (clock : Clock) : clock.reading 0 = clock.now := by
  cases clock <;> rfl

theorem reading_next (clock : Clock) (i : ℕ) : clock.next.reading i = clock.reading (i + 1) := by
  match clock with
  | [] => rfl
  | [c] => simp [next, reading]
  | a :: b :: rest =>
    have h : min (i + 1) (rest.length + 1) = min i rest.length + 1 := by omega
    simp [next, reading, h]

/-- The files, counted from one, before which the time is over. -/
def Late (clock : Clock) (limit : ℤ) (n : ℕ) : Set ℕ :=
  {i | 1 ≤ i ∧ i ≤ n ∧ clock.reading 0 + limit < clock.reading i}

theorem reachUntil_eq (deadline : ℚ) (n : ℕ) (clock : Clock) :
    (∀ i < (reachUntil deadline n clock).1, clock.reading i ≤ deadline) ∧
      ((reachUntil deadline n clock).1 < n → deadline < clock.reading (reachUntil deadline n clock).1) := by
  induction n generalizing clock with
  | zero => simp [reachUntil]
  | succ n ih =>
    rw [reachUntil]
    split
    · next h =>
      rw [← reading_zero] at h
      exact ⟨by simp, fun _ => h⟩
    · next h =>
      rw [← reading_zero, not_lt] at h
      obtain ⟨hle, hlt⟩ := ih clock.next
      constructor
      · intro i hi
        cases i with
        | zero => exact h
        | succ i =>
          rw [← reading_next]
          exact hle i (Nat.lt_of_succ_lt_succ hi)
      · intro hn
        show deadline < clock.reading (_ + 1)
        rw [← reading_next]
        exact hlt (Nat.lt_of_succ_lt_succ hn)

/-- **How many files are reached within a time limit**: all those before the first late one. -/
theorem reach_eq {limit : ℤ} (hl : 0 < limit) (n : ℕ) (clock : Clock) :
    (n ≤ (clock.reach limit n).1 ∧ clock.Late limit n = ∅) ∨
      ((clock.reach limit n).1 < n ∧ IsLeast (clock.Late limit n) ((clock.reach limit n).1 + 1)) := by
  have hle := reach_le limit n clock
  have hr : (clock.reach limit n).1 = (reachUntil (clock.reading 0 + limit) n clock.next).1 := by
    rw [reach, if_pos hl, reading_zero]
  obtain ⟨hb, ha⟩ := reachUntil_eq (clock.reading 0 + limit) n clock.next
  rw [← hr] at hb ha
  -- a late file has a number beyond those that are reached
  have hlate : ∀ i ∈ clock.Late limit n, (clock.reach limit n).1 + 1 ≤ i := by
    rintro i ⟨h₁, -, h₃⟩
    by_contra hi
    obtain ⟨j, rfl⟩ : ∃ j, i = j + 1 := ⟨i - 1, by omega⟩
    have := hb j (by omega)
    rw [reading_next] at this
    exact absurd h₃ (not_lt.mpr this)
  by_cases hn : (clock.reach limit n).1 < n
  · refine Or.inr ⟨hn, ⟨by omega, hn, ?_⟩, hlate⟩
    rw [← reading_next]
    exact ha hn
  · refine Or.inl ⟨by omega, Set.eq_empty_of_forall_notMem fun i hi => ?_⟩
    have h₁ := hlate i hi
    have h₂ := hi.2.1
    omega

theorem reach_unlimited {limit : ℤ} (hl : limit ≤ 0) (n : ℕ) (clock : Clock) :
    (clock.reach limit n).1 = n := by
  rw [reach, if_neg (not_lt.mpr hl)]

/-- **A limit that leaves no more time** than another one. A limit that is not positive is none. -/
def Tighter (limit limit' : ℤ) : Prop := limit' ≤ 0 ∨ (0 < limit ∧ limit ≤ limit')

theorem reachUntil_mono {deadline deadline' : ℚ} (h : deadline ≤ deadline') (n : ℕ) (clock : Clock) :
    (reachUntil deadline n clock).1 ≤ (reachUntil deadline' n clock).1 := by
  by_contra hlt
  rw [not_le] at hlt
  -- the later deadline would be over at a reading that the earlier one allows
  have hlate := (reachUntil_eq deadline' n clock).2 (hlt.trans_le (reachUntil_le deadline n clock))
  have hearly := (reachUntil_eq deadline n clock).1 _ hlt
  exact absurd (hlate.trans_le hearly) (not_lt.mpr h)

theorem reach_mono {limit limit' : ℤ} (h : Tighter limit limit') (n : ℕ) (clock : Clock) :
    (clock.reach limit n).1 ≤ (clock.reach limit' n).1 := by
  rcases h with hnone | ⟨hpos, hle⟩
  · rw [reach_unlimited hnone]
    exact reach_le limit n clock
  · rw [reach, reach, if_pos hpos, if_pos (hpos.trans_le hle)]
    have hcast : (limit : ℚ) ≤ limit' := by exact_mod_cast hle
    exact reachUntil_mono (by linarith) n clock.next

end ExtensionAudit.Clock
