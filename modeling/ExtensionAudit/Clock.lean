/-!
# The clock

* `Clock`: the readings to come; `Clock.now`, `Clock.next`;
* `Clock.reach`: how many of some files are reached within a time limit;
* `Clock.isBeyond`: a time limit for which there is no deadline.
-/

namespace ExtensionAudit

/-- The readings of the clock to come, in seconds. The last one repeats for ever. -/
abbrev Clock := List Rat

namespace Clock

def now : Clock → Rat
  | [] => 0
  | reading :: _ => reading

def next : Clock → Clock
  | [] => []
  | [reading] => [reading]
  | _ :: rest => rest

/-- How many of `n` files are reached if the clock is read before each and must not be past the deadline,
and the clock after the readings. -/
def reachUntil (deadline : Rat) : Nat → Clock → Nat × Clock
  | 0, clock => (0, clock)
  | n + 1, clock =>
    if deadline < clock.now then (0, clock.next)
    else
      let (k, clock) := reachUntil deadline n clock.next
      (k + 1, clock)

/-- How many of `n` files are reached within `limit` seconds, and the clock after the readings. A limit that
is not positive is none, and the clock is not read. -/
def reach (limit : Int) (n : Nat) (clock : Clock) : Nat × Clock :=
  if 0 < limit then reachUntil (clock.now + limit) n clock.next else (n, clock)

/-- Is there a time limit, and is it too great to be added to a reading of the clock? -/
def isBeyond (horizon : Option Int) (limit : Int) : Bool := decide (0 < limit) && horizon.any (· ≤ limit)

theorem isBeyond_of_nonpos {limit : Int} (h : limit ≤ 0) (horizon : Option Int) : isBeyond horizon limit = false := by
  rw [isBeyond, decide_eq_false (Int.not_lt.mpr h), Bool.false_and]

theorem reachUntil_le (deadline : Rat) (n : Nat) (clock : Clock) : (reachUntil deadline n clock).1 ≤ n := by
  induction n generalizing clock with
  | zero => exact Nat.le_refl _
  | succ n ih =>
    rw [reachUntil]
    split
    · exact Nat.zero_le _
    · exact Nat.succ_le_succ (ih _)

theorem reach_le (limit : Int) (n : Nat) (clock : Clock) : (reach limit n clock).1 ≤ n := by
  rw [reach]
  split
  · exact reachUntil_le _ _ _
  · exact Nat.le_refl _

end Clock

end ExtensionAudit
