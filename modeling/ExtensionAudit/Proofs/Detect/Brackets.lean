import Mathlib
import ExtensionAudit.Proofs.Detect.Matches

/-!
# Parentheses and their partners

Read from left to right, a closing parenthesis is the partner of the last opening one that has none yet. Trimming does
not look for partners, it compares how many parentheses of each kind a URL has. So it never leaves a closing
parenthesis without a partner at the end of a URL; but a closing one without a partner further in front makes it take
off one that has a partner.

* `Detect.Balanced`, `Detect.HasPartner`: what stands between partners, and which closing parentheses have one;
* `Detect.Pairing`, `Detect.pairing`: the parentheses without a partner, counted from left to right;
* **`Detect.hasPartner_iff`**: a closing parenthesis has a partner if an opening one is left over before it;
* `Detect.count_add_unopened`: what the numbers of parentheses tell about partners;
* `Detect.EndsUnpaired`, `Detect.IsPairedPart`: a URL without the parentheses at its end that have no partner;
* **`Detect.trimClosing_pairing`**: what trimming leaves of a URL, beside what pairing would leave.
-/

namespace ExtensionAudit.Detect

/-! ## Partners -/

/-- A text in which each parenthesis has its partner. -/
inductive Balanced : Text → Prop where
  | nil : Balanced []
  | other {c : CodePoint} {t : Text} : c ≠ openParen → c ≠ closeParen → Balanced t → Balanced (c :: t)
  | nest {s t : Text} : Balanced s → Balanced t → Balanced (openParen :: (s ++ closeParen :: t))

/-- A closing parenthesis behind this text has a partner in it. -/
def HasPartner (before : Text) : Prop :=
  ∃ outer inner, before = outer ++ openParen :: inner ∧ Balanced inner

theorem Balanced.append {s t : Text} (hs : Balanced s) (ht : Balanced t) : Balanced (s ++ t) := by
  induction hs with
  | nil => exact ht
  | other ho hc _ ih => exact .other ho hc ih
  | nest h _ _ ih =>
    rw [List.cons_append, List.append_assoc, List.cons_append]
    exact .nest h ih

/-! ## Pairing from left to right -/

/-- The parentheses of a text that have no partner in it. -/
@[ext]
structure Pairing where
  /-- The number of closing ones. -/
  unopened : ℕ := 0
  /-- The number of opening ones. -/
  unclosed : ℕ := 0

/-- One character more: a closing parenthesis is the partner of an opening one, if one is left over. -/
def Pairing.step (p : Pairing) (c : CodePoint) : Pairing :=
  if c = openParen then { p with unclosed := p.unclosed + 1 }
  else if c = closeParen then
    if p.unclosed = 0 then { p with unopened := p.unopened + 1 } else { p with unclosed := p.unclosed - 1 }
  else p

def pairing (t : Text) : Pairing := t.foldl Pairing.step {}

/-- The parenthesis in front and the one behind it have no partners, and the last two are partners. -/
example : pairing (text "a)(b()") = ⟨1, 1⟩ := by rfl

theorem Pairing.step_open (p : Pairing) : p.step openParen = ⟨p.unopened, p.unclosed + 1⟩ := if_pos rfl

theorem Pairing.step_close (p : Pairing) :
    p.step closeParen = ⟨p.unopened + (1 - p.unclosed), p.unclosed - 1⟩ := by
  rw [step, if_neg (by decide), if_pos rfl]
  split
  · next h => rw [h]
  · next h => rw [Nat.sub_eq_zero_of_le (Nat.one_le_iff_ne_zero.mpr h), Nat.add_zero]

theorem Pairing.step_other {c : CodePoint} (ho : c ≠ openParen) (hc : c ≠ closeParen) (p : Pairing) :
    p.step c = p := by
  rw [step, if_neg ho, if_neg hc]

theorem pairing_concat (t : Text) (c : CodePoint) : pairing (t ++ [c]) = (pairing t).step c := List.foldl_concat ..

theorem Balanced.foldl_step {t : Text} (h : Balanced t) (p : Pairing) : t.foldl Pairing.step p = p := by
  induction h generalizing p with
  | nil => rfl
  | other ho hc _ ih => rw [List.foldl_cons, Pairing.step_other ho hc, ih]
  | nest _ _ ihs iht =>
    rw [List.foldl_cons, List.foldl_append, ihs, List.foldl_cons, iht, Pairing.step_open, Pairing.step_close]
    ext
    · show p.unopened + (1 - (p.unclosed + 1)) = p.unopened
      omega
    · rfl

/-- **The last opening parenthesis that is left over**: what stands behind it is balanced, and those left over before it
are all the others. -/
theorem exists_unclosed {t : Text} {n : ℕ} (h : (pairing t).unclosed = n + 1) :
    ∃ outer inner, t = outer ++ openParen :: inner ∧ Balanced inner ∧ (pairing outer).unclosed = n := by
  induction hl : t.length using Nat.strong_induction_on generalizing t n with
  | _ l ih =>
    rcases List.eq_nil_or_concat t with rfl | ⟨t, c, rfl⟩
    · exact absurd h (by simp [pairing])
    · rw [List.concat_eq_append] at h hl ⊢
      rw [List.length_append, List.length_singleton] at hl
      rw [pairing_concat] at h
      by_cases ho : c = openParen
      · rw [ho, Pairing.step_open] at h
        exact ⟨t, [], by rw [ho], .nil, Nat.succ.inj h⟩
      · by_cases hc : c = closeParen
        · -- the one that it closes is the last one left over, and the one before that is what is looked for
          rw [hc, Pairing.step_close] at h
          have hmore : (pairing t).unclosed = n + 1 + 1 := by
            dsimp only at h
            omega
          obtain ⟨between, inner, rfl, hinner, hbetween⟩ := ih t.length (by omega) hmore rfl
          obtain ⟨outer, first, rfl, hfirst, houter⟩ :=
            ih between.length (by simp at hl; omega) hbetween rfl
          refine ⟨outer, first ++ openParen :: (inner ++ closeParen :: []), by simp [hc], ?_, houter⟩
          exact hfirst.append (.nest hinner .nil)
        · rw [Pairing.step_other ho hc] at h
          obtain ⟨outer, inner, rfl, hinner, houter⟩ := ih t.length (by omega) h rfl
          exact ⟨outer, inner ++ [c], by simp, hinner.append (.other ho hc .nil), houter⟩

/-- **A closing parenthesis has a partner** exactly if an opening one is left over before it. -/
theorem hasPartner_iff {before : Text} : HasPartner before ↔ 0 < (pairing before).unclosed := by
  constructor
  · rintro ⟨outer, inner, rfl, hinner⟩
    rw [pairing, List.foldl_append, List.foldl_cons, hinner.foldl_step, Pairing.step_open]
    exact Nat.succ_pos _
  · intro h
    obtain ⟨outer, inner, ht, hinner, -⟩ := exists_unclosed (Nat.succ_pred_eq_of_pos h).symm
    exact ⟨outer, inner, ht, hinner⟩

theorem count_add_unopened (t : Text) :
    t.count openParen + (pairing t).unopened = t.count closeParen + (pairing t).unclosed := by
  induction t using List.reverseRecOn with
  | nil => rfl
  | append_singleton t c ih =>
    rw [pairing_concat, List.count_append, List.count_append, List.count_singleton, List.count_singleton]
    by_cases ho : c = openParen
    · rw [ho, Pairing.step_open, if_pos (by decide), if_neg (by decide)]
      dsimp only
      omega
    · by_cases hc : c = closeParen
      · rw [hc, Pairing.step_close, if_neg (by decide), if_pos (by decide)]
        dsimp only
        omega
      · rw [Pairing.step_other ho hc, if_neg (by simpa using ho), if_neg (by simpa using hc)]
        omega

theorem pairing_append_replicate (t : Text) (n : ℕ) :
    pairing (t ++ List.replicate n closeParen) =
      ⟨(pairing t).unopened + (n - (pairing t).unclosed), (pairing t).unclosed - n⟩ := by
  induction n with
  | zero => simp
  | succ n ih =>
    rw [List.replicate_succ', ← List.append_assoc, pairing_concat, ih, Pairing.step_close]
    ext
    · dsimp only
      omega
    · dsimp only
      omega

/-! ## URLs without what has no partner -/

/-- The text ends in a closing parenthesis that has no partner in it. -/
def EndsUnpaired (t : Text) : Prop := ∃ before, t = before ++ [closeParen] ∧ ¬ HasPartner before

/-- **A URL without the parentheses at its end that have no partner in it**: the longest part that is left when closing
parentheses are taken off its end and that does not end in one without a partner. -/
structure IsPairedPart (url part : Text) : Prop where
  takenOff : ∃ n, url = part ++ List.replicate n closeParen
  paired : ¬ EndsUnpaired part
  longest : ∀ other n, url = other ++ List.replicate n closeParen → ¬ EndsUnpaired other → other.length ≤ part.length

section

variable {body : Text} (hbody : body.getLast? ≠ some closeParen)
include hbody

theorem endsUnpaired_append_replicate (n : ℕ) :
    EndsUnpaired (body ++ List.replicate n closeParen) ↔ (pairing body).unclosed < n := by
  cases n with
  | zero =>
    refine iff_of_false ?_ (Nat.not_lt_zero _)
    rintro ⟨before, h, -⟩
    rw [List.replicate_zero, List.append_nil] at h
    exact hbody (by rw [h, List.getLast?_concat])
  | succ n =>
    have hlast : EndsUnpaired (body ++ List.replicate (n + 1) closeParen) ↔
        ¬ HasPartner (body ++ List.replicate n closeParen) := by
      rw [List.replicate_succ', ← List.append_assoc, EndsUnpaired]
      constructor
      · rintro ⟨before, h, hbefore⟩
        rwa [(List.append_inj' h rfl).1]
      · exact fun h => ⟨_, rfl, h⟩
    rw [hlast, hasPartner_iff, pairing_append_replicate]
    dsimp only
    omega

theorem isPairedPart_iff {n : ℕ} {part : Text} : IsPairedPart (body ++ List.replicate n closeParen) part ↔
    part = body ++ List.replicate (min n (pairing body).unclosed) closeParen := by
  have hpart : IsPairedPart (body ++ List.replicate n closeParen)
      (body ++ List.replicate (min n (pairing body).unclosed) closeParen) := by
    refine ⟨⟨n - min n (pairing body).unclosed, ?_⟩, ?_, fun other m h hother => ?_⟩
    · rw [List.append_assoc, List.replicate_append_replicate, Nat.add_sub_cancel' (Nat.min_le_left _ _)]
    · rw [endsUnpaired_append_replicate hbody]
      exact Nat.not_lt.mpr (Nat.min_le_right _ _)
    · have hlength := congrArg List.length h
      simp only [List.length_append, List.length_replicate] at hlength ⊢
      rcases Nat.lt_or_ge n m with hlt | hle
      · omega
      · -- what is left keeps some of the parentheses, and no more of them than have a partner
        rw [← Nat.sub_add_cancel hle, ← List.replicate_append_replicate, ← List.append_assoc] at h
        rw [← (List.append_inj' h (by simp)).1, endsUnpaired_append_replicate hbody] at hother
        omega
  constructor
  · intro h
    obtain ⟨m, hm⟩ := h.takenOff
    obtain ⟨k, hk⟩ := hpart.takenOff
    have hprefix : part <+: body ++ List.replicate (min n (pairing body).unclosed) closeParen :=
      List.prefix_of_prefix_length_le ⟨_, hm.symm⟩ ⟨_, hk.symm⟩ (hpart.longest part m hm h.paired)
    exact hprefix.eq_of_length (Nat.le_antisymm hprefix.length_le (h.longest _ k hk hpart.paired))
  · rintro rfl
    exact hpart

theorem trimClosing_eq_of_pairing (n : ℕ) : trimClosing (body ++ List.replicate n closeParen) =
    body ++ List.replicate (min n ((pairing body).unclosed - (pairing body).unopened)) closeParen := by
  have hcount := count_add_unopened body
  rw [trimClosing_append_replicate hbody]
  congr 3
  omega

end

/-- **What trimming leaves of a URL.** Before the closing parentheses at its end, let some opening ones be left over
without a partner, and some closing ones. Then pairing keeps as many of those at the end as there are opening ones
left over; trimming keeps as many as there are opening ones left over beyond the closing ones. So it never leaves one
at the end that has no partner, and it leaves all that have one exactly if none of the one kind or of the other is
left over, or if the opening ones suffice for the closing ones left over and for those at the end. -/
theorem trimClosing_pairing (url : Text) :
    ∃ body n, url = body ++ List.replicate n closeParen ∧ body.getLast? ≠ some closeParen ∧
      (∀ part, IsPairedPart url part ↔
        part = body ++ List.replicate (min n (pairing body).unclosed) closeParen) ∧
      trimClosing url =
        body ++ List.replicate (min n ((pairing body).unclosed - (pairing body).unopened)) closeParen ∧
      ¬ EndsUnpaired (trimClosing url) ∧
      (IsPairedPart url (trimClosing url) ↔
        (pairing body).unopened = 0 ∨ (pairing body).unclosed = 0 ∨
          n ≤ (pairing body).unclosed - (pairing body).unopened) := by
  obtain ⟨body, n, rfl, hbody⟩ := exists_eq_append_replicate url
  refine ⟨body, n, rfl, hbody, fun part => isPairedPart_iff hbody, trimClosing_eq_of_pairing hbody n, ?_, ?_⟩
  · rw [trimClosing_eq_of_pairing hbody, endsUnpaired_append_replicate hbody]
    omega
  · have hlength : ∀ k m, body ++ List.replicate k closeParen = body ++ List.replicate m closeParen ↔ k = m := by
      intro k m
      rw [List.append_cancel_left_eq, List.replicate_inj]
      simp
    rw [isPairedPart_iff hbody, trimClosing_eq_of_pairing hbody, hlength]
    omega

/-- The last parenthesis has a partner, but one further in front has none: trimming takes off the last one. -/
theorem trimClosing_drops_partner :
    IsMatch (text "http://a)(b)") ∧ HasPartner (text "http://a)(b") ∧
      IsPairedPart (text "http://a)(b)") (text "http://a)(b)") ∧
      trimClosing (text "http://a)(b)") = text "http://a)(b" ∧
      ¬ IsPairedPart (text "http://a)(b)") (trimClosing (text "http://a)(b)")) := by
  have hbody : (text "http://a)(b").getLast? ≠ some closeParen := by decide
  have hpart : ∀ part, IsPairedPart (text "http://a)(b)") part ↔ part = text "http://a)(b)" :=
    fun part => isPairedPart_iff (n := 1) hbody
  refine ⟨isMatch_iff.mpr (by decide), hasPartner_iff.mpr (by decide), (hpart _).mpr rfl, by decide, ?_⟩
  rw [hpart]
  decide

end ExtensionAudit.Detect
