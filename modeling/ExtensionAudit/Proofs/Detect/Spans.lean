import Mathlib
import ExtensionAudit.Proofs.Detect

/-!
# Where URLs stand

A search for URLs goes through a content from left to right. Where a URL starts it takes all URL characters that follow,
and goes on behind them. So each start of a URL lies in one of the parts that it takes, also where one scheme stands
behind another.

* `Detect.urlClass`, `Detect.isUrlChar_iff`: the characters of URLs, written out;
* `Detect.wholeUrls`, `Detect.wholeUrls_of_isUrlStart`, `Detect.wholeUrls_cons`: URLs with all that follows them, and
  how a search finds them;
* `Detect.surplus`, `Detect.trimClosing_eq`: how many parentheses are taken off a URL;
* `Detect.StartsAt`, `Detect.IsSpan`, `Detect.Covers`: parts of a content, and what they have to cover;
* **`Detect.urls_cover`**: the URLs of a content and the parts that they come from.
-/

namespace ExtensionAudit.Detect

/-! ## The characters of URLs -/

/-- The characters that may stand in a URL. -/
def urlClass : Text := text "ABCDEFGHIJKLMNOPQRSTUVWXYZabcdefghijklmnopqrstuvwxyz0123456789_/:%#$&?()~.=+-"

theorem isUrlChar_iff {c : CodePoint} : isUrlChar c = true ↔ c ∈ urlClass := by
  have hascii : ∀ n : Fin 128, isUrlChar ⟨n, by omega⟩ = decide ((⟨n, by omega⟩ : CodePoint) ∈ urlClass) := by
    decide +kernel
  by_cases hc : c.toNat < 128
  · have h := hascii ⟨c.toNat, hc⟩
    rw [show isUrlChar c = decide (c ∈ urlClass) from h, decide_eq_true_eq]
  · -- no character beyond ASCII is in the class
    have hclass : ∀ c ∈ urlClass, c.toNat < 128 := by decide +kernel
    have hpunctuation : ∀ c ∈ urlPunctuation, c.toNat < 128 := by decide
    refine iff_of_false (fun h => ?_) fun h => hc (hclass c h)
    unfold isUrlChar at h
    simp only [Bool.or_eq_true, Bool.and_eq_true, decide_eq_true_eq, List.contains_iff_mem] at h
    rcases h with h | h
    · omega
    · exact hc (hpunctuation c h)

/-! ## The start of a URL -/

theorem isUrlStart_iff {t : Text} :
    isUrlStart t = true ↔ ∃ scheme ∈ schemes, ∃ c, isUrlChar c = true ∧ scheme ++ [c] <+: t := by
  have hscheme : ∀ scheme : Text, (t.startsWith scheme && (t.drop scheme.length).head?.any isUrlChar) = true ↔
      ∃ c, isUrlChar c = true ∧ scheme ++ [c] <+: t := by
    intro scheme
    rw [Bool.and_eq_true, Text.startsWith, List.isPrefixOf_iff_prefix]
    constructor
    · rintro ⟨⟨rest, rfl⟩, hc⟩
      rw [List.drop_left, Option.any_eq_true] at hc
      obtain ⟨c, hhead, hc⟩ := hc
      obtain ⟨tail, rfl⟩ := List.head?_eq_some_iff.mp hhead
      exact ⟨c, hc, tail, by simp⟩
    · rintro ⟨c, hc, tail, rfl⟩
      rw [List.append_assoc, List.drop_left]
      exact ⟨List.prefix_append _ _, hc⟩
  simp only [isUrlStart, List.any_eq_true, hscheme]

theorem prefix_takeWhile_iff {w t : Text} {p : CodePoint → Bool} :
    w <+: t.takeWhile p ↔ w <+: t ∧ ∀ c ∈ w, p c = true := by
  constructor
  · intro h
    exact ⟨h.trans (List.takeWhile_prefix p), fun c hc => List.mem_takeWhile_imp (h.subset hc)⟩
  · rintro ⟨⟨rest, rfl⟩, hw⟩
    rw [List.takeWhile_append_of_pos hw]
    exact List.prefix_append _ _

theorem isUrlChar_of_mem_scheme : ∀ scheme ∈ schemes, ∀ c ∈ scheme, isUrlChar c = true := by decide

theorem isUrlStart_takeWhile (t : Text) : isUrlStart (t.takeWhile isUrlChar) = isUrlStart t := by
  rw [Bool.eq_iff_iff, isUrlStart_iff, isUrlStart_iff]
  refine exists_congr fun scheme => and_congr_right fun hs => exists_congr fun c => and_congr_right fun hc => ?_
  rw [prefix_takeWhile_iff, and_iff_left]
  intro d hd
  rcases List.mem_append.mp hd with hd | hd
  · exact isUrlChar_of_mem_scheme scheme hs d hd
  · rwa [List.mem_singleton.mp hd]

/-! ## The search -/

/-- The URLs of a content, with the parentheses at their ends. -/
def wholeUrls (content : Text) : List Text := (urlRuns content).filterMap urlOfRun?

theorem urls_eq_map (content : Text) : urls content = (wholeUrls content).map trimClosing := rfl

theorem wholeUrls_nil : wholeUrls [] = [] := by
  simp [wholeUrls, urlRuns, urlOfRun?]

theorem wholeUrls_append_cons {c : CodePoint} (h : isUrlChar c = false) (a b : Text) :
    wholeUrls (a ++ c :: b) = wholeUrls a ++ wholeUrls b := by
  rw [wholeUrls, urlRuns, List.splitOnP_append_cons _ _ (by simpa using h), List.filterMap_append]
  rfl

theorem wholeUrls_cons_of_not {c : CodePoint} (h : isUrlChar c = false) (t : Text) :
    wholeUrls (c :: t) = wholeUrls t := by
  rw [← List.nil_append (c :: t), wholeUrls_append_cons h, wholeUrls_nil, List.nil_append]

theorem wholeUrls_eq (content : Text) : wholeUrls content =
    (urlOfRun? (content.takeWhile isUrlChar)).toList ++ wholeUrls (content.dropWhile isUrlChar) := by
  have hrun : (content.takeWhile isUrlChar).splitOnP (fun c => !isUrlChar c) = [content.takeWhile isUrlChar] :=
    List.splitOnP_eq_singleton fun c hc => by simpa using List.mem_takeWhile_imp hc
  have hsplit : content.takeWhile isUrlChar ++ content.dropWhile isUrlChar = content :=
    List.takeWhile_append_dropWhile
  have hone : [content.takeWhile isUrlChar].filterMap urlOfRun? =
      (urlOfRun? (content.takeWhile isUrlChar)).toList := by
    cases h : urlOfRun? (content.takeWhile isUrlChar) <;> simp [h]
  cases hd : content.dropWhile isUrlChar with
  | nil =>
    rw [hd, List.append_nil] at hsplit
    rw [wholeUrls_nil, List.append_nil, ← hone, ← hrun, hsplit]
    rfl
  | cons d rest =>
    have hnot : isUrlChar d = false := by
      have h := List.head?_dropWhile_not isUrlChar content
      rwa [hd] at h
    rw [hd] at hsplit
    conv_lhs => rw [← hsplit]
    rw [wholeUrls_append_cons hnot, wholeUrls_cons_of_not hnot, ← hone, ← hrun]
    rfl

/-- **Where a URL starts** the search takes all URL characters that follow, and goes on behind them. -/
theorem wholeUrls_of_isUrlStart {content : Text} (h : isUrlStart content = true) : wholeUrls content =
    content.takeWhile isUrlChar :: wholeUrls (content.dropWhile isUrlChar) := by
  rw [← isUrlStart_takeWhile] at h
  have hrun : urlOfRun? (content.takeWhile isUrlChar) = some (content.takeWhile isUrlChar) := by
    cases hr : content.takeWhile isUrlChar with
    | nil => rw [hr] at h; exact absurd h (by decide)
    | cons c run => rw [hr] at h; rw [urlOfRun?, if_pos h]
  rw [wholeUrls_eq, hrun, Option.toList_some, List.singleton_append]

/-- **Where no URL starts** the search goes on with the next character. -/
theorem wholeUrls_cons {c : CodePoint} {t : Text} (h : isUrlStart (c :: t) = false) :
    wholeUrls (c :: t) = wholeUrls t := by
  cases hc : isUrlChar c with
  | false => exact wholeUrls_cons_of_not hc t
  | true =>
    rw [← isUrlStart_takeWhile, List.takeWhile_cons_of_pos hc] at h
    rw [wholeUrls_eq (c :: t), wholeUrls_eq t, List.takeWhile_cons_of_pos hc, List.dropWhile_cons_of_pos hc, urlOfRun?,
      h, if_neg Bool.false_ne_true]

/-! ## Parentheses -/

/-- The number of closing parentheses to be taken off a URL: those at its end, as far as it has more of them than of
opening ones. -/
def surplus (url : Text) : ℕ :=
  min (url.rtakeWhile (· == closeParen)).length (url.count closeParen - url.count openParen)

theorem trimClosing_eq (url : Text) : trimClosing url = url.rdrop (surplus url) := by
  rw [trimClosing, dropClosing_eq, surplus, List.rtakeWhile, List.length_reverse, List.rdrop_eq_reverse_drop_reverse]

/-! ## Parts of a content -/

/-- A URL starts at a position: a scheme with a URL character behind it. -/
def StartsAt (content : Text) (i : ℕ) : Prop :=
  ∃ scheme ∈ [text "http://", text "https://"], ∃ c ∈ urlClass, scheme ++ [c] <+: content.drop i

/-- **A part of a content** from a start of a URL on: all the URL characters that follow. -/
structure IsSpan (content : Text) (span : ℕ × ℕ) : Prop where
  starts : StartsAt content span.1
  lt : span.1 < span.2
  le_length : span.2 ≤ content.length
  mem_urlClass : ∀ i c, span.1 ≤ i → i < span.2 → content[i]? = some c → c ∈ urlClass
  ends : ∀ c, content[span.2]? = some c → c ∉ urlClass

/-- **Parts that cover a content**: they stand in order and do not overlap, and each start of a URL lies in one. -/
structure Covers (content : Text) (spans : List (ℕ × ℕ)) : Prop where
  isSpan : ∀ span ∈ spans, IsSpan content span
  disjoint : spans.Pairwise fun a b => a.2 ≤ b.1
  covers : ∀ i, StartsAt content i → ∃ span ∈ spans, span.1 ≤ i ∧ i < span.2

/-- The text of a part. -/
def slice (content : Text) (span : ℕ × ℕ) : Text := (content.take span.2).drop span.1

/-- A part that lies further behind. -/
def shift (n : ℕ) (span : ℕ × ℕ) : ℕ × ℕ := (n + span.1, n + span.2)

theorem startsAt_iff {content : Text} {i : ℕ} : StartsAt content i ↔ isUrlStart (content.drop i) = true := by
  simp only [StartsAt, isUrlStart_iff, isUrlChar_iff]
  rfl

theorem startsAt_append (before t : Text) (i : ℕ) :
    StartsAt (before ++ t) (before.length + i) ↔ StartsAt t i := by
  rw [startsAt_iff, startsAt_iff, List.drop_length_add_append]

theorem IsSpan.append {t : Text} {span : ℕ × ℕ} (h : IsSpan t span) (before : Text) :
    IsSpan (before ++ t) (shift before.length span) := by
  have hget : ∀ i, before.length ≤ i → (before ++ t)[i]? = t[i - before.length]? :=
    fun i hi => List.getElem?_append_right hi
  refine ⟨(startsAt_append before t span.1).mpr h.starts, Nat.add_lt_add_left h.lt _, ?_, ?_, ?_⟩
  · rw [List.length_append]
    exact Nat.add_le_add_left h.le_length _
  · intro i c hi hlt hc
    have hle : before.length ≤ i := Nat.le_of_add_right_le hi
    rw [hget i hle] at hc
    exact h.mem_urlClass _ c (Nat.le_sub_of_add_le' hi) (Nat.sub_lt_left_of_lt_add hle hlt) hc
  · intro c hc
    rw [shift, hget _ (Nat.le_add_right _ _), Nat.add_sub_cancel_left] at hc
    exact h.ends c hc

theorem slice_append (before t : Text) (span : ℕ × ℕ) :
    slice (before ++ t) (shift before.length span) = slice t span := by
  rw [slice, shift, List.take_length_add_append, List.drop_length_add_append, slice]

/-- **Parts are put together**: those that cover what starts in the first piece of a content, and those that cover the
rest of it. -/
theorem Covers.append {t : Text} {spans : List (ℕ × ℕ)} (h : Covers t spans) (before : Text)
    (first : List (ℕ × ℕ)) (hspan : ∀ span ∈ first, IsSpan (before ++ t) span ∧ span.2 ≤ before.length)
    (hdisjoint : first.Pairwise fun a b => a.2 ≤ b.1)
    (hcovers : ∀ i < before.length, StartsAt (before ++ t) i → ∃ span ∈ first, span.1 ≤ i ∧ i < span.2) :
    Covers (before ++ t) (first ++ spans.map (shift before.length)) := by
  refine ⟨fun span hm => ?_, List.pairwise_append.mpr ⟨hdisjoint, ?_, ?_⟩, fun i hi => ?_⟩
  · rcases List.mem_append.mp hm with hm | hm
    · exact (hspan span hm).1
    · obtain ⟨inner, hi, rfl⟩ := List.mem_map.mp hm
      exact (h.isSpan inner hi).append before
  · exact List.pairwise_map.mpr (h.disjoint.imp fun hab => Nat.add_le_add_left hab _)
  · intro a ha b hb
    obtain ⟨inner, -, rfl⟩ := List.mem_map.mp hb
    exact (hspan a ha).2.trans (Nat.le_add_right _ _)
  · rcases Nat.lt_or_ge i before.length with hlt | hge
    · obtain ⟨span, hm, hin⟩ := hcovers i hlt hi
      exact ⟨span, List.mem_append_left _ hm, hin⟩
    · obtain ⟨k, rfl⟩ := Nat.exists_eq_add_of_le hge
      obtain ⟨span, hm, hle, hlt⟩ := h.covers k ((startsAt_append before t k).mp hi)
      exact ⟨_, List.mem_append_right _ (List.mem_map_of_mem hm), Nat.add_le_add_left hle _,
        Nat.add_lt_add_left hlt _⟩

theorem getElem?_length_takeWhile (content : Text) (p : CodePoint → Bool) :
    content[(content.takeWhile p).length]? = (content.dropWhile p).head? := by
  have hget : (content.takeWhile p ++ content.dropWhile p)[(content.takeWhile p).length]? =
      (content.dropWhile p)[(content.takeWhile p).length - (content.takeWhile p).length]? :=
    List.getElem?_append_right (Nat.le_refl _)
  rwa [List.takeWhile_append_dropWhile, Nat.sub_self, ← List.head?_eq_getElem?] at hget

theorem isSpan_takeWhile {content : Text} (h : StartsAt content 0) :
    IsSpan content (0, (content.takeWhile isUrlChar).length) := by
  refine ⟨h, ?_, (List.takeWhile_prefix _).length_le, fun i c _ hlt hc => ?_, fun c hc => ?_⟩
  · rw [List.length_pos_iff]
    intro hnil
    rw [startsAt_iff, List.drop_zero, ← isUrlStart_takeWhile, hnil] at h
    exact absurd h (by decide)
  · rw [← List.takeWhile_append_dropWhile (p := isUrlChar) (l := content), List.getElem?_append_left hlt] at hc
    exact isUrlChar_iff.mp (List.mem_takeWhile_imp (List.mem_of_getElem? hc))
  · rw [getElem?_length_takeWhile] at hc
    have hnot := List.head?_dropWhile_not isUrlChar content
    rw [hc] at hnot
    rw [← isUrlChar_iff, show isUrlChar c = false from hnot]
    exact Bool.false_ne_true

theorem slice_takeWhile (content : Text) (p : CodePoint → Bool) :
    slice content (0, (content.takeWhile p).length) = content.takeWhile p := by
  rw [slice, List.drop_zero]
  exact (List.prefix_iff_eq_take.mp (List.takeWhile_prefix p)).symm

theorem map_slice_append (before t : Text) (spans : List (ℕ × ℕ)) :
    (spans.map (shift before.length)).map (slice (before ++ t)) = spans.map (slice t) := by
  rw [List.map_map]
  exact List.map_congr_left fun span _ => slice_append before t span

theorem Covers.of_start {content : Text} {spans : List (ℕ × ℕ)} (hstart : StartsAt content 0)
    (h : Covers (content.dropWhile isUrlChar) spans) :
    Covers content ((0, (content.takeWhile isUrlChar).length) ::
      spans.map (shift (content.takeWhile isUrlChar).length)) := by
  have hsplit : content.takeWhile isUrlChar ++ content.dropWhile isUrlChar = content :=
    List.takeWhile_append_dropWhile
  have happend := h.append (content.takeWhile isUrlChar) [(0, (content.takeWhile isUrlChar).length)]
  rw [hsplit] at happend
  refine happend (fun span hm => ?_) (List.pairwise_singleton _ _) fun i hi _ => ?_
  · rw [List.mem_singleton.mp hm]
    exact ⟨isSpan_takeWhile hstart, Nat.le_refl _⟩
  · exact ⟨_, List.mem_singleton_self _, Nat.zero_le i, hi⟩

theorem Covers.cons {c : CodePoint} {t : Text} {spans : List (ℕ × ℕ)} (hnot : ¬ StartsAt (c :: t) 0)
    (h : Covers t spans) : Covers (c :: t) (spans.map (shift 1)) := by
  refine h.append [c] [] (by simp) .nil fun i hi hstart => ?_
  obtain rfl : i = 0 := by simpa using hi
  exact absurd hstart hnot

/-- **What a search takes covers the content.** -/
theorem exists_covers (content : Text) :
    ∃ spans, Covers content spans ∧ wholeUrls content = spans.map (slice content) := by
  induction hn : content.length using Nat.strong_induction_on generalizing content with
  | _ n ih =>
    cases hs : isUrlStart content with
    | true =>
      have hstart : StartsAt content 0 := startsAt_iff.mpr hs
      have hsplit : content.takeWhile isUrlChar ++ content.dropWhile isUrlChar = content :=
        List.takeWhile_append_dropWhile
      have hlt : (content.dropWhile isUrlChar).length < n := by
        have hpos : 0 < (content.takeWhile isUrlChar).length := (isSpan_takeWhile hstart).lt
        rw [← hn]
        conv_rhs => rw [← hsplit, List.length_append]
        omega
      obtain ⟨spans, hcovers, hwhole⟩ := ih _ hlt (content.dropWhile isUrlChar) rfl
      refine ⟨_, hcovers.of_start hstart, ?_⟩
      have hmap := map_slice_append (content.takeWhile isUrlChar) (content.dropWhile isUrlChar) spans
      rw [hsplit] at hmap
      rw [wholeUrls_of_isUrlStart hs, hwhole, List.map_cons, slice_takeWhile, hmap]
    | false =>
      have hnot : ¬ StartsAt content 0 := by
        rw [startsAt_iff, List.drop_zero, hs]
        exact Bool.false_ne_true
      cases content with
      | nil =>
        refine ⟨[], ⟨by simp, .nil, fun i hi => ?_⟩, wholeUrls_nil⟩
        rw [startsAt_iff, List.drop_nil] at hi
        exact absurd hi (by decide)
      | cons c t =>
        obtain ⟨spans, hcovers, hwhole⟩ := ih t.length (by simp [← hn]) t rfl
        refine ⟨_, hcovers.cons hnot, ?_⟩
        rw [wholeUrls_cons hs, hwhole]
        exact (map_slice_append [c] t spans).symm

/-- **No URL of a content is lost, and each is found once.** There are parts of the content, in order and without
overlaps, each of which reaches from a start of a URL to the last URL character that follows, so that each start lies in
one of them. The URLs are the texts of these parts, less the parentheses at their ends that nothing in them opens. -/
theorem urls_cover (content : Text) : ∃ spans, Covers content spans ∧
    urls content = spans.map fun span => (slice content span).rdrop (surplus (slice content span)) := by
  obtain ⟨spans, hcovers, hwhole⟩ := exists_covers content
  refine ⟨spans, hcovers, ?_⟩
  rw [show urls content = (wholeUrls content).map trimClosing from rfl, hwhole, List.map_map]
  exact List.map_congr_left fun span _ => trimClosing_eq _

/-- One scheme behind another, a scheme in the middle of a word, and one with nothing behind it. -/
example : urls (text "(http://http://x) httphttps://y) http://") = [text "http://http://x", text "https://y"] := by
  decide

end ExtensionAudit.Detect
