import Mathlib
import ExtensionAudit.Proofs.Detect.Spans

/-!
# URLs as texts of their own

What a search takes for a URL is a scheme with URL characters behind it. Without the parentheses at its end it is a URL
still, and a search in it finds it again, unless there was nothing but these behind the scheme.

* `Detect.IsMatch`, `Detect.isMatch_iff`: texts that are URLs in full;
* **`Detect.wholeUrls_append_of_isMatch`**, `Detect.isMatch_of_mem_wholeUrls`: they are what a search takes;
* **`Detect.trimClosing_append_replicate`**, `Detect.trimClosing_trimClosing`: how many parentheses a URL keeps at its
  end;
* `Detect.IsMatch.trimClosing`: what is left of a URL;
* **`Detect.urls_fixed`**: the URLs of a content, searched again.
-/

namespace ExtensionAudit.Detect

/-! ## URLs in full -/

/-- **A text that is a URL in full**: a scheme with one URL character or more behind it. -/
def IsMatch (url : Text) : Prop :=
  ∃ scheme ∈ [text "http://", text "https://"], ∃ rest, rest ≠ [] ∧ (∀ c ∈ rest, c ∈ urlClass) ∧ url = scheme ++ rest

theorem isMatch_iff {url : Text} : IsMatch url ↔ isUrlStart url = true ∧ ∀ c ∈ url, isUrlChar c = true := by
  rw [isUrlStart_iff]
  constructor
  · rintro ⟨scheme, hs, rest, hne, hrest, rfl⟩
    obtain ⟨c, tail, rfl⟩ := List.exists_cons_of_ne_nil hne
    refine ⟨⟨scheme, hs, c, isUrlChar_iff.mpr (hrest c (List.mem_cons_self ..)), tail, by simp⟩, fun d hd => ?_⟩
    rcases List.mem_append.mp hd with hd | hd
    · exact isUrlChar_of_mem_scheme scheme hs d hd
    · exact isUrlChar_iff.mpr (hrest d hd)
  · rintro ⟨⟨scheme, hs, c, -, tail, rfl⟩, hurl⟩
    refine ⟨scheme, hs, c :: tail, List.cons_ne_nil _ _, fun d hd => isUrlChar_iff.mp (hurl d ?_), by simp⟩
    rw [List.append_assoc]
    exact List.mem_append_right _ hd

theorem IsMatch.append {url more : Text} (h : IsMatch url) (hmore : ∀ c ∈ more, c ∈ urlClass) :
    IsMatch (url ++ more) := by
  obtain ⟨scheme, hs, rest, hne, hrest, rfl⟩ := h
  refine ⟨scheme, hs, rest ++ more, by simp [hne], fun c hc => ?_, List.append_assoc ..⟩
  rcases List.mem_append.mp hc with hc | hc
  · exact hrest c hc
  · exact hmore c hc

theorem isMatch_of_mem_wholeUrls {content url : Text} (h : url ∈ wholeUrls content) : IsMatch url := by
  obtain ⟨run, hrun, hurl⟩ := List.mem_filterMap.mp h
  exact isMatch_iff.mpr (of_urlOfRun? hrun hurl)

/-- **A content that begins with a URL**, up to its end or to what is no URL character: the search takes it as a
whole. -/
theorem wholeUrls_append_of_isMatch {url rest : Text} (h : IsMatch url)
    (hrest : ∀ c, rest.head? = some c → c ∉ urlClass) :
    wholeUrls (url ++ rest) = url :: wholeUrls rest := by
  obtain ⟨hstart, hurl⟩ := isMatch_iff.mp h
  have hstop : rest.takeWhile isUrlChar = [] ∧ rest.dropWhile isUrlChar = rest := by
    cases rest with
    | nil => exact ⟨rfl, rfl⟩
    | cons c rest =>
      have hc : ¬ isUrlChar c = true := mt isUrlChar_iff.mp (hrest c rfl)
      exact ⟨List.takeWhile_cons_of_neg hc, List.dropWhile_cons_of_neg hc⟩
  have htake : (url ++ rest).takeWhile isUrlChar = url := by
    rw [List.takeWhile_append_of_pos hurl, hstop.1, List.append_nil]
  have hdrop : (url ++ rest).dropWhile isUrlChar = rest := by
    rw [List.dropWhile_append_of_pos hurl, hstop.2]
  have hstart' : isUrlStart (url ++ rest) = true := by
    rw [← isUrlStart_takeWhile, htake, hstart]
  rw [wholeUrls_of_isUrlStart hstart', htake, hdrop]

theorem urls_of_isMatch {url : Text} (h : IsMatch url) : urls url = [trimClosing url] := by
  have hwhole : wholeUrls (url ++ []) = url :: wholeUrls [] := wholeUrls_append_of_isMatch h (by simp)
  rw [List.append_nil, wholeUrls_nil] at hwhole
  rw [urls_eq_map, hwhole, List.map_singleton]

/-! ## Parentheses at the end -/

theorem exists_eq_append_replicate (url : Text) :
    ∃ body n, url = body ++ List.replicate n closeParen ∧ body.getLast? ≠ some closeParen := by
  induction url using List.reverseRecOn with
  | nil => exact ⟨[], 0, rfl, by simp⟩
  | append_singleton url c ih =>
    by_cases hc : c = closeParen
    · obtain ⟨body, n, rfl, hbody⟩ := ih
      exact ⟨body, n + 1, by rw [hc, List.replicate_succ', List.append_assoc], hbody⟩
    · exact ⟨url ++ [c], 0, by simp, by simpa using hc⟩

theorem length_rtakeWhile_append_replicate {body : Text} (h : body.getLast? ≠ some closeParen) (n : ℕ) :
    ((body ++ List.replicate n closeParen).rtakeWhile (· == closeParen)).length = n := by
  induction n with
  | zero =>
    rw [List.replicate_zero, List.append_nil, List.length_eq_zero_iff, List.rtakeWhile_eq_nil_iff]
    intro hne hlast
    exact h (by rw [List.getLast?_eq_some_getLast hne, beq_iff_eq.mp hlast])
  | succ n ih =>
    rw [List.replicate_succ', ← List.append_assoc, List.rtakeWhile_concat_pos (· == closeParen) _ _
      (beq_self_eq_true _), List.length_append, ih, List.length_singleton]

theorem rdrop_append_replicate (body : Text) (c : CodePoint) (n m : ℕ) :
    (body ++ List.replicate (n + m) c).rdrop m = body ++ List.replicate n c := by
  have hlength : (body ++ List.replicate (n + m) c).length - m = (body ++ List.replicate n c).length := by
    simp only [List.length_append, List.length_replicate]
    omega
  rw [List.rdrop, hlength, ← List.replicate_append_replicate, ← List.append_assoc, List.take_left]

/-- **How many closing parentheses stay at the end of a URL**: at most as many as there are opening ones left over in
what stands before them. -/
theorem trimClosing_append_replicate {body : Text} (h : body.getLast? ≠ some closeParen) (n : ℕ) :
    trimClosing (body ++ List.replicate n closeParen) =
      body ++ List.replicate (min n (body.count openParen - body.count closeParen)) closeParen := by
  have hopen : (List.replicate n closeParen).count openParen = 0 := by
    rw [List.count_replicate, if_neg (by decide)]
  have hsurplus : surplus (body ++ List.replicate n closeParen) =
      n - min n (body.count openParen - body.count closeParen) := by
    rw [surplus, length_rtakeWhile_append_replicate h, List.count_append, List.count_append, List.count_replicate_self,
      hopen]
    omega
  have hdrop := rdrop_append_replicate body closeParen (min n (body.count openParen - body.count closeParen))
    (n - min n (body.count openParen - body.count closeParen))
  rw [Nat.add_sub_cancel' (Nat.min_le_left _ _)] at hdrop
  rw [trimClosing_eq, hsurplus, hdrop]

theorem trimClosing_trimClosing (url : Text) : trimClosing (trimClosing url) = trimClosing url := by
  obtain ⟨body, n, rfl, hbody⟩ := exists_eq_append_replicate url
  rw [trimClosing_append_replicate hbody, trimClosing_append_replicate hbody, Nat.min_assoc, Nat.min_self]

theorem trimClosing_append_of_notMem {url : Text} (hopen : openParen ∉ url) (hclose : closeParen ∉ url) (n : ℕ) :
    trimClosing (url ++ List.replicate n closeParen) = url := by
  rw [trimClosing_append_replicate fun e => hclose (List.mem_of_getLast? e), List.count_eq_zero_of_not_mem hopen,
    Nat.zero_sub, Nat.min_zero, List.replicate_zero, List.append_nil]

/-- One parenthesis is opened in the URL, and one is not. -/
example : trimClosing (text "http://a(b))") = text "http://a(b)" := by decide

/-! ## What is left of a URL -/

theorem paren_notMem_scheme : ∀ scheme ∈ schemes, openParen ∉ scheme ∧ closeParen ∉ scheme := by decide

theorem not_isMatch_of_mem_schemes : ∀ scheme ∈ schemes, ¬ IsMatch scheme := by
  have hstart : ∀ scheme ∈ schemes, isUrlStart scheme = false := by decide
  intro scheme hs h
  exact Bool.false_ne_true ((hstart scheme hs).symm.trans (isMatch_iff.mp h).1)

/-- **What is left of a URL** is a URL, or a scheme with only closing parentheses behind it has lost them all. -/
theorem IsMatch.trimClosing {url : Text} (h : IsMatch url) : IsMatch (trimClosing url) ∨
    trimClosing url ∈ schemes ∧ ∃ n, url = trimClosing url ++ List.replicate (n + 1) closeParen := by
  obtain ⟨scheme, hs, rest, hne, hrest, rfl⟩ := h
  obtain ⟨left, hleft⟩ := prefix_trimClosing (List.prefix_append scheme rest) (paren_notMem_scheme scheme hs).2
  obtain ⟨dropped, hdropped, hclose⟩ := exists_trimClosing (scheme ++ rest)
  rw [← hleft] at hdropped ⊢
  have hsplit : rest = left ++ dropped := by
    rwa [List.append_assoc, List.append_cancel_left_eq] at hdropped
  rcases List.eq_nil_or_concat left with rfl | hsome
  · refine .inr ⟨by rwa [List.append_nil], dropped.length - 1, ?_⟩
    rw [List.nil_append] at hsplit
    rw [List.append_nil, hsplit, Nat.sub_add_cancel (List.length_pos_iff.mpr (hsplit ▸ hne)),
      ← List.eq_replicate_iff.mpr ⟨rfl, hclose⟩]
  · refine .inl ⟨scheme, hs, left, ?_, fun c hc => hrest c ?_, rfl⟩
    · obtain ⟨before, c, rfl⟩ := hsome
      simp
    · rw [hsplit]
      exact List.mem_append_left _ hc

/-- **The URLs of a content, searched again.** Each is a URL in full, and a search in it finds it and nothing else; or
it is a scheme with nothing behind it, and a search in it finds nothing. The latter are those with nothing but closing
parentheses behind them in the content. -/
theorem urls_fixed (content : Text) :
    (∀ url ∈ urls content, IsMatch url ∧ urls url = [url] ∨ url ∈ schemes ∧ ¬ IsMatch url ∧ urls url = []) ∧
      ∀ scheme ∈ schemes, scheme ∈ urls content ↔
        ∃ n, scheme ++ List.replicate (n + 1) closeParen ∈ wholeUrls content := by
  have hmem : ∀ url, url ∈ urls content ↔ ∃ whole ∈ wholeUrls content, trimClosing whole = url :=
    fun url => by rw [urls_eq_map, List.mem_map]
  have hbare : ∀ scheme ∈ schemes, urls scheme = [] := by decide
  refine ⟨fun url hurl => ?_, fun scheme hs => ⟨fun h => ?_, fun ⟨n, hn⟩ => ?_⟩⟩
  · obtain ⟨whole, hwhole, rfl⟩ := (hmem url).mp hurl
    rcases (isMatch_of_mem_wholeUrls hwhole).trimClosing with hmatch | ⟨hs, -⟩
    · exact .inl ⟨hmatch, by rw [urls_of_isMatch hmatch, trimClosing_trimClosing]⟩
    · exact .inr ⟨hs, not_isMatch_of_mem_schemes _ hs, hbare _ hs⟩
  · obtain ⟨whole, hwhole, rfl⟩ := (hmem scheme).mp h
    rcases (isMatch_of_mem_wholeUrls hwhole).trimClosing with hmatch | ⟨-, n, hn⟩
    · exact absurd hmatch (not_isMatch_of_mem_schemes _ hs)
    · exact ⟨n, hn ▸ hwhole⟩
  · obtain ⟨hopen, hclose⟩ := paren_notMem_scheme scheme hs
    exact (hmem scheme).mpr ⟨_, hn, trimClosing_append_of_notMem hopen hclose (n + 1)⟩

/-- A URL with parentheses of its own, and a scheme that loses all that stands behind it. -/
theorem urls_fixed_mixed :
    (text "http://a(b)" ∈ urls (text "(http://a(b)) https://))") ∧
      IsMatch (text "http://a(b)") ∧ urls (text "http://a(b)") = [text "http://a(b)"]) ∧
    text "https://" ∈ schemes ∧
      ∃ n, text "https://" ++ List.replicate (n + 1) closeParen ∈ wholeUrls (text "(http://a(b)) https://))") := by
  have hmem : text "http://a(b)" ∈ urls (text "(http://a(b)) https://))") := by decide
  refine ⟨⟨hmem, ?_⟩, by decide, ((urls_fixed _).2 _ (by decide)).mp (by decide)⟩
  exact ((urls_fixed _).1 _ hmem).resolve_right fun h => absurd h.1 (by decide)

/-- Not every URL that is found is a URL in full, or is found again. -/
theorem urls_bare_scheme :
    text "http://" ∈ urls (text "http://)") ∧ ¬ IsMatch (text "http://") ∧
      urls (text "http://") ≠ [text "http://"] :=
  ⟨by decide, not_isMatch_of_mem_schemes _ (by decide), by decide⟩

end ExtensionAudit.Detect
