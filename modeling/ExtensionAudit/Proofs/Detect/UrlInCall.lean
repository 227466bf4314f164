import Mathlib
import ExtensionAudit.Proofs.Detect.Calls
import ExtensionAudit.Proofs.Detect.Matches
import ExtensionAudit.Proofs.Detect.Pieces

/-!
# A URL in a call

The search for calls ends an argument at the first closing parenthesis. The search for URLs takes this parenthesis and
all that follow it, and then gives them back. So both come to the same end of a URL that a call hands to its command,
whatever stands around the call.

* `Detect.length_le_of_opening`, `Detect.isFound_of_notInfix`: openings of calls do not overlap, so the first one is
  found;
* **`Detect.exists_finding_of_call`**: the first call of a line is found;
* **`Detect.mem_urls_of_closed`**: a URL with closing parentheses behind it is found without them;
* **`Detect.search_urlInCall`**: a call with a URL in it.
-/

namespace ExtensionAudit.Detect

/-! ## The call -/

theorem length_le_of_opening {before b rest : Text} (h : ¬ callOpening <:+: before)
    (hb : b ++ callOpening <+: before ++ callOpening ++ rest) : before.length ≤ b.length := by
  have hoverlap : ∀ k < callOpening.length, 0 < k → ¬ callOpening.drop k <+: callOpening := by decide
  by_contra hlt
  have hpre : b <+: before :=
    List.prefix_of_prefix_length_le ((List.prefix_append _ _).trans hb) ⟨_, (List.append_assoc ..).symm⟩ (by omega)
  obtain ⟨s, rfl⟩ := hpre
  rw [List.append_assoc, List.append_assoc, List.prefix_append_right_inj] at hb
  rcases Nat.lt_or_ge s.length callOpening.length with hs | hs
  · -- what is left of the one opening would be the beginning of the other one
    obtain ⟨left, hleft⟩ : s <+: callOpening :=
      List.prefix_of_prefix_length_le (List.prefix_append _ _) hb (Nat.le_of_lt hs)
    have hdrop : callOpening.drop s.length = left := by rw [← hleft, List.drop_left]
    have hbegin : left <+: callOpening ++ rest := by
      rw [← List.prefix_append_right_inj s, hleft]
      exact hb
    have hlength : left.length ≤ callOpening.length := by rw [← hleft, List.length_append]; omega
    have hpos : 0 < s.length := by rw [List.length_append] at hlt; omega
    refine hoverlap s.length hs hpos ?_
    rw [hdrop]
    exact List.prefix_of_prefix_length_le hbegin (List.prefix_append _ _) hlength
  · have hin : callOpening <+: s := List.prefix_of_prefix_length_le hb (List.prefix_append _ _) hs
    exact h (hin.isInfix.trans (List.suffix_append b s).isInfix)

/-- **A call is found** if no opening stands before it and nothing closes it before its end. -/
theorem isFound_of_notInfix {before code : Text} (hbefore : ¬ callOpening <:+: before) (hclosing : callClosing ∉ code)
    (after : Text) : IsFound (before ++ callOpening ++ code ++ callClosing :: after) before code after := by
  refine isFound_iff.mpr ⟨rfl, hclosing, fun b hb => ?_⟩
  rw [List.append_assoc _ code] at hb
  exact length_le_of_opening hbefore hb

section

variable {d : Denylist} {code : Text} (hcode : Text.newline ∉ code) (hclosing : callClosing ∉ code)
  (hhit : ∃ command ∈ d.commands, command <:+: code)
include hcode hclosing hhit

theorem mem_execFindings_of_call {before : Text} (hline : Text.newline ∉ before) (hbefore : ¬ callOpening <:+: before)
    (after : Text) :
    ⟨[], 1, code, execKind⟩ ∈ execFindings d (before ++ callOpening ++ code ++ callClosing :: after) := by
  have hlabel : Text.newline ∉ before ++ callOpening ++ code ++ [callClosing] := by
    have hopening : Text.newline ∉ callOpening := by decide
    simp only [List.mem_append, List.mem_singleton, not_or]
    exact ⟨⟨⟨hline, hopening⟩, hcode⟩, by decide⟩
  have hlines := Text.lines_append hlabel after
  rw [List.append_assoc _ [callClosing], List.append_assoc _ [callClosing], List.singleton_append,
    List.singleton_append] at hlines
  have hargument := argument?_eq_some_iff.mpr ⟨_, _, isFound_of_notInfix hbefore hclosing (Text.lines after).headI⟩
  refine mem_execFindings.mpr ⟨0, _, ?_, lineFinding?_eq_some_iff.mpr ⟨code, hargument, hhit, rfl⟩⟩
  rw [hlines]
  rfl

/-- **The first call of a line is found**, if its argument holds a command. -/
theorem exists_finding_of_call (after : Text) {before : Text}
    (hfirst : ∀ i < before.length, callOpening <+: before.drop i → Text.newline ∈ before.drop i) :
    ∃ f ∈ execFindings d (before ++ callOpening ++ code ++ callClosing :: after),
      f.line = 1 + before.count Text.newline ∧ f.code = code := by
  induction before using Text.lines_induction with
  | line before h =>
    have hbefore : ¬ callOpening <:+: before := by
      rintro ⟨b, rest, rfl⟩
      have hmem := hfirst b.length (by simp [callOpening, text, Text.ofString]) ⟨rest, by simp⟩
      exact h (List.mem_of_mem_drop hmem)
    refine ⟨_, mem_execFindings_of_call hcode hclosing hhit h hbefore after, ?_, rfl⟩
    rw [List.count_eq_zero_of_not_mem h]
    rfl
  | append first rest h ih =>
    -- the opening stands as many characters further behind as the first line has
    obtain ⟨f, hf, hline, hfcode⟩ := ih fun i hi hopening => by
      have hdrop : (first ++ Text.newline :: rest).drop (first.length + (i + 1)) = rest.drop i := by
        rw [List.drop_length_add_append, List.drop_succ_cons]
      have hmem := hfirst (first.length + (i + 1)) (by simp [hi]) (hdrop ▸ hopening)
      rwa [hdrop] at hmem
    refine ⟨f.down 1, ?_, ?_, hfcode⟩
    · have hsplit : first ++ Text.newline :: rest ++ callOpening ++ code ++ callClosing :: after =
          first ++ Text.newline :: (rest ++ callOpening ++ code ++ callClosing :: after) := by simp
      rw [hsplit, execFindings_append, List.count_eq_zero_of_not_mem h]
      exact List.mem_append_right _ (List.mem_map_of_mem hf)
    · rw [List.count_append, List.count_eq_zero_of_not_mem h, List.count_cons_self, Finding.down, hline]
      push_cast
      ring

end

/-! ## The URL -/

/-- **A URL with closing parentheses behind it is found without them**, if it has no parentheses of its own and what
stands around it is not part of it. -/
theorem mem_urls_of_closed {url rest : Text} {c : CodePoint} (hc : c ∉ urlClass) (hurl : IsMatch url)
    (hopen : openParen ∉ url) (hclose : closeParen ∉ url) (hrest : ∀ c, rest.head? = some c → c ∉ urlClass)
    (before : Text) (n : ℕ) :
    url ∈ urls (before ++ c :: (url ++ List.replicate n closeParen ++ rest)) := by
  have hwhole : IsMatch (url ++ List.replicate n closeParen) := hurl.append fun c hc => by
    rw [List.eq_of_mem_replicate hc]
    decide
  rw [urls_append (Bool.eq_false_iff.mpr (mt isUrlChar_iff.mp hc)), urls_eq_map (url ++ _ ++ rest),
    wholeUrls_append_of_isMatch hwhole hrest, List.map_cons, trimClosing_append_of_notMem hopen hclose]
  exact List.mem_append_right _ (List.mem_cons_self ..)

/-! ## Both -/

/-- **A call with a URL in it.** A call is the first of its line, and its argument ends in a URL without parentheses,
with something before it that is not part of it. Any number of closing parentheses may follow the call. If the
argument holds a command, the call is found with the whole argument, on its line, and the URL is found as it stands.
-/
theorem search_urlInCall (d : Denylist) (before lead url rest : Text) (n : ℕ)
    (hfirst : ∀ i < before.length, text "exec(" <+: before.drop i → Text.newline ∈ before.drop i)
    (hlead : Text.newline ∉ lead ∧ closeParen ∉ lead) (hlast : ∃ c, lead.getLast? = some c ∧ c ∉ urlClass)
    (hurl : IsMatch url ∧ openParen ∉ url ∧ closeParen ∉ url) (hrest : ∀ c, rest.head? = some c → c ∉ urlClass)
    (hhit : ∃ command ∈ d.commands, command <:+: lead ++ url) :
    let content := before ++ text "exec(" ++ lead ++ url ++ text ")" ++ (List.replicate n closeParen ++ rest)
    (∃ f ∈ (search d content).1, f.line = 1 + before.count Text.newline ∧ f.code = lead ++ url) ∧
      url ∈ (search d content).2 := by
  obtain ⟨hmatch, hopen, hclose⟩ := hurl
  intro content
  constructor
  · have hcode : Text.newline ∉ lead ++ url := by
      rw [List.mem_append, not_or]
      exact ⟨hlead.1, fun h => (of_isUrlChar ((isMatch_iff.mp hmatch).2 _ h)).1 rfl⟩
    have hclosing : callClosing ∉ lead ++ url := by
      rw [List.mem_append, not_or]
      exact ⟨hlead.2, hclose⟩
    have hcontent : content =
        before ++ callOpening ++ (lead ++ url) ++ callClosing :: (List.replicate n closeParen ++ rest) := by
      simp only [content, List.append_assoc]
      rfl
    rw [hcontent]
    exact exists_finding_of_call hcode hclosing hhit _ hfirst
  · obtain ⟨c, hlead, hc⟩ := hlast
    obtain ⟨init, rfl⟩ := List.getLast?_eq_some_iff.mp hlead
    have hcontent : content =
        before ++ text "exec(" ++ init ++ c :: (url ++ List.replicate (n + 1) closeParen ++ rest) := by
      simp only [content, List.append_assoc, List.replicate_succ]
      rfl
    rw [hcontent]
    exact mem_urls_of_closed hc hmatch hopen hclose hrest _ _

/-- A call behind a URL, a part of one and a call on the line before. -/
theorem search_urlInCall_nested :
    let d := Denylist.empty.insert (text "curl") (by decide)
    let content := text "http://a(exec(ls)\n(http://" ++ text "exec(" ++ text "curl " ++ text "https://b/c" ++
      text ")" ++ (List.replicate 2 closeParen ++ text ";exec(x)")
    (∃ f ∈ (search d content).1, f.line = 1 + 1 ∧ f.code = text "curl https://b/c") ∧
      text "https://b/c" ∈ (search d content).2 :=
  search_urlInCall _ (text "http://a(exec(ls)\n(http://") (text "curl ") (text "https://b/c") (text ";exec(x)") 2
    (by decide) (by decide) ⟨CodePoint.ofChar ' ', by decide⟩ ⟨isMatch_iff.mpr (by decide), by decide⟩
    (fun c hc => Option.some.inj (show some (CodePoint.ofChar ';') = some c from hc) ▸ by decide)
    ⟨text "curl", by decide⟩

end ExtensionAudit.Detect
