import Mathlib
import ExtensionAudit.Detect.Exec
import ExtensionAudit.Detect.Url
import ExtensionAudit.Proofs.Lines

/-!
# What detectors find

The argument of a call stands in one line and holds no closing parenthesis. A URL starts with its scheme and
consists of URL characters, also when the parentheses at its end have been taken off.

* `Denylist.isHitBy_iff`: the arguments that a denylist is hit by;
* `Detect.lineFinding?_eq_some_iff`, `Detect.mem_execFindings`: the findings of a line and of a content;
* `Detect.IsCode`, **`Detect.isCode_of_mem_execFindings`**: the arguments of calls;
* `Detect.dropClosing_eq`, `Detect.exists_trimClosing`, `Detect.prefix_trimClosing`: what is taken off a URL, and what
  stays;
* `Detect.of_urlOfRun?`: the URL of a run of URL characters;
* `Detect.IsUrl`, **`Detect.isUrl_of_mem_urls`**: URLs.
-/

namespace ExtensionAudit

theorem Denylist.isHitBy_iff {d : Denylist} {argument : Text} :
    d.isHitBy argument = true ↔ ∃ command ∈ d.commands, command <:+: argument := by
  simp only [isHitBy, List.any_eq_true, Text.holds_iff]

namespace Detect

/-! ## Codes -/

/-- The argument of a call in a content. -/
structure IsCode (content code : Text) : Prop where
  newline_notMem : Text.newline ∉ code
  closing_notMem : callClosing ∉ code
  subset : code ⊆ content

theorem isCode_of_argument? {content line code : Text} (hl : line ∈ Text.lines content)
    (h : argument? line = some code) : IsCode content code := by
  unfold argument? at h
  split at h
  · cases h
  · next rest hr =>
    split at h
    · cases h
      obtain ⟨before, hb⟩ := Text.after?_eq_some hr
      have hsub : ∀ c ∈ rest.takeWhile (· != callClosing), c ∈ line := by
        intro c hc
        rw [hb]
        exact List.mem_append_right _ (List.takeWhile_subset _ hc)
      refine ⟨fun hn => (Text.of_mem_lines hl).1 (hsub _ hn), fun hc => ?_,
        fun c hc => (Text.of_mem_lines hl).2 c (hsub c hc)⟩
      simpa using List.mem_takeWhile_imp hc
    · cases h

/-- **The finding of a line**, if it has one. -/
theorem lineFinding?_eq_some_iff {d : Denylist} {line : Text} {number : ℕ} {f : Finding} :
    lineFinding? d line number = some f ↔
      ∃ code, argument? line = some code ∧ (∃ command ∈ d.commands, command <:+: code) ∧
        f = ⟨[], number, code, execKind⟩ := by
  unfold lineFinding?
  cases argument? line with
  | none => simp
  | some code =>
    simp only [Option.some.injEq, exists_eq_left', ← Denylist.isHitBy_iff]
    split
    · next h => simp [h, eq_comm]
    · next h => simp [h]

/-- **The findings of a content** are those of its lines, which are counted from one. -/
theorem mem_execFindings {d : Denylist} {content : Text} {f : Finding} : f ∈ execFindings d content ↔
    ∃ n line, (Text.lines content)[n]? = some line ∧ lineFinding? d line (n + 1) = some f := by
  rw [execFindings, List.mem_filterMap]
  constructor
  · rintro ⟨⟨line, number⟩, hm, hf⟩
    obtain ⟨hle, hline⟩ := List.mk_mem_zipIdx_iff_le_and_getElem?_sub.mp hm
    exact ⟨number - 1, line, hline, by rwa [Nat.sub_add_cancel hle]⟩
  · rintro ⟨n, line, hline, hf⟩
    exact ⟨(line, n + 1), List.mk_mem_zipIdx_iff_le_and_getElem?_sub.mpr ⟨Nat.le_add_left 1 n, hline⟩, hf⟩

/-- **The code of a finding is the argument of a call**, and its kind is the one there is. -/
theorem isCode_of_mem_execFindings {d : Denylist} {content : Text} {f : Finding}
    (h : f ∈ execFindings d content) : IsCode content f.code ∧ f.kind = execKind := by
  obtain ⟨n, line, hline, hf⟩ := mem_execFindings.mp h
  obtain ⟨code, hcode, -, rfl⟩ := lineFinding?_eq_some_iff.mp hf
  exact ⟨isCode_of_argument? (List.mem_of_getElem? hline) hcode, rfl⟩

/-! ## URLs -/

/-- What every URL begins with. -/
def commonScheme : Text := text "http"

/-- A text that looks like a URL. -/
structure IsUrl (url : Text) : Prop where
  isPrefix : commonScheme <+: url
  isUrlChar : ∀ c ∈ url, isUrlChar c = true

/-- **How many parentheses are dropped**: as many as stand in front, but no more than are left over. -/
theorem dropClosing_eq (opening closing : ℕ) (t : Text) : dropClosing opening closing t =
    t.drop (min (t.takeWhile (· == closeParen)).length (closing - opening)) := by
  induction t generalizing closing with
  | nil => rw [List.drop_nil, dropClosing]
  | cons c t ih =>
    rw [dropClosing]
    split
    · next h =>
      -- one parenthesis less at the end, and one less in all
      obtain ⟨n, hn⟩ := Nat.exists_eq_add_of_lt h.2
      have hleft : closing - opening = (closing - 1 - opening) + 1 := by omega
      rw [ih, List.takeWhile_cons_of_pos (by simpa using h.1), List.length_cons, hleft, Nat.add_min_add_right,
        List.drop_succ_cons]
    · next h =>
      have hzero : min ((c :: t).takeWhile (· == closeParen)).length (closing - opening) = 0 := by
        by_cases hc : c = closeParen
        · have hle : closing ≤ opening := Nat.le_of_not_lt fun hlt => h ⟨hc, hlt⟩
          rw [Nat.sub_eq_zero_of_le hle, Nat.min_zero]
        · rw [List.takeWhile_cons_of_neg (by simpa using hc), List.length_nil, Nat.zero_min]
      rw [hzero, List.drop_zero]

theorem exists_trimClosing (url : Text) :
    ∃ dropped, url = trimClosing url ++ dropped ∧ ∀ c ∈ dropped, c = closeParen := by
  rw [trimClosing, dropClosing_eq]
  generalize hn : min (url.reverse.takeWhile (· == closeParen)).length (url.count closeParen - url.count openParen) = n
  refine ⟨(url.reverse.take n).reverse, ?_, fun c hc => ?_⟩
  · rw [← List.reverse_append, List.take_append_drop, List.reverse_reverse]
  · have hpre : url.reverse.take n <+: url.reverse.takeWhile (· == closeParen) :=
      List.prefix_of_prefix_length_le (List.take_prefix _ _) (List.takeWhile_prefix _) (by rw [List.length_take]; omega)
    simpa using List.mem_takeWhile_imp (hpre.subset (List.mem_reverse.mp hc))

theorem prefix_trimClosing {start url : Text} (h : start <+: url) (hs : closeParen ∉ start) :
    start <+: trimClosing url := by
  obtain ⟨dropped, hurl, hd⟩ := exists_trimClosing url
  rcases List.prefix_or_prefix_of_prefix h ⟨dropped, hurl.symm⟩ with hp | ⟨rest, hrest⟩
  · exact hp
  · -- what of the start lies behind the rest of the URL was taken off
    have hpre : rest <+: dropped := by
      rw [hurl, ← hrest, List.prefix_append_right_inj] at h
      exact h
    have hnil : rest = [] := by
      rw [List.eq_nil_iff_forall_not_mem]
      intro c hc
      exact hs (hrest ▸ List.mem_append_right _ (hd c (hpre.subset hc) ▸ hc))
    rw [← hrest, hnil, List.append_nil]

theorem IsUrl.trimClosing {url : Text} (h : IsUrl url) : IsUrl (trimClosing url) := by
  obtain ⟨dropped, hurl, -⟩ := exists_trimClosing url
  have htrim : Detect.trimClosing url <+: url := ⟨dropped, hurl.symm⟩
  exact ⟨prefix_trimClosing h.isPrefix (by decide), fun c hc => h.isUrlChar c (htrim.subset hc)⟩

theorem isPrefix_of_isUrlStart {t : Text} (h : isUrlStart t = true) : commonScheme <+: t := by
  unfold isUrlStart at h
  obtain ⟨scheme, hs, hp⟩ := List.any_eq_true.mp h
  have hp' : scheme <+: t := List.isPrefixOf_iff_prefix.mp (Bool.and_eq_true .. ▸ hp).1
  have hall : ∀ scheme ∈ schemes, commonScheme <+: scheme := by decide
  exact (hall scheme hs).trans hp'

theorem urlOfRun?_eq_some {run url : Text} (h : urlOfRun? run = some url) : isUrlStart url = true ∧ url <:+ run := by
  induction run with
  | nil => cases h
  | cons c run ih =>
    rw [urlOfRun?] at h
    split at h
    · next hs =>
      cases h
      exact ⟨hs, List.suffix_rfl⟩
    · obtain ⟨hs, hsuffix⟩ := ih h
      exact ⟨hs, hsuffix.trans (List.suffix_cons c run)⟩

theorem of_urlOfRun? {content run url : Text} (hr : run ∈ urlRuns content) (h : urlOfRun? run = some url) :
    isUrlStart url = true ∧ ∀ c ∈ url, isUrlChar c = true := by
  obtain ⟨hs, hsuffix⟩ := urlOfRun?_eq_some h
  exact ⟨hs, fun c hc => by simpa using (Text.of_mem_splitOnP hr c (hsuffix.subset hc)).1⟩

/-- **Every URL that is found looks like one.** -/
theorem isUrl_of_mem_urls {content url : Text} (h : url ∈ urls content) : IsUrl url := by
  obtain ⟨whole, hw, rfl⟩ := List.mem_map.mp h
  obtain ⟨run, hrun, hw⟩ := List.mem_filterMap.mp hw
  obtain ⟨hs, hchar⟩ := of_urlOfRun? hrun hw
  exact IsUrl.trimClosing ⟨isPrefix_of_isUrlStart hs, hchar⟩

theorem of_isUrlChar {c : CodePoint} (h : isUrlChar c = true) : c ≠ Text.newline ∧ c.isSurrogate = false := by
  have hpunctuation : ∀ c ∈ urlPunctuation, c ≠ Text.newline ∧ c.isSurrogate = false := by decide
  unfold isUrlChar at h
  simp only [Bool.or_eq_true, Bool.and_eq_true, decide_eq_true_eq, List.contains_iff_mem] at h
  rcases h with h | h
  · have hn : Text.newline.toNat = 10 := rfl
    refine ⟨fun e => ?_, ?_⟩
    · rw [e, hn] at h
      omega
    · simp only [CodePoint.isSurrogate, Bool.and_eq_false_iff, decide_eq_false_iff_not]
      omega
  · exact hpunctuation c h

end Detect

end ExtensionAudit
