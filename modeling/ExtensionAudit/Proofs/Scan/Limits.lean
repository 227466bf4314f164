import ExtensionAudit.Proofs.Groups
import ExtensionAudit.Proofs.Scan.Account
import ExtensionAudit.Proofs.Scan.Remote

/-!
# Tighter limits

A scan with a tighter size limit or a tighter time limit finds no more than another one, and in the same order. If
only the time is tighter, it finds the same up to the file where it stops.

* `Report.Within`: a report that holds no more than another one;
* `Scanner.Tighter`: two scanners of one package, one of them with tighter limits;
* `Scanner.Accounted.within`: what is read of fewer files, with a tighter size limit;
* **`Scanner.scan_tighter`**: tighter limits only remove results.
-/

namespace ExtensionAudit

variable {fs : FileSystem} {cwd : Location} {p : Path} {bytes : Bytes}

theorem FileSystem.readable?_mono {limit limit' : ℤ} (hl : limit ≤ limit')
    (h : fs.readable? cwd limit p = some bytes) : fs.readable? cwd limit' p = some bytes := by
  obtain ⟨hstat, hsize⟩ := readable?_eq_some.mp h
  exact readable?_eq_some.mpr ⟨hstat, hsize.trans hl⟩

namespace Report

/-- **A report that holds no more than another one**: its findings are some of the others, in the same order. -/
structure Within (r r' : Report) : Prop where
  findings : r.findings.Sublist r'.findings
  grouped : ∀ label n, (label, n) ∈ r.grouped → ∃ n', (label, n') ∈ r'.grouped ∧ n ≤ n'
  urlOccurrences : ∀ o ∈ r.urlOccurrences, o ∈ r'.urlOccurrences
  isMalicious : r.isMalicious = true → r'.isMalicious = true

theorem exists_le_of_mem_tally {findings findings' : List Finding} (h : findings.Sublist findings') {label : Text}
    {n : ℤ} (hn : (label, n) ∈ tally findings) : ∃ n', (label, n') ∈ tally findings' ∧ n ≤ n' := by
  obtain ⟨hpos, rfl⟩ := mem_tally.mp hn
  have hle : (findings.map Finding.groupKey).count label ≤ (findings'.map Finding.groupKey).count label :=
    (h.map _).count_le label
  exact ⟨_, mem_tally.mpr ⟨by omega, rfl⟩, by exact_mod_cast hle⟩

theorem isMalicious_of_sublist {r r' : Report} (h : r.findings.Sublist r'.findings) (hr : r.isMalicious = true) :
    r'.isMalicious = true := by
  rw [isMalicious, Bool.not_eq_true', List.isEmpty_eq_false_iff] at hr ⊢
  intro hnil
  rw [hnil, List.sublist_nil] at h
  exact hr h

end Report

namespace Scanner

/-- **Two scanners of one package**, with the same denylist, where the limits of the first one are no less tight. -/
structure Tighter (s s' : Scanner) : Prop where
  root : s.root = s'.root
  denylist : s.denylist = s'.denylist
  size : s.maxFileSize ≤ s'.maxFileSize
  time : Clock.Tighter s.timeLimit s'.timeLimit

variable {s s' s₁ s₁' : Scanner} {vs : List Visit} {r r' : Report}

theorem findingsAt_sublist (h : s.Tighter s') (fs : FileSystem) (cwd : Location) (p : Path) :
    (s.findingsAt fs cwd p).Sublist (s'.findingsAt fs cwd p) := by
  rw [findingsAt]
  split
  · exact List.nil_sublist _
  · next bytes hb =>
    rw [findingsAt, FileSystem.readable?_mono h.size hb, h.denylist]

section Accounted

variable {reached reached' : List Path} (ht : s.Tighter s') (h : s.Accounted fs cwd vs reached s₁ r)
  (h' : s'.Accounted fs cwd vs reached' s₁' r') (hp : reached <+: reached')
include ht h h' hp

/-- **What is read of fewer files**, with a tighter size limit. -/
theorem Accounted.within (hg : r.grouped = Report.tally r.findings) (hg' : r'.grouped = Report.tally r'.findings) :
    r.Within r' := by
  have hfindings : r.findings.Sublist r'.findings := by
    rw [h.findings, h'.findings]
    have hfiles : (reached.flatMap (s.findingsAt fs cwd)).Sublist (reached.flatMap (s'.findingsAt fs cwd)) :=
      List.Sublist.flatMap_right _ fun p _ => findingsAt_sublist ht fs cwd p
    exact hfiles.trans (hp.sublist.flatMap _)
  refine ⟨hfindings, ?_, ?_, Report.isMalicious_of_sublist hfindings⟩
  · intro label n hn
    rw [hg] at hn
    rw [hg']
    exact Report.exists_le_of_mem_tally hfindings hn
  · rintro ⟨url, p⟩ ho
    obtain ⟨hmem, bytes, hb, hu⟩ := (h.mem_urls url p).mp ho
    exact (h'.mem_urls url p).mpr ⟨hp.subset hmem, bytes, FileSystem.readable?_mono ht.size hb, hu⟩

theorem Accounted.findings_skipped_prefix (hs : s.maxFileSize = s'.maxFileSize) :
    r.findings <+: r'.findings ∧ r.skipped <+: r'.skipped := by
  have hsame : s.findingsAt fs cwd = s'.findingsAt fs cwd := by
    funext p
    rw [findingsAt, findingsAt, hs, ht.denylist]
  constructor
  · rw [h.findings, h'.findings, hsame]
    exact hp.flatMap _
  · rw [h.skipped, h'.skipped, hs, List.prefix_append_right_inj]
    exact hp.filter _

end Accounted

theorem exists_accounted (s : Scanner) (fs : FileSystem) (cwd : Location) (clock : Clock) (vs : List Visit) :
    ∃ s', s.Accounted fs cwd vs ((Visit.files vs).take (clock.reach s.timeLimit (Visit.files vs).length).1) s'
      (report vs (s.examine fs cwd clock (Visit.files vs)).1) :=
  ⟨{ s with
      scanned := s.scanned + (s.examine fs cwd clock (Visit.files vs)).1.results.length
      skipped := s.skipped + (s.examine fs cwd clock (Visit.files vs)).1.skipped.length },
    accounted_report rfl rfl rfl⟩

/-- **Tighter limits only remove results.** Where a scan returns, so does the scan with the looser limits, unless
there is no telling when the time of that one will be over; and it has found as much. If the sizes are limited alike,
the one with less time has the first of the findings and of the files that were skipped. -/
theorem scan_tighter {w w₁ : World} (ht : s.Tighter s') (h : s.scan w = (s₁, w₁, .ok r)) :
    (Clock.isBeyond w.horizon s'.timeLimit = true ∧ (s'.scan w).2.2 = .error .limitTooGreat) ∨
    ∃ s₂ w₂ r', s'.scan w = (s₂, w₂, .ok r') ∧ r.Within r' ∧
      (s.maxFileSize = s'.maxFileSize → r.findings <+: r'.findings ∧ r.skipped <+: r'.skipped) := by
  obtain ⟨fs, root, hsite, -, vs, hwalk, rfl⟩ := result_scan_eq_ok.mp (congrArg (fun out => out.2.2) h)
  cases hz : Clock.isBeyond w.horizon s'.timeLimit with
  | true =>
    refine Or.inl ⟨rfl, ?_⟩
    rw [result_scan, ← ht.root, hsite]
    simp only [Except.bind, outcome, hwalk, hz, if_true]
  | false =>
    have h' := result_scan_eq_ok.mpr ⟨fs, root, ht.root ▸ hsite, hz, vs, hwalk, rfl⟩
    refine Or.inr ⟨(s'.scan w).1, (s'.scan w).2.1, _, Prod.ext rfl (Prod.ext rfl h'), ?_⟩
    obtain ⟨_, hacc⟩ := s.exists_accounted fs w.cwd w.clock vs
    obtain ⟨_, hacc'⟩ := s'.exists_accounted fs w.cwd w.clock vs
    have hp : (Visit.files vs).take (w.clock.reach s.timeLimit (Visit.files vs).length).1 <+:
        (Visit.files vs).take (w.clock.reach s'.timeLimit (Visit.files vs).length).1 :=
      List.take_prefix_take_left (Clock.reach_mono ht.time _ _)
    exact ⟨hacc.within ht hacc' hp rfl rfl, hacc.findings_skipped_prefix ht hacc' hp⟩

/-- A package that cannot be read to its end within a minute, and the same without a time limit. -/
theorem scan_tighter_hasty : ∃ s₁ w₁ r s₂ w₂ r', hasty.scan hastyWorld = (s₁, w₁, .ok r) ∧
    { hasty with timeLimit := 0 }.scan hastyWorld = (s₂, w₂, .ok r') ∧ r.truncated = true ∧ r.Within r' ∧
      r.findings <+: r'.findings ∧ r.skipped <+: r'.skipped := by
  obtain ⟨s₁, w₁, x, clock, hx, h⟩ := exists_scan_eq (by decide) (by decide) walk_hastyWorld
  have ht : hasty.Tighter { hasty with timeLimit := 0 } := ⟨rfl, rfl, le_rfl, Or.inl le_rfl⟩
  rcases scan_tighter ht h with ⟨hz, -⟩ | ⟨s₂, w₂, r', h', hwithin, hprefix⟩
  · cases hz
  refine ⟨s₁, w₁, _, s₂, w₂, r', h, h', (truncated_examine hx).mpr ?_, hwithin, hprefix rfl⟩
  rw [show (hastyWorld.clock.reach hasty.timeLimit _).1 = 2 by cbv]
  decide

end Scanner

end ExtensionAudit
