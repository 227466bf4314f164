import Mathlib
import ExtensionAudit.Proofs.Groups
import ExtensionAudit.Proofs.Scan.Account

/-!
# What the report of some files says

Labels, URLs and the files of a URL stand in order of first appearance, and the counts and the files are those of
whatever was given: the same path may be given twice, and the same URL more than once in a file and in several files.

* **`Report.sum_tally`**: no finding is counted twice or left out;
* **`Report.eraseDups_paths`**: the files of a URL are those that hold it;
* `Report.Summarizes`, **`Report.summarizes_ofFiles`**: the whole report.
-/

namespace ExtensionAudit

/-! ## First appearances -/

section EraseDups

variable {α : Type} [BEq α] [LawfulBEq α]

theorem eraseDups_append_replicate (l : List α) (a : α) (n : ℕ) :
    (l ++ List.replicate (n + 1) a).eraseDups = (l ++ [a]).eraseDups := by
  induction n with
  | zero => rfl
  | succ n ih =>
    have hm : a ∈ l ++ List.replicate (n + 1) a := List.mem_append_right _ (by simp)
    classical
    rw [List.replicate_succ', ← List.append_assoc, eraseDups_concat, if_pos hm, ih]

end EraseDups

namespace Report

/-! ## Labels -/

theorem sum_alter (label : Text) (table : Table Text ℤ) :
    ((table.alter label fun n => n.getD 0 + 1).map Prod.snd).sum = (table.map Prod.snd).sum + 1 := by
  induction table with
  | nil => rfl
  | cons entry table ih =>
    rw [Table.alter]
    split
    · rw [List.map_cons, List.map_cons, List.sum_cons, List.sum_cons, Option.getD_some]
      ring
    · rw [List.map_cons, List.map_cons, List.sum_cons, List.sum_cons, ih]
      ring

/-- **No finding is counted twice or left out.** -/
theorem sum_tally (findings : List Finding) : ((tally findings).map Prod.snd).sum = findings.length := by
  induction findings using List.reverseRecOn with
  | nil => rfl
  | append_singleton findings f ih =>
    rw [tally, List.foldl_append, List.foldl_cons, List.foldl_nil, sum_alter, ← tally, ih, List.length_append,
      List.length_singleton, Nat.cast_succ]

/-! ## URLs -/

theorem paths_occurrences (file : FileResult) (url : Text) :
    ((file.occurrences.filter fun o => o.1 = url).map Prod.snd) =
      List.replicate (file.urls.count url) file.path := by
  rw [FileResult.occurrences, List.filter_map, List.map_map, List.eq_replicate_iff]
  constructor
  · rw [List.length_map, List.count, List.countP_eq_length_filter]
    congr 2
    funext u
    exact (beq_eq_decide u url).symm
  · intro path hp
    obtain ⟨_, -, rfl⟩ := List.mem_map.mp hp
    rfl

theorem eraseDups_paths (files : List FileResult) (url : Text) :
    (((files.flatMap FileResult.occurrences).filter fun o => o.1 = url).map Prod.snd).eraseDups =
      ((files.filter fun file => url ∈ file.urls).map FileResult.path).eraseDups := by
  induction files using List.reverseRecOn with
  | nil => rfl
  | append_singleton files file ih =>
    rw [List.flatMap_append, List.flatMap_singleton, List.filter_append, List.map_append, paths_occurrences,
      List.filter_append, List.map_append]
    by_cases hm : url ∈ file.urls
    · obtain ⟨n, hn⟩ := Nat.exists_eq_succ_of_ne_zero (List.count_pos_iff.mpr hm).ne'
      have hsame : ∀ path, path ∈ ((files.flatMap FileResult.occurrences).filter fun o => o.1 = url).map Prod.snd ↔
          path ∈ (files.filter fun file => url ∈ file.urls).map FileResult.path := by
        intro path
        rw [← List.mem_eraseDups, ih, List.mem_eraseDups]
      rw [hn, eraseDups_append_replicate, List.filter_cons_of_pos (by simpa using hm), List.filter_nil,
        List.map_singleton, eraseDups_concat, eraseDups_concat, ih]
      simp only [hsame]
    · rw [List.count_eq_zero_of_not_mem hm, List.replicate_zero, List.append_nil,
        List.filter_cons_of_neg (by simpa using hm), List.filter_nil, List.map_nil, List.append_nil, ih]

/-! ## The whole report -/

/-- **What a report says** about some files: all that they hold, and nothing else. -/
structure Summarizes (r : Report) (files : List FileResult) : Prop where
  /-- The findings are those of the files, in order, each under the path of its file. -/
  findings_eq : r.findings = files.flatMap fun file => file.findings.map fun f => { f with path := file.path }
  nodup_labels : r.grouped.keys.Nodup
  /-- The labels stand in order of first appearance. -/
  labels_eq : r.grouped.keys = (r.findings.map Finding.groupKey).eraseDups
  /-- Each count is the number of the findings with that label. -/
  count_eq : ∀ label n, (label, n) ∈ r.grouped → 0 < n ∧ n = r.findings.countP fun f => f.groupKey = label
  sum_counts : (r.grouped.map Prod.snd).sum = r.findings.length
  nodup_urls : r.urls.keys.Nodup
  /-- The URLs stand in order of first appearance. -/
  urls_eq : r.urls.keys = (files.flatMap FileResult.urls).eraseDups
  nodup_paths : ∀ url paths, (url, paths) ∈ r.urls → paths.Nodup
  /-- The files of a URL are those that hold it, in order of first appearance. -/
  paths_eq : ∀ url paths, (url, paths) ∈ r.urls →
    paths = ((files.filter fun file => url ∈ file.urls).map FileResult.path).eraseDups
  nodup_occurrences : r.urlOccurrences.Nodup
  mem_occurrences : ∀ url path, (url, path) ∈ r.urlOccurrences ↔
    ∃ file ∈ files, file.path = path ∧ url ∈ file.urls
  skipped_eq : r.skipped = []
  truncated_eq : r.truncated = false

theorem nodup_urlOccurrences {r : Report} (hu : r.urls.keys.Nodup)
    (hp : ∀ url paths, (url, paths) ∈ r.urls → paths.Nodup) : r.urlOccurrences.Nodup := by
  rw [urlOccurrences, List.nodup_flatMap]
  constructor
  · rintro ⟨url, paths⟩ he
    exact (hp url paths he).map fun a b h => (Prod.mk.inj h).2
  · rw [Table.keys, List.Nodup, List.pairwise_map] at hu
    refine hu.imp ?_
    rintro ⟨url, paths⟩ ⟨url', paths'⟩ hne o ho ho'
    obtain ⟨path, -, rfl⟩ := List.mem_map.mp ho
    obtain ⟨path', -, he⟩ := List.mem_map.mp ho'
    exact hne (Prod.mk.inj he).1.symm

/-- **The report of some files loses nothing and counts right.** -/
theorem summarizes_ofFiles (files : List FileResult) : (ofFiles files).Summarizes files := by
  have hnodup : (ofFiles files).urls.keys.Nodup := by
    rw [ofFiles, keys_provenance]
    exact nodup_eraseDups _
  have hpaths : ∀ url paths, (url, paths) ∈ (ofFiles files).urls →
      paths = ((files.filter fun file => url ∈ file.urls).map FileResult.path).eraseDups := by
    intro url paths h
    rw [Table.mem_iff_get? hnodup, ofFiles, get?_provenance] at h
    split at h
    · rw [← Option.some.inj h, eraseDups_paths]
    · cases h
  have hnodupPaths : ∀ url paths, (url, paths) ∈ (ofFiles files).urls → paths.Nodup := by
    intro url paths h
    rw [hpaths url paths h]
    exact nodup_eraseDups _
  exact {
    findings_eq := rfl
    nodup_labels := nodup_keys_tally _
    labels_eq := keys_tally _
    count_eq := by
      intro label n h
      obtain ⟨hpos, hn⟩ := mem_tally.mp h
      refine ⟨hpos, hn.trans ?_⟩
      rw [List.count, List.countP_map]
      congr 2
      funext f
      exact beq_eq_decide f.groupKey label
    sum_counts := sum_tally _
    nodup_urls := hnodup
    urls_eq := by
      rw [ofFiles, keys_provenance, List.map_flatMap]
      simp [FileResult.occurrences, Function.comp_def]
    nodup_paths := hnodupPaths
    paths_eq := hpaths
    nodup_occurrences := nodup_urlOccurrences hnodup hnodupPaths
    mem_occurrences := fun url path => mem_urlOccurrences
    skipped_eq := rfl
    truncated_eq := rfl }

/-- The same path twice, and the same URL in and across files. -/
example : (ofFiles [⟨text "a", [], [text "u", text "u"]⟩, ⟨text "b", [], [text "u"]⟩,
    ⟨text "a", [], [text "v", text "u"]⟩]).urls = [(text "u", [text "a", text "b"]), (text "v", [text "a"])] := by
  decide

end Report

end ExtensionAudit
