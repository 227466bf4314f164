import Mathlib
import ExtensionAudit.Report.Basic

/-!
# Groups of findings

Findings with the same label are one group, and each URL stands once in a report. Groups and URLs stand in order of
first appearance.

* `eraseDups_concat`, `nodup_eraseDups`: a list with each element where it first appears;
* **`Table.keys_foldl_alter`**, **`Table.get?_foldl_alter`**, `Table.mem_iff_get?`: tables that are built key by key;
* `Report.get?_tally`, **`Report.mem_tally`**: how often a label occurs;
* `Report.codeOf`, `Report.details`, **`Report.mem_details`**: the codes of the groups, with their counts;
* `Report.keys_provenance`, `Report.get?_provenance`: the URLs of a report, with their files.
-/

namespace ExtensionAudit

/-! ## First appearances -/

section EraseDups

variable {α : Type} [BEq α] [LawfulBEq α]

theorem eraseDups_concat (l : List α) (a : α) [Decidable (a ∈ l)] :
    (l ++ [a]).eraseDups = if a ∈ l then l.eraseDups else l.eraseDups ++ [a] := by
  rw [List.eraseDups_append, List.removeAll]
  split
  · next h => simp [h]
  · next h => simp [h, List.eraseDups_cons]

theorem nodup_eraseDups (l : List α) : l.eraseDups.Nodup := by
  induction l using List.reverseRecOn with
  | nil => exact .nil
  | append_singleton l a ih =>
    classical
    rw [eraseDups_concat]
    split
    · exact ih
    · next h =>
      rw [← List.concat_eq_append, List.nodup_concat, List.mem_eraseDups]
      exact ⟨h, ih⟩

end EraseDups

namespace Table

variable {κ ν α : Type} [DecidableEq κ]

/-- **The keys of a table that is built key by key** stand in order of first appearance. -/
theorem keys_foldl_alter [BEq κ] [LawfulBEq κ] (key : α → κ) (f : α → Option ν → ν) (xs : List α) :
    (xs.foldl (fun table x => Table.alter (key x) (f x) table) []).keys = (xs.map key).eraseDups := by
  induction xs using List.reverseRecOn with
  | nil => rfl
  | append_singleton xs x ih =>
    rw [List.foldl_append, List.foldl_cons, List.foldl_nil, keys_alter, ih, List.map_append, List.map_singleton,
      eraseDups_concat]
    simp only [List.mem_eraseDups]

/-- **The value of a key in such a table** is what the elements with this key make of it, one after the other. -/
theorem get?_foldl_alter [BEq κ] [LawfulBEq κ] (key : α → κ) (f : α → Option ν → ν) (value : List α → ν)
    (hfirst : ∀ x, f x none = value [x]) (hnext : ∀ xs x, f x (some (value xs)) = value (xs ++ [x]))
    (xs : List α) (k : κ) :
    Table.get? (xs.foldl (fun table x => Table.alter (key x) (f x) table) []) k =
      if k ∈ xs.map key then some (value (xs.filter fun x => key x = k)) else none := by
  induction xs using List.reverseRecOn with
  | nil => rfl
  | append_singleton xs x ih =>
    rw [List.foldl_append, List.foldl_cons, List.foldl_nil, get?_alter, List.map_append, List.filter_append]
    by_cases hx : key x = k
    · subst hx
      have hm : key x ∈ xs.map key ++ [x].map key := List.mem_append_right _ List.mem_cons_self
      rw [if_pos rfl, ih, if_pos hm, Option.some.injEq, List.filter_cons_of_pos (by simp), List.filter_nil]
      split
      · exact hnext _ x
      · next hm =>
        -- no element before this one has its key
        have hnil : (xs.filter fun y => key y = key x) = [] :=
          List.filter_eq_nil_iff.mpr fun y hy h => hm (List.mem_map.mpr ⟨y, hy, of_decide_eq_true h⟩)
        rw [hnil]
        exact hfirst x
    · rw [if_neg hx, ih, List.filter_cons_of_neg (by simpa using hx), List.filter_nil, List.append_nil]
      simp only [List.mem_append, List.map_singleton, List.mem_singleton, Ne.symm hx, or_false]

theorem mem_iff_get? {table : Table κ ν} (h : table.keys.Nodup) {k : κ} {v : ν} :
    (k, v) ∈ table ↔ table.get? k = some v := by
  induction table with
  | nil => simp [get?]
  | cons entry rest ih =>
    rw [keys, List.map_cons, List.nodup_cons] at h
    rw [List.mem_cons, get?, ih h.2]
    by_cases hk : entry.1 = k
    · have hrest : get? rest k ≠ some v := fun hv => h.1 (hk ▸ mem_keys_of_get?_eq_some hv)
      rw [if_pos hk, Option.some.injEq, Prod.ext_iff]
      simp only [hk, true_and, hrest, or_false, eq_comm]
    · rw [if_neg hk, Prod.ext_iff]
      simp only [Ne.symm hk, false_and, false_or]

end Table

namespace Report

/-! ## Labels -/

section Tally

variable {findings : List Finding} {label : Text}

theorem keys_tally (findings : List Finding) :
    (tally findings).keys = (findings.map Finding.groupKey).eraseDups :=
  Table.keys_foldl_alter Finding.groupKey (fun _ n => n.getD 0 + 1) findings

theorem nodup_keys_tally (findings : List Finding) : (tally findings).keys.Nodup :=
  keys_tally findings ▸ nodup_eraseDups _

theorem get?_tally (findings : List Finding) (label : Text) : (tally findings).get? label =
    if label ∈ findings.map Finding.groupKey then some ((findings.map Finding.groupKey).count label : ℤ)
    else none := by
  have hcount : (findings.map Finding.groupKey).count label =
      (findings.filter fun f => f.groupKey = label).length := by
    rw [List.count, List.countP_map, List.countP_eq_length_filter]
    congr 2
    funext f
    exact beq_eq_decide f.groupKey label
  rw [hcount]
  exact Table.get?_foldl_alter Finding.groupKey (fun _ n => n.getD 0 + 1) (fun fs => (fs.length : ℤ)) (fun _ => rfl)
    (fun fs f => by simp) findings label

/-- **How often a label occurs.** -/
theorem mem_tally {n : ℤ} : (label, n) ∈ tally findings ↔
    0 < n ∧ n = ((findings.map Finding.groupKey).count label : ℤ) := by
  rw [Table.mem_iff_get? (nodup_keys_tally findings), get?_tally]
  by_cases hm : label ∈ findings.map Finding.groupKey
  · have hpos : 0 < (findings.map Finding.groupKey).count label := List.count_pos_iff.mpr hm
    rw [if_pos hm, Option.some.injEq]
    omega
  · rw [if_neg hm, List.count_eq_zero_of_not_mem hm]
    simp only [reduceCtorEq, Nat.cast_zero, false_iff]
    omega

theorem exists_of_mem_tally {g : Text × ℤ} (h : g ∈ tally findings) : ∃ f ∈ findings, f.groupKey = g.1 := by
  obtain ⟨hpos, hn⟩ := mem_tally.mp h
  have hm : g.1 ∈ findings.map Finding.groupKey := List.count_pos_iff.mp (by omega)
  exact List.mem_map.mp hm

theorem tally_eq_nil_iff : tally findings = [] ↔ findings = [] := by
  constructor
  · intro h
    rw [List.eq_nil_iff_forall_not_mem]
    intro f hf
    have hm : f.groupKey ∈ findings.map Finding.groupKey := List.mem_map_of_mem hf
    have hpos : 0 < (findings.map Finding.groupKey).count f.groupKey := List.count_pos_iff.mpr hm
    have hg : (f.groupKey, ((findings.map Finding.groupKey).count f.groupKey : ℤ)) ∈ tally findings :=
      mem_tally.mpr ⟨by omega, rfl⟩
    rw [h] at hg
    exact List.not_mem_nil hg
  · rintro rfl
    rfl

end Tally

/-! ## Codes -/

/-- What stands behind the code in the label of a finding. -/
def labelTail : Text := text " (" ++ execKind ++ text ")"

/-- The code in the label of a finding. -/
def codeOf (label : Text) : Text := label.take (label.length - labelTail.length)

/-- The codes of the groups with their counts, in order. -/
def details (r : Report) : List (Text × ℤ) := r.grouped.map fun g => (codeOf g.1, g.2)

theorem groupKey_eq {f : Finding} (h : f.kind = execKind) : f.groupKey = f.code ++ labelTail := by
  rw [Finding.groupKey, h, labelTail]
  simp only [List.append_assoc]

theorem codeOf_append (code : Text) : codeOf (code ++ labelTail) = code := by
  rw [codeOf, List.length_append, Nat.add_sub_cancel, List.take_left]

variable {r : Report}

/-- **How often a code occurs**: that is what the details say. -/
theorem mem_details (hg : r.grouped = tally r.findings) (hk : ∀ f ∈ r.findings, f.kind = execKind) {code : Text}
    {n : ℤ} : (code, n) ∈ r.details ↔ 0 < n ∧ n = r.findings.countP fun f => f.code = code := by
  have hcount : (r.findings.map Finding.groupKey).count (code ++ labelTail) =
      r.findings.countP fun f => f.code = code := by
    rw [List.count, List.countP_map]
    refine List.countP_congr fun f hf => ?_
    simp [groupKey_eq (hk f hf)]
  have hmem : (code, n) ∈ r.details ↔ (code ++ labelTail, n) ∈ tally r.findings := by
    rw [details, hg, List.mem_map]
    constructor
    · rintro ⟨⟨label, m⟩, hm, he⟩
      obtain ⟨f, hf, hlabel⟩ := exists_of_mem_tally hm
      obtain rfl : f.code ++ labelTail = label := by rw [← groupKey_eq (hk f hf), hlabel]
      obtain ⟨rfl, rfl⟩ := Prod.mk.inj he
      rwa [codeOf_append]
    · exact fun hm => ⟨_, hm, by rw [codeOf_append]⟩
  rw [hmem, mem_tally, hcount]

/-! ## URLs -/

theorem keys_provenance (occurrences : List (Text × Text)) :
    (provenance occurrences).keys = (occurrences.map Prod.fst).eraseDups :=
  Table.keys_foldl_alter Prod.fst (fun o => addPath o.2) occurrences

theorem addPath_eraseDups (paths : List Text) (path : Text) :
    addPath path (some paths.eraseDups) = (paths ++ [path]).eraseDups := by
  rw [eraseDups_concat, addPath, Option.getD_some]
  simp only [List.mem_eraseDups]

/-- **The files of a URL** stand in order of first appearance. -/
theorem get?_provenance (occurrences : List (Text × Text)) (url : Text) : (provenance occurrences).get? url =
    if url ∈ occurrences.map Prod.fst then
      some (((occurrences.filter fun o => o.1 = url).map Prod.snd).eraseDups)
    else none :=
  Table.get?_foldl_alter Prod.fst (fun o => addPath o.2) (fun os => (os.map Prod.snd).eraseDups) (fun _ => rfl)
    (fun os o => by rw [addPath_eraseDups, List.map_append, List.map_singleton]) occurrences url

theorem mem_keys_provenance (occurrences : List (Text × Text)) (url : Text) :
    url ∈ (provenance occurrences).keys ↔ url ∈ occurrences.map (·.1) := by
  rw [keys_provenance, List.mem_eraseDups]

end Report

end ExtensionAudit
