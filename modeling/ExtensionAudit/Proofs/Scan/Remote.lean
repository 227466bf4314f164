import Mathlib
import ExtensionAudit.Proofs.Scan.Outcome
import ExtensionAudit.Proofs.Utf8

/-!
# Directories for what is fetched

A repository is fetched into a directory that was not there. There is always a name for one, unless the names run out,
and a scan tells of exactly one such directory if its package is remote, and else of none.

* `Scanner.exists_temporaryName?`, `Scanner.temporaryName?_inj`: the names for such directories;
* **`Scanner.le_of_freshName?`**: the names run out only in a world with more entries than could ever be;
* `World.directories`: the directories that were told of;
* **`Scanner.trace_scan`**: what a scan fetches, and the directory it tells of;
* `Scanner.scan_of_failure`, `Scanner.scan_of_noRoom`: how a scan ends that can fetch nothing;
* `Scanner.site`, `Scanner.outcome`, **`Scanner.result_scan`**: what a scan comes to, once it is known where the files
  lie.
-/

namespace ExtensionAudit

/-! ## Names -/

theorem Utf8.size_eq_length {t : Text} (h : ∀ c ∈ t, c.toNat < 0x80) : Utf8.size t = t.length := by
  induction t with
  | nil => rfl
  | cons c t ih =>
    obtain ⟨hc, ht⟩ := List.forall_mem_cons.mp h
    have hbytes : Utf8.encodeScalar c = [c.toNat.toUInt8] := if_pos hc
    have htail : (Utf8.encodeAll t).length = t.length := ih ht
    rw [Utf8.size, Utf8.encodeAll, List.flatMap_cons, ← Utf8.encodeAll, hbytes, List.length_append, htail,
      List.length_singleton, List.length_cons, Nat.add_comm]

theorem Text.ofNat_inj {n m : ℕ} (h : Text.ofNat n = Text.ofNat m) : n = m := by
  have hdigits : Nat.toDigits 10 n = Nat.toDigits 10 m :=
    List.map_injective_iff.mpr (fun _ _ => CodePoint.ofChar_injective) h
  rw [← @Nat.ofDigitChars_ten_toDigits n, hdigits, Nat.ofDigitChars_ten_toDigits]

namespace Scanner

/-- The number of fetches for which there are names. -/
def nameLimit : ℕ := 10 ^ 250

theorem toNat_of_mem_temporaryName {n : ℕ} {c : CodePoint} (h : c ∈ text "CLONE" ++ Text.ofNat n) :
    c.toNat < 0x80 ∧ c ≠ slash ∧ c ≠ nul := by
  rcases List.mem_append.mp h with h | h
  · have hall : ∀ c ∈ text "CLONE", c.toNat < 0x80 ∧ c ≠ slash ∧ c ≠ nul := by decide
    exact hall c h
  · obtain ⟨d, hd, rfl⟩ := List.mem_map.mp h
    have hdigit := Nat.isDigit_of_mem_toDigits (by decide) (by decide) hd
    obtain ⟨hlow, hhigh⟩ : 48 ≤ d.toNat ∧ d.toNat ≤ 57 := by
      simpa [Char.isDigit, UInt32.le_iff_toNat_le] using hdigit
    refine ⟨?_, ?_, ?_⟩
    · rw [CodePoint.toNat_ofChar]
      omega
    · intro he
      have hslash : d.toNat = 47 := congrArg CodePoint.toNat he
      omega
    · intro he
      have hnul : d.toNat = 0 := congrArg CodePoint.toNat he
      omega

theorem exists_temporaryName? {n : ℕ} (h : n < nameLimit) :
    ∃ name, temporaryName? n = some name ∧ name.text = text "CLONE" ++ Text.ofNat n := by
  have hchars := fun c hc => @toNat_of_mem_temporaryName n c hc
  have hlength : (Text.ofNat n).length ≤ 250 := by
    rw [Text.ofNat, List.length_map]
    exact Nat.toDigits_length 10 n 250 (by decide) h
  have hsize : Utf8.size (text "CLONE" ++ Text.ofNat n) ≤ maxNameBytes := by
    rw [Utf8.size_eq_length fun c hc => (hchars c hc).1, List.length_append]
    exact Nat.add_le_add_left hlength 5
  have hvalid : IsFileName (text "CLONE" ++ Text.ofNat n) := by
    refine ⟨List.cons_ne_nil _ _, ?_, ?_, fun hs => (hchars _ hs).2.1 rfl, fun hz => (hchars _ hz).2.2 rfl, ?_, hsize⟩
    · exact fun he => absurd (List.cons.inj he).1 (by decide)
    · exact fun he => absurd (List.cons.inj he).1 (by decide)
    · rw [Text.isEncodable_append]
      exact ⟨by decide, Text.isEncodable_map_ofChar _⟩
  exact ⟨⟨_, hvalid⟩, dif_pos hvalid, rfl⟩

theorem temporaryName?_inj {n m : ℕ} (hn : n < nameLimit) (hm : m < nameLimit)
    (h : temporaryName? n = temporaryName? m) : n = m := by
  obtain ⟨name, ha, hname⟩ := exists_temporaryName? hn
  obtain ⟨name', hb, hname'⟩ := exists_temporaryName? hm
  obtain rfl : name = name' := Option.some.inj (ha.symm.trans (h.trans hb))
  exact Text.ofNat_inj (List.append_cancel_left (hname.symm.trans hname'))

/-- **The names run out** only in a world with more entries and fetches than could ever be. -/
theorem le_of_freshName? {w : World} (h : freshName? w = none) :
    nameLimit ≤ w.fetched.length + w.files.entries.length + 1 := by
  by_contra hlt
  generalize hrange : List.range' (w.fetched.length + 1) (w.files.entries.length + 1) = numbers
  have hbound : ∀ n ∈ numbers, n < nameLimit := by
    intro n hn
    rw [← hrange, List.mem_range'_1] at hn
    omega
  -- each of the names that come into question is one of an entry
  have htaken : numbers.map temporaryName? ⊆ w.files.entries.keys.map List.head? := by
    intro candidate hc
    obtain ⟨n, hn, rfl⟩ := List.mem_map.mp hc
    obtain ⟨name, hname, -⟩ := exists_temporaryName? (hbound n hn)
    rw [freshName?, hrange, List.find?_eq_none] at h
    have hnode := h name (List.mem_filterMap.mpr ⟨n, hn, hname⟩)
    obtain ⟨node, hnode⟩ : ∃ node, w.files.node? [name] = some node := by
      simpa [Option.ne_none_iff_exists'] using hnode
    exact List.mem_map.mpr ⟨[name], Table.mem_keys_of_get?_eq_some hnode, hname.symm⟩
  have hnodup : (numbers.map temporaryName?).Nodup := by
    refine List.Nodup.map_on (fun n hn m hm => temporaryName?_inj (hbound n hn) (hbound m hm)) ?_
    rw [← hrange]
    exact List.nodup_range'
  have hlength := hnodup.length_le_of_subset htaken
  rw [← hrange, List.length_map, List.length_map, List.length_range', Table.keys, List.length_map] at hlength
  omega

end Scanner

/-! ## What a scan tells of -/

/-- The directory that a notice tells of, if it tells that a repository is fetched into it. -/
def Notice.directory? : Notice → Option Path
  | .fetching directory => some directory
  | _ => none

/-- The directories into which repositories were fetched, as far as was told. -/
def World.directories (w : World) : List Path := w.journal.filterMap Notice.directory?

theorem World.directories_noteAll (w : World) (ns : List Notice) :
    (w.noteAll ns).directories = w.directories ++ ns.filterMap Notice.directory? := List.filterMap_append

theorem World.directories_note (w : World) (n : Notice) :
    (w.note n).directories = w.directories ++ n.directory?.toList := by
  rw [show w.note n = w.noteAll [n] from rfl, directories_noteAll]
  cases hn : n.directory? <;> simp [hn]

theorem Settings.Numeric.directory?_read (setting : Numeric) (env : Environment) :
    (setting.read env).2.filterMap Notice.directory? = [] := by
  unfold read
  split
  · rfl
  · split <;> rfl

namespace Scanner

variable {s : Scanner} {w : World}

theorem directory?_notices (x : Examination) : (x.notices s).filterMap Notice.directory? = [] := by
  rw [Examination.notices, List.filterMap_append, List.append_eq_nil_iff]
  constructor
  · rw [List.filterMap_eq_nil_iff]
    intro n hn
    obtain ⟨⟨p, e | f⟩, -, rfl⟩ := List.mem_map.mp hn <;> rfl
  · split <;> rfl

theorem directory?_visits (visits : List Visit) :
    (visits.filterMap Visit.notice?).filterMap Notice.directory? = [] := by
  rw [List.filterMap_eq_nil_iff]
  intro n hn
  obtain ⟨v, -, hv⟩ := List.mem_filterMap.mp hn
  cases v <;> cases hv <;> rfl

/-- What was fetched, and into which directories. -/
def trace (w : World) : List (Text × ℤ) × List Path := (w.fetched, w.directories)

theorem trace_scanDirectory (s : Scanner) (w : World) (root : Path) :
    trace (s.scanDirectory w root).2.1 = trace w := by
  have hnotes : ∀ (w : World) (ns : List Notice), ns.filterMap Notice.directory? = [] →
      trace (w.noteAll ns) = trace w := by
    intro w ns hns
    refine Prod.ext rfl ?_
    rw [trace, World.directories_noteAll, hns]
    exact List.append_nil _
  unfold scanDirectory
  split
  · exact hnotes _ _ (directory?_visits _)
  simp only
  split
  · refine hnotes _ _ ?_
    rw [List.filterMap_append, directory?_visits]
    rfl
  · refine (hnotes { w with clock := _ } _ ?_).trans rfl
    simp only [List.filterMap_append, directory?_visits, directory?_notices]
    rfl

theorem trace_cleanUp (s : Scanner) (w : World) : trace (s.cleanUp w).2 = trace w := by
  unfold cleanUp removeTemporary
  split
  · rfl
  · refine Prod.ext rfl ?_
    rw [trace, World.directories_note]
    exact List.append_nil _

/-- The name of the directory into which a scan fetches, if its package is remote. -/
def place? (s : Scanner) (w : World) : Option FileName :=
  if Package.isRemote s.root then freshName? w else none

theorem trace_fetch (s : Scanner) (w : World) (address : Text) :
    trace (s.fetch w address).2.1 = (w.fetched ++ (freshName? w).toList.map fun _ => (address, depth w),
      w.directories ++ (freshName? w).toList.map fun name => Path.ofLocation [name]) := by
  unfold fetch
  split
  · next h => rw [h, Option.toList_none, List.map_nil, List.map_nil, List.append_nil, List.append_nil, trace]
  next name h =>
  have hdirectories : (((w.note (.fetching (Path.ofLocation [name]))).noteAll
      (Settings.fetchDepth.read w.environment).2)).directories = w.directories ++ [Path.ofLocation [name]] := by
    rw [World.directories_noteAll, Settings.Numeric.directory?_read, List.append_nil, World.directories_note]
    rfl
  rw [h]
  simp only
  split <;> exact Prod.ext rfl hdirectories

/-- **What a scan fetches**: once if its package is remote, and else nothing. -/
theorem trace_scan (s : Scanner) (w : World) :
    trace (s.scan w).2.1 = (w.fetched ++ (s.place? w).toList.map fun _ => (s.root, depth w),
      w.directories ++ (s.place? w).toList.map fun name => Path.ofLocation [name]) := by
  have hnote : (w.note (.scanning s.metadata.name)).directories = w.directories := by
    rw [World.directories_note]
    exact List.append_nil _
  have hscan : (s.scan w).2.1 = ((s.scanRoot (w.note (.scanning s.metadata.name))).1.cleanUp
      (s.scanRoot (w.note (.scanning s.metadata.name))).2.1).2 := rfl
  rw [hscan, trace_cleanUp]
  unfold scanRoot place?
  split
  · have hfetch := trace_fetch s (w.note (.scanning s.metadata.name)) s.root
    rw [hnote] at hfetch
    split
    · next hf =>
      rw [hf] at hfetch
      exact hfetch
    · next hf =>
      rw [hf] at hfetch
      rw [trace_scanDirectory]
      exact hfetch
  · rw [trace_scanDirectory, trace, hnote, Option.toList_none, List.map_nil, List.map_nil, List.append_nil,
      List.append_nil]
    rfl

theorem fetched_scan (s : Scanner) (w : World) :
    (s.scan w).2.1.fetched = w.fetched ++ (s.place? w).toList.map fun _ => (s.root, depth w) :=
  congrArg Prod.fst (trace_scan s w)

/-! ## How a scan of a remote package ends -/

theorem temporary_scan (s : Scanner) (w : World) : (s.scan w).1.temporary = none := by
  have hc := scan_cases s w
  generalize s.scan w = out at hc
  cases hc <;> rfl

theorem not_site_of_failure {reason : Text} (hr : Package.isRemote s.root = true)
    (hc : (w.remote w.fetched.length).failure = some reason) (fs : FileSystem) (root : Path) :
    ¬ Site w s.root fs root := by
  intro hs
  cases hs with
  | installed hr' =>
    rw [hr] at hr'
    cases hr'
  | fetched _ _ hc' => cases hc.symm.trans hc'

theorem isRemote_of_place? {name : FileName} (h : s.place? w = some name) :
    Package.isRemote s.root = true ∧ freshName? w = some name := by
  unfold place? at h
  split at h
  · next hr => exact ⟨hr, h⟩
  · cases h

/-- **A package that cannot be fetched** fails with the reason why, and nothing is counted. -/
theorem scan_of_failure {name : FileName} {reason : Text} (hp : s.place? w = some name)
    (hc : (w.remote w.fetched.length).failure = some reason) :
    ∃ w', s.scan w = ({ s with temporary := none }, w', .error (.checkout reason)) := by
  obtain ⟨hr, hn⟩ := isRemote_of_place? hp
  have hcases := scan_cases s w
  generalize s.scan w = out at hcases
  cases hcases with
  | noRoom _ _ hn' =>
    rw [hn] at hn'
    cases hn'
  | notFetched _ hc' =>
    cases hc.symm.trans hc'
    exact ⟨_, rfl⟩
  | notWalked _ hs | notTimed _ hs | reported _ hs => exact absurd hs (not_site_of_failure hr hc _ _)

theorem fetch_of_freshName? {name : FileName} (hn : freshName? w = some name)
    (hc : (w.remote w.fetched.length).failure = none) (address : Text) : ∃ journal,
    s.fetch w address = ({ s with temporary := some [name] },
      { w with files := checkedOut w name, fetched := w.fetched ++ [(address, depth w)], journal },
      .ok (Path.ofLocation [name])) := by
  rw [fetch, hn]
  simp only
  split
  · exact ⟨_, rfl⟩
  · next hc' => cases hc.symm.trans hc'

theorem scan_of_noRoom (hr : Package.isRemote s.root = true) (hn : freshName? w = none) :
    ∃ w', s.scan w = ({ s with temporary := none }, w', .error (.system .exists (Path.ofLocation []))) := by
  have hfetch : s.fetch (w.note (.scanning s.metadata.name)) s.root =
      (s, w.note (.scanning s.metadata.name), .error (.system .exists (Path.ofLocation []))) := by
    have hn' : freshName? (w.note (.scanning s.metadata.name)) = none := hn
    simp only [fetch, hn']
  obtain ⟨files, journal, hc, -⟩ := s.cleanUp_eq (w.note (.scanning s.metadata.name))
  simp only [scan, scanRoot, hr, if_true, hfetch, hc]
  exact ⟨_, rfl⟩

/-! ## What a scan comes to -/

/-- The files of a package, and the directory in which they lie, or why there are none. -/
def site (w : World) (path : Path) : Except Failure (FileSystem × Path) :=
  if Package.isRemote path then
    match freshName? w with
    | none => .error (.system .exists (Path.ofLocation []))
    | some name =>
      match (w.remote w.fetched.length).failure with
      | some reason => .error (.checkout reason)
      | none => .ok (checkedOut w name, Path.ofLocation [name])
  else .ok (w.files, path)

/-- What the scan of a directory of a file system comes to. -/
def outcome (s : Scanner) (w : World) (fs : FileSystem) (root : Path) : Except Failure Report :=
  (fs.walk w.levels w.cwd root).bind fun vs =>
    if Clock.isBeyond w.horizon s.timeLimit then .error .limitTooGreat
    else .ok (report vs (s.examine fs w.cwd w.clock (Visit.files vs)).1)

theorem result_scanDirectory (s : Scanner) (w : World) (root : Path) :
    (s.scanDirectory w root).2.2 = s.outcome w w.files root := by
  rw [scanDirectory, outcome]
  cases w.files.walk w.levels w.cwd root with
  | error => rfl
  | ok vs =>
    simp only [Except.bind]
    split <;> rfl

/-- **What a scan comes to.** Where the files of a package lie has nothing to do with how they are scanned. -/
theorem result_scan (s : Scanner) (w : World) :
    (s.scan w).2.2 = (site w s.root).bind fun (fs, root) => s.outcome w fs root := by
  have hscan : (s.scan w).2.2 = (s.scanRoot (w.note (.scanning s.metadata.name))).2.2 := rfl
  unfold site
  split
  · next hr =>
    split
    · next hn =>
      obtain ⟨w', h⟩ := scan_of_noRoom hr hn
      rw [h]
      rfl
    next name hn =>
    split
    · next reason hc =>
      obtain ⟨w', h⟩ := scan_of_failure (s := s) ((if_pos hr).trans hn) hc
      rw [h]
      rfl
    · next hc =>
      obtain ⟨journal, hfetch⟩ := s.fetch_of_freshName? (w := w.note (.scanning s.metadata.name)) hn hc s.root
      rw [hscan, scanRoot, if_pos hr, hfetch]
      simp only
      rw [result_scanDirectory]
      rfl
  · next hr =>
    rw [hscan, scanRoot, if_neg hr, result_scanDirectory]
    rfl

theorem bind_eq_ok {ε α β : Type} {x : Except ε α} {f : α → Except ε β} {b : β} :
    x.bind f = .ok b ↔ ∃ a, x = .ok a ∧ f a = .ok b := by
  cases x <;> simp [Except.bind]

theorem result_scan_eq_ok {r : Report} : (s.scan w).2.2 = .ok r ↔ ∃ fs root, site w s.root = .ok (fs, root) ∧
    Clock.isBeyond w.horizon s.timeLimit = false ∧ ∃ vs, fs.walk w.levels w.cwd root = .ok vs ∧
      report vs (s.examine fs w.cwd w.clock (Visit.files vs)).1 = r := by
  rw [result_scan]
  simp only [bind_eq_ok, outcome, Prod.exists]
  refine exists_congr fun fs => exists_congr fun root => and_congr_right fun _ => ?_
  cases Clock.isBeyond w.horizon s.timeLimit <;> simp

end Scanner

end ExtensionAudit
