import Mathlib
import ExtensionAudit.Package.Installed
import ExtensionAudit.Proofs.Walk.Coverage

/-!
# The packages that are found

Discovery goes through the entries of a directory in name order. It keeps those that are directories, links followed,
less those whose package has an excluded name. That is the name in the manifest, if there is a usable one.

* `filterM_eq_ok`: what a filter that can fail keeps if it does not fail;
* `Manifest.name?`, **`Manifest.name_load`**: the name of a package;
* `Package.subdirectories_eq_ok`: the directories in a directory;
* `Package.nul_notMem_of_discover`, **`Package.discover_lists`**: the packages in a directory;
* `Package.Obstructs`, `Package.Obstructs.mem_walk`: the entries that discovery does not get past, but a walk does;
* **`Package.discover_obstructed`**, `Package.exists_stray_link`: when discovery fails, and what a walk does then.
-/

namespace ExtensionAudit

/-! ## Filters that can fail -/

section Filter

variable {α ε : Type} {f : α → Except ε Bool} {xs ys : List α}

theorem exists_of_bind_ok {α β ε : Type} {x : Except ε α} {f : α → Except ε β} {b : β} (h : x >>= f = .ok b) :
    ∃ a, x = .ok a ∧ f a = .ok b := by
  cases x with
  | error e => cases h
  | ok a => exact ⟨a, rfl, h⟩

theorem filterAuxM_eq_ok {sofar : List α} (h : xs.filterAuxM f sofar = .ok ys) :
    (∀ x ∈ xs, ∃ b, f x = .ok b) ∧ ys = (xs.filter fun x => (f x).toOption.getD false).reverse ++ sofar := by
  induction xs generalizing sofar with
  | nil =>
    cases h
    exact ⟨by simp, rfl⟩
  | cons x xs ih =>
    obtain ⟨b, hb, h⟩ := exists_of_bind_ok h
    obtain ⟨hall, rfl⟩ := ih h
    refine ⟨List.forall_mem_cons.mpr ⟨⟨b, hb⟩, hall⟩, ?_⟩
    rw [List.filter_cons, hb]
    cases b <;> simp [Except.toOption]

/-- **What a filter keeps that can fail**, if it does not fail at any element. -/
theorem filterM_eq_ok (h : xs.filterM f = .ok ys) :
    (∀ x ∈ xs, ∃ b, f x = .ok b) ∧ ys = xs.filter fun x => (f x).toOption.getD false := by
  obtain ⟨zs, hz, h⟩ := exists_of_bind_ok h
  cases h
  obtain ⟨hall, rfl⟩ := filterAuxM_eq_ok hz
  exact ⟨hall, by simp⟩

theorem filterAuxM_eq_error_iff {e : ε} (sofar : List α) : xs.filterAuxM f sofar = .error e ↔
    ∃ before x after, xs = before ++ x :: after ∧ (∀ y ∈ before, ∃ b, f y = .ok b) ∧ f x = .error e := by
  induction xs generalizing sofar with
  | nil => simp [List.filterAuxM, pure, Except.pure]
  | cons x xs ih =>
    rw [List.filterAuxM]
    cases hx : f x with
    | error e' =>
      constructor
      · intro h
        cases h
        exact ⟨[], x, xs, rfl, by simp, hx⟩
      · rintro ⟨before, y, after, hxs, hall, hy⟩
        cases before with
        | nil =>
          cases hxs
          rw [hx] at hy
          cases hy
          rfl
        | cons z before =>
          cases hxs
          obtain ⟨b, hb⟩ := hall x (List.mem_cons_self ..)
          rw [hx] at hb
          cases hb
    | ok b =>
      refine (show _ ↔ _ from ih _).trans ⟨?_, ?_⟩
      · rintro ⟨before, y, after, rfl, hall, hy⟩
        exact ⟨x :: before, y, after, rfl, List.forall_mem_cons.mpr ⟨⟨b, hx⟩, hall⟩, hy⟩
      · rintro ⟨before, y, after, hxs, hall, hy⟩
        cases before with
        | nil =>
          cases hxs
          rw [hx] at hy
          cases hy
        | cons z before =>
          cases hxs
          exact ⟨before, y, after, rfl, (List.forall_mem_cons.mp hall).2, hy⟩

/-- **How a filter fails that can fail**: with the error of the first element at which it does. -/
theorem filterM_eq_error_iff {e : ε} : xs.filterM f = .error e ↔
    ∃ before x after, xs = before ++ x :: after ∧ (∀ y ∈ before, ∃ b, f y = .ok b) ∧ f x = .error e := by
  rw [← filterAuxM_eq_error_iff [], List.filterM]
  cases xs.filterAuxM f [] with
  | error e' => exact Iff.rfl
  | ok ys => exact iff_of_false (fun h => by cases h) (fun h => by cases h)

end Filter

/-! ## The name of a package -/

/-- The name in the manifest of a package, if the manifest is usable and gives the package a name. -/
def Manifest.name? (fs : FileSystem) (cwd : Location) (directory : Path) : Option Text :=
  match Manifest.read fs cwd (Path.join directory fileName) with
  | .ok (.object members) =>
    let name := (Metadata.ofMembers members).name
    if name = [] then none else some name
  | _ => none

/-- **The name of a package** is the one in its manifest if that is usable, and else that of its directory. -/
theorem Manifest.name_load (fs : FileSystem) (cwd : Location) (directory : Path) :
    (load fs cwd directory).1.name = (name? fs cwd directory).getD (Path.lastComponent directory) := by
  rcases hr : read fs cwd (Path.join directory fileName) with fault | value
  · simp only [load, name?, hr]
    split <;> first | rfl | contradiction
  · cases value with
    | object members =>
      simp only [load, name?, hr]
      split <;> rfl
    | _ => simp only [load, name?, hr, Option.getD_none]

/-- What a manifest is if reading it comes to an end: nothing that has to be waited for, and no values in each other
deeper than calls can be. Each of these values begins with a bracket of its own. -/
def Manifest.IsTame (fs : FileSystem) (levels : ℕ) (cwd : Location) (directory : Path) : Prop :=
  ∀ node, fs.stat cwd (Path.join directory fileName) = .ok node → node ≠ .pipe ∧ node ≠ .device ∧
    ∀ content, node.content? = some content → content.countP (· ∈ Utf8.encodeAll (text "[\x7b")) ≤ levels

/-! ## The packages in a directory -/

namespace Package

variable {fs : FileSystem} {cwd : Location} {directory : Path} {excluded : List Text}

/-- The entry is a directory or a link to one. -/
def HoldsDirectory (fs : FileSystem) (dir : Location) (name : FileName) : Prop :=
  ∃ target, fs.EntryLeads dir name target ∧ fs.isDirectory target = true

theorem holdsDirectory_iff {dir : Location} {name : FileName} {node : Node} (hpass : fs.isPassable dir = true)
    (hn : fs.node? (dir ++ [name]) = some node) (hlink : ∀ path, node ≠ .link path) :
    HoldsDirectory fs dir name ↔ node.isDirectory = true := by
  have hlead : fs.EntryLeads dir name (dir ++ [name]) := ⟨0, FileSystem.leads_entry hpass hn hlink⟩
  have hd : fs.isDirectory (dir ++ [name]) = node.isDirectory := by rw [FileSystem.isDirectory, hn]; rfl
  constructor
  · rintro ⟨target, ⟨k, hk⟩, ht⟩
    obtain ⟨k', hk'⟩ := hlead
    rwa [← hd, hk'.unique hk]
  · exact fun h => ⟨_, hlead, hd.trans h⟩

theorem isDirectoryEntry_iff {dir : Location} {name : FileName} {b : Bool} (hd : fs.locate cwd directory = .ok dir)
    (hpass : fs.isPassable dir = true) (hm : name ∈ fs.listing dir)
    (h : isDirectoryEntry fs cwd (dir ++ [name]) (Path.join directory name.text) = .ok b) :
    b = true ↔ HoldsDirectory fs dir name := by
  obtain ⟨node, hn⟩ := FileSystem.mem_listing.mp hm
  obtain ⟨-, k, -, hpath⟩ := FileSystem.locate_eq_ok_iff.mp hd
  have hz := Path.nul_notMem_join hpath.nul_notMem name.nul_notMem
  rw [isDirectoryEntry] at h
  cases node with
  | link target =>
    simp only [FileSystem.examineEntry, hn] at h
    split at h <;> cases h
    · next node hs =>
      obtain ⟨target, hl, hn⟩ := FileSystem.exists_locate_of_stat hs
      have he := FileSystem.entryLeads_of_locate_join hd hl
      have htarget : fs.isDirectory target = node.isDirectory := by rw [FileSystem.isDirectory, hn]; rfl
      refine ⟨fun h => ⟨target, he, htarget.trans h⟩, ?_⟩
      rintro ⟨target', ⟨k, hk⟩, ht⟩
      obtain ⟨k', hk'⟩ := he
      rwa [← htarget, hk'.unique hk]
    · next hs =>
      -- nothing is at the path, for another reason than its length or the number of links
      refine iff_of_false (by simp) ?_
      rintro ⟨target, he, -⟩
      rw [FileSystem.stat_eq_error_iff] at hs
      rcases FileSystem.locate_join_of_entryLeads hd he with hl | hl | hl
      · cases hs.symm.trans hl
      · cases hs.symm.trans hl
      · cases hs.symm.trans (FileSystem.locate_of_not_isShort hz hl)
  | _ =>
    simp only [FileSystem.examineEntry, hn] at h
    cases h
    exact (holdsDirectory_iff hpass hn (by simp)).symm

theorem subdirectories_eq_ok {names : List FileName} (h : subdirectories fs cwd directory = .ok names) :
    ∃ dir, fs.locate cwd directory = .ok dir ∧ fs.node? dir = some (.directory .listing) ∧
      names.Pairwise (fun a b => a.text < b.text) ∧ ∀ name, name ∈ names ↔ HoldsDirectory fs dir name := by
  unfold subdirectories at h
  split at h
  · cases h
  next dir ho =>
  obtain ⟨hd, hn⟩ := FileSystem.openDirectory_eq_ok_iff.mp ho
  split at h <;> cases h
  next found hf =>
  obtain ⟨hall, rfl⟩ := filterM_eq_ok hf
  have hpass := FileSystem.isPassable_of_listing hn
  refine ⟨dir, hd, hn, FileName.pairwise_text_mergeSort ((fs.nodup_listing dir).filter _), fun name => ?_⟩
  rw [List.mem_mergeSort, List.mem_filter]
  constructor
  · rintro ⟨hm, hb⟩
    obtain ⟨b, hb'⟩ := hall name hm
    rw [hb'] at hb
    exact (isDirectoryEntry_iff hd hpass hm hb').mp hb
  · intro hdir
    have hm : name ∈ fs.listing dir := FileSystem.mem_listing.mpr hdir.choose_spec.1.exists_node
    obtain ⟨b, hb⟩ := hall name hm
    refine ⟨hm, ?_⟩
    rw [hb]
    exact (isDirectoryEntry_iff hd hpass hm hb).mpr hdir

/-- The package of an entry, with the labels that its manifest gives it. -/
def ofEntry (fs : FileSystem) (cwd : Location) (directory : Path) (name : FileName) : Package :=
  let path := Path.join directory name.text
  ⟨path, (Manifest.load fs cwd path).1⟩

theorem exists_of_discover {packages : List Package} {notices : List Notice}
    (h : discover fs cwd excluded directory = .ok (packages, notices)) :
    ∃ dir, ∃ names : List FileName, fs.locate cwd directory = .ok dir ∧ fs.node? dir = some (.directory .listing) ∧
      packages = names.map (ofEntry fs cwd directory) ∧ names.Pairwise (fun a b => a.text < b.text) ∧
      ∀ name, name ∈ names ↔
        HoldsDirectory fs dir name ∧ (ofEntry fs cwd directory name).metadata.name ∉ excluded := by
  unfold discover at h
  split at h
  · cases h
  next names hs =>
  cases h
  obtain ⟨dir, hd, hn, horder, hmem⟩ := subdirectories_eq_ok hs
  refine ⟨dir, names.filter fun n => (ofEntry fs cwd directory n).metadata.name ∉ excluded, hd, hn, ?_,
    horder.filter _, fun name => by rw [List.mem_filter, hmem, decide_eq_true_iff]⟩
  rw [List.filterMap_map, ← List.filterMap_eq_map, List.filterMap_filter]
  refine List.filterMap_congr fun name _ => ?_
  simp only [Function.comp_apply, consider, ofEntry]
  split <;> simp_all

theorem nul_notMem_of_discover {found : List Package} {notices : List Notice}
    (h : discover fs cwd excluded directory = .ok (found, notices)) : ∀ p ∈ found, nul ∉ p.path := by
  obtain ⟨dir, names, hd, -, rfl, -⟩ := exists_of_discover h
  obtain ⟨-, k, -, hpath⟩ := FileSystem.locate_eq_ok_iff.mp hd
  rw [List.forall_mem_map]
  exact fun name _ => Path.nul_notMem_join hpath.nul_notMem name.nul_notMem

/-- **The packages in a directory.** If discovery comes to an end, the directory could be listed. There is one package
for each entry that is a directory or a link to one and whose package has no excluded name, strictly in the order of
the names of the entries, compared by code points. Its path is that of the entry, and its labels are those that
loading the manifest at that path gives. The name that decides is the one in the manifest if there is a usable one,
and else the name of the entry; so two entries whose manifests give the same name are both kept or both left out.
Discovery gives back no file system, so it changes no file. -/
theorem discover_lists {packages : List Package} {notices : List Notice}
    (h : discover fs cwd excluded directory = .ok (packages, notices)) :
    ∃ dir, ∃ names : List FileName, fs.locate cwd directory = .ok dir ∧ fs.node? dir = some (.directory .listing) ∧
      packages = names.map (ofEntry fs cwd directory) ∧
      names.Pairwise (fun a b => a.text < b.text) ∧
      (∀ name, name ∈ names ↔
        HoldsDirectory fs dir name ∧ (ofEntry fs cwd directory name).metadata.name ∉ excluded) ∧
      (∀ name, (ofEntry fs cwd directory name).metadata.name =
        (Manifest.name? fs cwd (Path.join directory name.text)).getD name.text) ∧
      ∀ a b t, HoldsDirectory fs dir a → HoldsDirectory fs dir b →
        Manifest.name? fs cwd (Path.join directory a.text) = some t →
        Manifest.name? fs cwd (Path.join directory b.text) = some t → (a ∈ names ↔ b ∈ names) := by
  obtain ⟨dir, names, hd, hn, hpackages, horder, hmem⟩ := exists_of_discover h
  obtain ⟨-, k, -, hpath⟩ := FileSystem.locate_eq_ok_iff.mp hd
  have hname : ∀ name, (ofEntry fs cwd directory name).metadata.name =
      (Manifest.name? fs cwd (Path.join directory name.text)).getD name.text := by
    intro name
    rw [ofEntry, Manifest.name_load, Path.lastComponent_join hpath.ne_nil]
  refine ⟨dir, names, hd, hn, hpackages, horder, hmem, hname, ?_⟩
  intro a b t ha hb hta htb
  rw [hmem, hmem, and_iff_right ha, and_iff_right hb, hname, hname, hta, htb, Option.getD_some, Option.getD_some]

/-- Two packages with the same name in their manifests, one of them behind a link, one without a manifest, and a file.
-/
def choir : FileSystem := FileSystem.empty.plantAll [] [
  ⟨[.literal "ext", .literal "b", .manifest], .file true (Utf8.encodeAll (text "\x7b\"name\": \"x\"\x7d"))⟩,
  ⟨[.literal "ext", .literal "a"], .link (text "/other")⟩,
  ⟨[.literal "other", .manifest], .file true (Utf8.encodeAll (text "\x7b\"name\": \"x\"\x7d"))⟩,
  ⟨[.literal "ext", .literal "c", .literal "f"], .file true []⟩,
  ⟨[.literal "ext", .literal "d"], .file true []⟩]

set_option maxRecDepth 20000 in
theorem discover_lists_choir :
    discover choir [] [text "c"] (text "/ext") =
      .ok ([⟨text "/ext/a", { name := text "x" }⟩, ⟨text "/ext/b", { name := text "x" }⟩],
        [.excluded (text "c"), .discovered 2 (text "/ext")]) ∧
    ∃ dir, ∃ names : List FileName, choir.locate [] (text "/ext") = .ok dir ∧
      names.map (fun n => Path.join (text "/ext") n.text) = [text "/ext/a", text "/ext/b"] ∧
      names.Pairwise fun a b => a.text < b.text := by
  have h : discover choir [] [text "c"] (text "/ext") =
      .ok ([⟨text "/ext/a", { name := text "x" }⟩, ⟨text "/ext/b", { name := text "x" }⟩],
        [.excluded (text "c"), .discovered 2 (text "/ext")]) := by cbv
  obtain ⟨dir, names, hd, -, hpackages, horder, -⟩ := discover_lists h
  refine ⟨h, dir, names, hd, ?_, horder⟩
  have hpaths := congrArg (List.map Package.path) hpackages
  rw [List.map_map] at hpaths
  exact hpaths.symm

/-! ## What discovery does not get past -/

/-- **An entry that stops discovery**: a link whose path cannot be looked up, but not because nothing is there. -/
def Obstructs (fs : FileSystem) (cwd : Location) (directory : Path) (dir : Location) (name : FileName)
    (e : Failure) : Prop :=
  (∃ target, fs.node? (dir ++ [name]) = some (.link target)) ∧
    fs.locate cwd (Path.join directory name.text) = .error e ∧ ∀ q, e ≠ .system .noEntry q

theorem isDirectoryEntry_eq_error_iff {dir : Location} {name : FileName} {e : Failure} (hm : name ∈ fs.listing dir) :
    isDirectoryEntry fs cwd (dir ++ [name]) (Path.join directory name.text) = .error e ↔
      Obstructs fs cwd directory dir name e := by
  obtain ⟨node, hn⟩ := FileSystem.mem_listing.mp hm
  rw [isDirectoryEntry, Obstructs, hn, ← FileSystem.stat_eq_error_iff]
  cases node with
  | link target =>
    simp only [FileSystem.examineEntry, hn]
    rw [and_iff_right ⟨target, rfl⟩]
    split
    · next node hs => simp [hs]
    · next q hs =>
      rw [hs]
      refine iff_of_false (by simp) ?_
      rintro ⟨he, hq⟩
      cases he
      exact hq q rfl
    · next e' hq hs =>
      rw [hs]
      refine ⟨fun he => ?_, fun h => congrArg Except.error (Except.error.inj h.1)⟩
      cases he
      exact ⟨rfl, hq⟩
  | _ => simp [FileSystem.examineEntry, hn]

theorem exists_isDirectoryEntry_iff {dir : Location} {name : FileName} (hm : name ∈ fs.listing dir) :
    (∃ b, isDirectoryEntry fs cwd (dir ++ [name]) (Path.join directory name.text) = .ok b) ↔
      ∀ e, ¬ Obstructs fs cwd directory dir name e := by
  cases h : isDirectoryEntry fs cwd (dir ++ [name]) (Path.join directory name.text) with
  | ok b =>
    refine iff_of_true ⟨b, rfl⟩ fun e ho => ?_
    rw [(isDirectoryEntry_eq_error_iff hm).mpr ho] at h
    cases h
  | error e => exact iff_of_false (by simp) fun hall => hall e ((isDirectoryEntry_eq_error_iff hm).mp h)

theorem discover_eq_error_iff {e : Failure} :
    discover fs cwd excluded directory = .error e ↔ subdirectories fs cwd directory = .error e := by
  rw [discover]
  cases subdirectories fs cwd directory <;> simp

theorem subdirectories_eq_error_iff {e : Failure} : subdirectories fs cwd directory = .error e ↔
    fs.openDirectory cwd directory = .error e ∨
      ∃ dir before name after, fs.openDirectory cwd directory = .ok dir ∧
        fs.listing dir = before ++ name :: after ∧
        (∀ other ∈ before, ∀ e', ¬ Obstructs fs cwd directory dir other e') ∧
        Obstructs fs cwd directory dir name e := by
  cases ho : fs.openDirectory cwd directory with
  | error e' => simp [subdirectories, ho]
  | ok dir =>
    have hiff : subdirectories fs cwd directory = .error e ↔ ((fs.listing dir).filterM fun n =>
        isDirectoryEntry fs cwd (dir ++ [n]) (Path.join directory n.text)) = .error e := by
      simp only [subdirectories, ho]
      cases (fs.listing dir).filterM fun n =>
        isDirectoryEntry fs cwd (dir ++ [n]) (Path.join directory n.text) <;> simp
    rw [hiff, filterM_eq_error_iff]
    simp only [reduceCtorEq, false_or, Except.ok.injEq, exists_and_left, exists_eq_left']
    refine exists_congr fun before => exists_congr fun name => exists_congr fun after =>
      and_congr_right fun hnames => ?_
    have hmem : ∀ other ∈ before ++ name :: after, other ∈ fs.listing dir := fun other hm => hnames ▸ hm
    refine and_congr (forall₂_congr fun other hm => ?_) (isDirectoryEntry_eq_error_iff (hmem name (by simp)))
    exact exists_isDirectoryEntry_iff (hmem other (List.mem_append_left _ hm))

/-- **Discovery comes to an end** if the directory can be listed and no entry stops it. -/
theorem exists_discover_iff : (∃ packages notices, discover fs cwd excluded directory = .ok (packages, notices)) ↔
    ∃ dir, fs.openDirectory cwd directory = .ok dir ∧
      ∀ name ∈ fs.listing dir, ∀ e, ¬ Obstructs fs cwd directory dir name e := by
  constructor
  · rintro ⟨packages, notices, h⟩
    unfold discover at h
    split at h
    · cases h
    next names hs =>
    unfold subdirectories at hs
    split at hs
    · cases hs
    next dir ho =>
    split at hs <;> cases hs
    next found hf =>
    exact ⟨dir, ho, fun name hm => (exists_isDirectoryEntry_iff hm).mp ((filterM_eq_ok hf).1 name hm)⟩
  · rintro ⟨dir, ho, hall⟩
    cases hd : discover fs cwd excluded directory with
    | ok result => exact ⟨result.1, result.2, rfl⟩
    | error e =>
      exfalso
      rcases subdirectories_eq_error_iff.mp (discover_eq_error_iff.mp hd) with
        h | ⟨dir', before, name, after, h, hnames, -, hobstructs⟩
      · cases h.symm.trans ho
      · cases h.symm.trans ho
        exact hall name (by simp [hnames]) e hobstructs

theorem mem_map_path_of_discover {dir : Location} {name : FileName} {packages : List Package} {notices : List Notice}
    (hd : fs.locate cwd directory = .ok dir) (h : discover fs cwd excluded directory = .ok (packages, notices)) :
    Path.join directory name.text ∈ packages.map Package.path ↔
      HoldsDirectory fs dir name ∧ (ofEntry fs cwd directory name).metadata.name ∉ excluded := by
  obtain ⟨dir', names, hd', -, rfl, -, hmem⟩ := exists_of_discover h
  cases hd.symm.trans hd'
  obtain ⟨-, k, -, hpath⟩ := FileSystem.locate_eq_ok_iff.mp hd
  rw [← hmem, List.map_map, List.mem_map]
  refine ⟨fun ⟨other, hm, hother⟩ => ?_, fun hm => ⟨name, hm, rfl⟩⟩
  have htext : other.text = name.text := by
    rw [← Path.base_join hpath.ne_nil other, ← Path.base_join hpath.ne_nil name]
    exact congrArg Path.base hother
  exact FileName.text_injective htext ▸ hm

theorem Obstructs.mem_walk {levels : ℕ} {root q : Path} {vs : List Visit} {dir : Location} {name : FileName}
    {e : Failure} (h : Obstructs fs cwd q dir name e) (hw : fs.walk levels cwd root = .ok vs)
    (hv : Visit.entered q dir ∈ vs) : Visit.special (Path.join q name.text) ∈ vs := by
  obtain ⟨⟨target, hn⟩, hl, -⟩ := h
  obtain ⟨v, hv', hpath⟩ := FileSystem.exists_visit_entry hw hv ⟨_, hn⟩
  obtain ⟨e', visited, visited', next, he', hpath', hs⟩ := FileSystem.exists_step_of_walk hw hv'
  have hq : Path.IsTidy q := FileSystem.isTidy_of_walk hw hv
  -- the entry that is visited there is the link
  have hentry : e'.entry = dir ++ [name] := by
    rw [hpath] at hpath'
    cases he' with
    | root h => cases hl.symm.trans (h.symm.trans (congrArg _ hpath')).symm
    | entry _ ht hd' =>
      have hparent := congrArg Path.parent hpath'
      have hbase := congrArg Path.base hpath'
      rw [Path.parent_join ht, Path.parent_join hq] at hparent
      rw [Path.base_join ht.1, Path.base_join hq.1] at hbase
      rw [hparent, FileSystem.locate_of_entered hw hv] at hd'
      cases hd'
      rw [FileName.text_injective hbase]
  have hx : ∀ node, fs.examineEntry cwd e'.entry e'.path ≠ .ok node := by
    intro node hx
    rw [hentry, hpath', hpath] at hx
    simp only [FileSystem.examineEntry, hn] at hx
    cases hx.symm.trans (FileSystem.stat_eq_error_iff.mpr hl)
  rw [← hpath, ← hpath']
  cases hs with
  | special => exact hv'
  | entered hx' | refused hx' | unreached hx' | revisited hx' | tooDeep hx' | file hx' => exact absurd hx' (hx _)

/-- **When discovery fails.** It fails if the directory cannot be listed, with that error; and else if an entry stops
it, with the error of the first such entry as the directory has them. Such an entry is a link whose path cannot be
looked up for another reason than that nothing is there. Let reading each manifest come to an end. Then discovery
comes to an end whatever else is in the directory. The packages are those of the entries that are directories, links
followed, less those with an excluded name. A walk that comes to an entry that stops discovery passes it over. -/
theorem discover_obstructed (fs : FileSystem) (levels : ℕ) (cwd : Location) (excluded : List Text) (directory : Path) :
    (∀ e, fs.openDirectory cwd directory = .error e → discover fs cwd excluded directory = .error e) ∧
    (∀ dir before name after e, fs.openDirectory cwd directory = .ok dir →
      fs.listing dir = before ++ name :: after →
      (∀ other ∈ before, ∀ e', ¬ Obstructs fs cwd directory dir other e') →
      Obstructs fs cwd directory dir name e → discover fs cwd excluded directory = .error e) ∧
    ((∀ dir name, fs.openDirectory cwd directory = .ok dir → HoldsDirectory fs dir name →
        Manifest.IsTame fs levels cwd (Path.join directory name.text)) →
      ((∃ packages notices, discover fs cwd excluded directory = .ok (packages, notices)) ↔
        ∃ dir, fs.openDirectory cwd directory = .ok dir ∧
          ∀ name ∈ fs.listing dir, ∀ e, ¬ Obstructs fs cwd directory dir name e)) ∧
    (∀ dir packages notices, fs.locate cwd directory = .ok dir →
      discover fs cwd excluded directory = .ok (packages, notices) →
      ∀ name, Path.join directory name.text ∈ packages.map Package.path ↔
        HoldsDirectory fs dir name ∧ (ofEntry fs cwd directory name).metadata.name ∉ excluded) ∧
    (∀ root vs q dir name e, fs.walk levels cwd root = .ok vs → Visit.entered q dir ∈ vs →
      Obstructs fs cwd q dir name e → Visit.special (Path.join q name.text) ∈ vs) := by
  refine ⟨fun e h => discover_eq_error_iff.mpr (subdirectories_eq_error_iff.mpr (Or.inl h)), ?_,
    fun _ => exists_discover_iff, fun _ _ _ hd h _ => mem_map_path_of_discover hd h,
    fun _ _ _ _ _ _ hw hv h => h.mem_walk hw hv⟩
  intro dir before name after e ho hnames hfirst h
  exact discover_eq_error_iff.mpr
    (subdirectories_eq_error_iff.mpr (Or.inr ⟨dir, before, name, after, ho, hnames, hfirst, h⟩))

/-- A package beside a link to itself. -/
def stray : FileSystem := FileSystem.empty.plantAll [] [
  ⟨[.literal "ext", .literal "a", .manifest], .file true (Utf8.encodeAll (text "\x7b\"name\": \"a\"\x7d"))⟩,
  ⟨[.literal "ext", .literal "loop"], .link (text "loop")⟩]

set_option maxRecDepth 20000 in
/-- **One stray link makes discovery fail** in a directory that can be listed; a walk of that directory does not. -/
theorem exists_stray_link : ∃ fs : FileSystem, ∃ directory : Path, (fs.list [] directory).isOk = true ∧
    (∀ excluded, discover fs [] excluded directory = .error (.system .tooManyLinks (text "/ext/loop"))) ∧
    fs.walkFiles 2 [] directory true = ([], .ok [text "/ext/a/package.json"]) := by
  refine ⟨stray, text "/ext", by cbv, fun excluded => ?_, by cbv⟩
  have hs : subdirectories stray [] (text "/ext") = .error (.system .tooManyLinks (text "/ext/loop")) := by cbv
  rw [discover, hs]

set_option maxRecDepth 20000 in
theorem discover_obstructed_stray :
    discover stray [] [] (text "/ext") = .error (.system .tooManyLinks (text "/ext/loop")) ∧
    ∃ vs, stray.walk 2 [] (text "/ext") = .ok vs ∧ Visit.special (text "/ext/loop") ∈ vs := by
  obtain ⟨-, hfirst, -, -, hwalk⟩ := discover_obstructed stray 2 [] [] (text "/ext")
  have ho : stray.openDirectory [] (text "/ext") = .ok [.literal "ext"] := by cbv
  have hnames : stray.listing [.literal "ext"] = [.literal "a"] ++ .literal "loop" :: [] := by cbv
  have ha : ∀ e, ¬ Obstructs stray [] (text "/ext") [.literal "ext"] (.literal "a") e := by
    rintro e ⟨⟨target, hlink⟩, -⟩
    have hn : stray.node? [.literal "ext", .literal "a"] = some (.directory .listing) := by cbv
    cases hlink.symm.trans hn
  have hloop : Obstructs stray [] (text "/ext") [.literal "ext"] (.literal "loop")
      (.system .tooManyLinks (text "/ext/loop")) := ⟨⟨text "loop", by cbv⟩, by cbv, by simp⟩
  have hw : stray.walk 2 [] (text "/ext") = .ok [.entered (text "/ext") [.literal "ext"],
      .entered (text "/ext/a") [.literal "ext", .literal "a"], .file (text "/ext/a/package.json"),
      .special (text "/ext/loop")] := by cbv
  exact ⟨hfirst _ _ _ _ _ ho hnames (by simpa using ha) hloop,
    _, hw, hwalk _ _ _ _ _ _ hw (List.mem_cons_self ..) hloop⟩

end Package

end ExtensionAudit
