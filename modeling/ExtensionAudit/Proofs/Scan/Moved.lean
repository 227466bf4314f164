import Mathlib
import ExtensionAudit.Proofs.Planting
import ExtensionAudit.Proofs.Renaming
import ExtensionAudit.Proofs.Scan.Remote

/-!
# Packages that are moved

The report of a package does not depend on where the package lies: the same tree of entries at another path has the same
report, with the new path in place of the old one.

* `Path.move`, `Path.move_beneath`: the path of the same entry of a tree that lies elsewhere;
* `FileSystem.Placed.readable?_eq`, `FileSystem.Placed.walk_eq`: what can be read of it, and its walk;
* `Scanner.paths_report`: the paths in a report;
* `Scanner.Moved`, **`Scanner.report_moved`**, `Scanner.moved_outcome`: the scans of one tree at two places;
* `Scanner.Lies`, **`Scanner.scan_moved`**: the scans of a package at two places, be it installed or fetched.
-/

namespace ExtensionAudit

/-! ## Paths below another root -/

namespace Path

/-- The path without a slash at its end. -/
def stem (p : Path) : Path := if p.getLast? = some slash then p.dropLast else p

/-- **The path with the root at its start replaced** by another root. -/
def move (root root' p : Path) : Path :=
  if p = root then root'
  else if stem root ++ [slash] <+: p then stem root' ++ p.drop (stem root).length
  else p

variable {p : Path}

theorem join_eq_stem (hp : p ≠ []) (name : FileName) : join p name.text = stem p ++ slash :: name.text := by
  rcases join_name hp name with ⟨q, rfl, hj⟩ | ⟨hl, hj⟩
  · rw [hj, stem, if_pos List.getLast?_concat, List.dropLast_concat]
  · rw [hj, stem, if_neg hl]

theorem beneath_eq_stem (hp : p ≠ []) {rel : List FileName} (hrel : rel ≠ []) :
    beneath p rel = stem p ++ rel.flatMap fun name => slash :: name.text := by
  induction rel using List.reverseRecOn with
  | nil => exact absurd rfl hrel
  | append_singleton rel name ih =>
    rw [beneath_concat, join_eq_stem (beneath_ne_nil hp rel), List.flatMap_append, List.flatMap_singleton,
      ← List.append_assoc]
    by_cases hinit : rel = []
    · rw [hinit, List.flatMap_nil, List.append_nil]
      rfl
    · have hlast : (beneath p rel).getLast? ≠ some slash := by
        obtain ⟨init, last, rfl⟩ := (List.eq_nil_or_concat rel).resolve_left hinit
        rw [List.concat_eq_append, beneath_concat]
        exact getLast?_join _ last
      rw [← ih hinit, stem, if_neg hlast]

variable {root root' : Path}

/-- **The path of the same entry** of a tree that lies elsewhere. -/
theorem move_beneath (hr : root ≠ []) (hr' : root' ≠ []) (rel : List FileName) :
    move root root' (beneath root rel) = beneath root' rel := by
  by_cases hrel : rel = []
  · rw [hrel]
    exact if_pos rfl
  · have hne : beneath root rel ≠ root := fun he =>
      hrel (beneath_inj hr (show beneath root rel = beneath root [] from he))
    have hstart : stem root ++ [slash] <+: beneath root rel := by
      obtain ⟨name, rest, rfl⟩ := List.exists_cons_of_ne_nil hrel
      rw [beneath_eq_stem hr hrel, List.prefix_append_right_inj, List.flatMap_cons, List.cons_append]
      exact List.prefix_append [slash] _
    rw [move, if_neg hne, if_pos hstart, beneath_eq_stem hr hrel, beneath_eq_stem hr' hrel, List.drop_left]

theorem injOn_move (hr : root ≠ []) (hr' : root' ≠ []) :
    Set.InjOn (move root root') (Set.range (beneath root)) := by
  rintro _ ⟨rel, rfl⟩ _ ⟨rel', rfl⟩ he
  rw [move_beneath hr hr', move_beneath hr hr'] at he
  rw [beneath_inj hr' he]

end Path

namespace FileSystem

variable {fs fs' tree : FileSystem} {cwd cwd' base base' : Location} {root root' : Path}

theorem map_move_of_sameBeneath (hr : root ≠ []) (hr' : root' ≠ []) {ps qs : List Path}
    (h : List.Forall₂ (SameBeneath root root') ps qs) :
    qs = ps.map (Path.move root root') ∧ ∀ p ∈ ps, p ∈ Set.range (Path.beneath root) := by
  induction h with
  | nil => exact ⟨rfl, List.forall_mem_nil _⟩
  | cons hpq _ ih =>
    obtain ⟨rel, rfl, rfl⟩ := hpq
    refine ⟨?_, List.forall_mem_cons.mpr ⟨⟨rel, rfl⟩, ih.2⟩⟩
    rw [List.map_cons, Path.move_beneath hr hr', ← ih.1]

/-- **What can be read of a tree** does not depend on where it lies. -/
theorem Placed.readable?_eq (h : fs.Placed cwd root base tree) (h' : fs'.Placed cwd' root' base' tree)
    (hc : tree.Confined) (limit : ℤ) {p q : Path} (hpq : SameBeneath root root' p q) (hs : p.IsShort)
    (hs' : q.IsShort) :
    fs'.readable? cwd' limit q = fs.readable? cwd limit p := by
  rcases h.locate_or h' hc hpq hs hs' with ⟨hnone, hnone'⟩ | ⟨_, _, hl, hl', loc, rfl, rfl⟩
  · have hstat : ∀ {fs : FileSystem} {cwd : Location} {p : Path}, (∀ a, fs.locate cwd p ≠ .ok a) →
        fs.readable? cwd limit p = none := by
      intro fs cwd p hn
      cases hl : fs.locate cwd p with
      | error e => simp only [readable?, stat, hl]
      | ok a => exact absurd hl (hn a)
    rw [hstat hnone, hstat hnone']
  · simp only [readable?, stat, hl, hl', h.holds loc, h'.holds loc]
    cases tree.node? loc <;> rfl

theorem Placed.walk_eq (h : fs.Placed cwd root base tree) (hr : root.IsNormal) (hs : root.IsShort) {access : Access}
    (hroot : tree.node? [] = some (.directory access)) (levels : ℕ) : fs.walk levels cwd root =
      if access = .listing then
        if (fs.visitsOf levels cwd root).any Visit.isTooDeep then .error .tooDeep else .ok (fs.visitsOf levels cwd root)
      else .error (.system .denied root) := by
  have hl : fs.locate cwd root = .ok base := by
    rw [locate_of_pathLeads h.pathLeads hs, if_pos (Nat.zero_le _)]
  have hn : fs.node? base = some (.directory access) := by
    rw [← hroot, ← h.holds, List.append_nil]
  rw [walk, hr.absolute_eq, list, openDirectory, hl]
  cases access <;> simp only [hn] <;> rfl

end FileSystem

theorem Package.isRemote_of_isAbsolute {p : Path} (h : Path.isAbsolute p = true) : isRemote p = false := by
  have hschemes : ∀ scheme ∈ remoteSchemes, ∃ c, scheme.head? = some c ∧ c ≠ slash := by decide
  rw [isRemote, List.any_eq_false]
  intro scheme hscheme hstart
  obtain ⟨c, hc, hne⟩ := hschemes scheme hscheme
  obtain ⟨rest, rfl⟩ := List.isPrefixOf_iff_prefix.mp hstart
  obtain ⟨tail, rfl⟩ := List.head?_eq_some_iff.mp hc
  exact hne (Option.some.inj (eq_of_beq h))

/-! ## Scans of a tree -/

namespace Scanner

variable {s s' : Scanner} {w w' : World} {fs fs' tree : FileSystem} {cwd cwd' base base' : Location}
  {clock clock' : Clock} {root root' : Path}

/-- **The scans of one tree at two places**: the same report with the other paths, all of them below the root, or the
same failure. -/
inductive Moved (tree : FileSystem) (root root' : Path) : Except Failure Report → Except Failure Report → Prop where
  | reported {r : Report} (h : tree.node? [] = some (.directory .listing))
      (hp : ∀ p ∈ r.paths, p ∈ Set.range (Path.beneath root)) :
      Moved tree root root' (.ok r) (.ok (r.mapPaths (Path.move root root')))
  | tooDeep (h : tree.node? [] = some (.directory .listing)) : Moved tree root root' (.error .tooDeep) (.error .tooDeep)
  | refused (h : tree.RefusesListing []) :
      Moved tree root root' (.error (.system .denied root)) (.error (.system .denied root'))

theorem Moved.congr {r r' : Report} (h : Moved tree root root' (.ok r) (.ok r')) :
    r'.grouped = r.grouped ∧ r'.uniqueUrls = r.uniqueUrls ∧ r'.isMalicious = r.isMalicious := by
  cases h
  exact ⟨rfl, Report.uniqueUrls_mapPaths, Report.isMalicious_mapPaths⟩

theorem examine_map {f : Path → Path} {files : List Path} {x x' : Examination} {after after' : Clock}
    (hd : s'.denylist = s.denylist) (ht : s.timeLimit ≤ 0) (ht' : s'.timeLimit ≤ 0)
    (hread : ∀ p ∈ files, fs'.readable? cwd' s'.maxFileSize (f p) = fs.readable? cwd s.maxFileSize p)
    (hx : s.examine fs cwd clock files = (x, after)) (hx' : s'.examine fs' cwd' clock' (files.map f) = (x', after')) :
    x'.results = x.results.map (FileResult.mapPath f) ∧ x'.skipped = x.skipped.map f ∧
      x'.truncated = x.truncated := by
  refine ⟨?_, ?_, ?_⟩
  · rw [results_examine hx, results_examine hx', Clock.reach_unlimited ht, Clock.reach_unlimited ht', List.take_length,
      List.take_length, List.filterMap_map, List.map_filterMap]
    refine List.filterMap_congr fun p hp => ?_
    rw [Function.comp_apply, hread p hp, Option.map_map]
    refine congrArg (Option.map · _) (funext fun bytes => ?_)
    rw [resultOf, hd]
    rfl
  · rw [skipped_examine hx, skipped_examine hx', Clock.reach_unlimited ht, Clock.reach_unlimited ht', List.take_length,
      List.take_length, List.filter_map]
    refine congrArg _ (List.filter_congr fun p hp => ?_)
    rw [Function.comp_apply, hread p hp]
  · rw [Bool.eq_iff_iff, truncated_examine hx, truncated_examine hx', Clock.reach_unlimited ht,
      Clock.reach_unlimited ht']
    simp only [lt_irrefl]

section Paths

variable {paths : Set Path} {x : Examination} {after : Clock} {vs : List Visit}

theorem paths_examine {files : List Path} (hfiles : ∀ p ∈ files, p ∈ paths)
    (hx : s.examine fs cwd clock files = (x, after)) :
    (∀ y ∈ x.results, y.path ∈ paths) ∧ ∀ p ∈ x.skipped, p ∈ paths := by
  constructor
  · intro y hy
    rw [results_examine hx] at hy
    obtain ⟨p, hp, hresult⟩ := List.mem_filterMap.mp hy
    obtain ⟨bytes, -, rfl⟩ := Option.map_eq_some_iff.mp hresult
    exact hfiles p (List.mem_of_mem_take hp)
  · intro p hp
    rw [skipped_examine hx] at hp
    exact hfiles p (List.mem_of_mem_take (List.mem_of_mem_filter hp))

theorem paths_report (hfiles : ∀ p ∈ Visit.files vs, p ∈ paths) (hrefused : ∀ p ∈ Visit.refusedPaths vs, p ∈ paths)
    (hx : s.examine fs cwd clock (Visit.files vs) = (x, after)) : ∀ p ∈ (report vs x).paths, p ∈ paths := by
  obtain ⟨hresults, hskipped⟩ := paths_examine hfiles hx
  intro p hp
  rw [Report.paths, List.mem_append, List.mem_append, List.mem_map, List.mem_map] at hp
  rcases hp with (⟨f, hf, rfl⟩ | ⟨⟨url, p⟩, ho, rfl⟩) | hp
  · obtain ⟨y, hy, hf⟩ := List.mem_flatMap.mp (show f ∈ x.results.flatMap FileResult.located from hf)
    obtain ⟨g, -, rfl⟩ := List.mem_map.mp hf
    exact hresults y hy
  · obtain ⟨y, hy, rfl, -⟩ := Report.mem_urlOccurrences.mp
      (show (url, p) ∈ (Report.ofFiles x.results).urlOccurrences from ho)
    exact hresults y hy
  · rcases List.mem_append.mp (show p ∈ Visit.refusedPaths vs ++ x.skipped from hp) with hp | hp
    · exact hrefused p hp
    · exact hskipped p hp

end Paths

/-- **The report of one tree at two places**, once both were walked. -/
theorem report_moved (hd : s'.denylist = s.denylist) (hm : s'.maxFileSize = s.maxFileSize) (ht : s.timeLimit ≤ 0)
    (ht' : s'.timeLimit ≤ 0) (h : fs.Placed cwd root base tree) (h' : fs'.Placed cwd' root' base' tree)
    (hc : tree.Confined) {vs vs' : List Visit}
    (hvs : List.Forall₂ (Visit.Like (FileSystem.SameBeneath root root') (FileSystem.SameBelow base base')) vs vs')
    (hs : ∀ v ∈ vs, v.path.IsShort) (hs' : ∀ v ∈ vs', v.path.IsShort) :
    (∀ p ∈ (report vs (s.examine fs cwd clock (Visit.files vs)).1).paths, p ∈ Set.range (Path.beneath root)) ∧
      report vs' (s'.examine fs' cwd' clock' (Visit.files vs')).1 =
        (report vs (s.examine fs cwd clock (Visit.files vs)).1).mapPaths (Path.move root root') := by
  have hr := h.pathLeads.ne_nil
  have hr' := h'.pathLeads.ne_nil
  obtain ⟨hfiles, hpaths⟩ := FileSystem.map_move_of_sameBeneath hr hr' (Visit.forall₂_files hvs)
  obtain ⟨hrefused, hrefusedPaths⟩ := FileSystem.map_move_of_sameBeneath hr hr' (Visit.forall₂_refusedPaths hvs)
  have hread : ∀ p ∈ Visit.files vs, fs'.readable? cwd' s'.maxFileSize (Path.move root root' p) =
      fs.readable? cwd s.maxFileSize p := by
    intro p hp
    have hp' : Path.move root root' p ∈ Visit.files vs' := hfiles ▸ List.mem_map_of_mem hp
    obtain ⟨rel, rfl⟩ := hpaths p hp
    rw [hm]
    exact h.readable?_eq h' hc _ ⟨rel, rfl, Path.move_beneath hr hr' rel⟩ (Visit.isShort_of_mem_files hs hp)
      (Visit.isShort_of_mem_files hs' hp')
  rw [hfiles]
  generalize hx : s.examine fs cwd clock (Visit.files vs) = out
  generalize hx' : s'.examine fs' cwd' clock' ((Visit.files vs).map (Path.move root root')) = out'
  refine ⟨paths_report hpaths hrefusedPaths hx, ?_⟩
  obtain ⟨hresults, hskipped, htruncated⟩ := examine_map hd ht ht' hread hx hx'
  rw [report, report, hresults, hskipped, hrefused, htruncated,
    Report.ofFiles_map (Path.injOn_move hr hr') (paths_examine hpaths hx).1]
  simp only [Report.mapPaths, List.map_append]

/-- **No path is too long** where the tree lies: neither that of one of its links nor one to which a walk comes. -/
structure Fits (w : World) (fs : FileSystem) (root : Path) (base : Location) (tree : FileSystem) : Prop where
  hasShortLinksAt : tree.HasShortLinksAt base
  isShort_root : root.IsShort
  isShort : ∀ v ∈ fs.visitsOf w.levels w.cwd root, v.path.IsShort

/-- **The scans of one tree at two places.** -/
theorem moved_outcome (hd : s'.denylist = s.denylist) (hm : s'.maxFileSize = s.maxFileSize) (ht : s.timeLimit ≤ 0)
    (ht' : s'.timeLimit ≤ 0) (hlevels : w'.levels = w.levels) (h : fs.Placed w.cwd root base tree)
    (h' : fs'.Placed w'.cwd root' base' tree) (hr : root.IsNormal) (hr' : root'.IsNormal) (hc : tree.Confined)
    (hf : Fits w fs root base tree) (hf' : Fits w' fs' root' base' tree) :
    Moved tree root root' (s.outcome w fs root) (s'.outcome w' fs' root') := by
  obtain ⟨access, hroot⟩ := tree.root_isDirectory
  rw [outcome, outcome, h.walk_eq hr hf.isShort_root hroot, h'.walk_eq hr' hf'.isShort_root hroot, hlevels]
  by_cases hlisting : access = .listing
  case neg =>
    rw [if_neg hlisting, if_neg hlisting]
    exact .refused ⟨access, hroot, hlisting⟩
  · subst hlisting
    have hvs := FileSystem.Placed.visitsOf h h' hr hr' hc hf.hasShortLinksAt hf'.hasShortLinksAt hf.isShort_root
      hf'.isShort_root hf.isShort (hlevels ▸ hf'.isShort)
    rw [if_pos rfl, if_pos rfl, ← Visit.any_isTooDeep_eq hvs]
    by_cases hdeep : (fs.visitsOf w.levels w.cwd root).any Visit.isTooDeep = true
    · rw [if_pos hdeep, if_pos hdeep]
      exact .tooDeep hroot
    · obtain ⟨hpaths, hreport⟩ := report_moved hd hm ht ht' h h' hc hvs hf.isShort (hlevels ▸ hf'.isShort)
      rw [if_neg hdeep, if_neg hdeep]
      simp only [Except.bind, Clock.isBeyond_of_nonpos ht, Clock.isBeyond_of_nonpos ht', Bool.false_eq_true, if_false]
      rw [hreport]
      exact .reported hroot hpaths

/-! ## Scans of a package -/

/-- **Where the package of a scanner lies**, and which tree it is: at its root, or in the directory into which it is
fetched, where the root above it lets paths through. -/
inductive Lies (s : Scanner) (w : World) : FileSystem → Path → Location → FileSystem → Prop where
  | installed {base : Location} {tree : FileSystem} (hr : s.root.IsNormal)
      (h : w.files.Placed w.cwd s.root base tree) : Lies s w w.files s.root base tree
  | fetched {name : FileName} {ps : List Planting} (hp : s.place? w = some name)
      (hroot : w.files.isPassable [] = true) (hc : w.remote w.fetched.length = ⟨ps, none⟩) :
      Lies s w (checkedOut w name) (Path.ofLocation [name]) [name] (FileSystem.empty.plantAll [] ps)

theorem Lies.placed (h : s.Lies w fs root base tree) : root.IsNormal ∧ fs.Placed w.cwd root base tree := by
  cases h with
  | installed hr h => exact ⟨hr, h⟩
  | @fetched name ps hp hroot hc =>
    have hempty := FileSystem.holds_create w.files.isDirectory_root
      (node?_of_freshName? (isRemote_of_place? hp).2)
    refine ⟨Path.isNormal_ofLocation [name], ?_⟩
    rw [checkedOut, hc]
    exact hempty.placed (w.files.isExposed_root.create hroot name _) ps w.cwd

theorem Lies.result_scan (h : s.Lies w fs root base tree) : (s.scan w).2.2 = s.outcome w fs root := by
  rw [Scanner.result_scan, site]
  cases h with
  | installed hr h =>
    rw [if_neg (Bool.eq_false_iff.mp (Package.isRemote_of_isAbsolute hr.isAbsolute))]
    rfl
  | fetched hp _ hc =>
    obtain ⟨hr, hn⟩ := isRemote_of_place? hp
    rw [if_pos hr, hn, hc]
    rfl

/-- **A report does not depend on where the package lies**, as long as no path is too long at either place. -/
theorem scan_moved (hd : s'.denylist = s.denylist) (hm : s'.maxFileSize = s.maxFileSize) (ht : s.timeLimit ≤ 0)
    (ht' : s'.timeLimit ≤ 0) (hlevels : w'.levels = w.levels) (hc : tree.Confined) (h : s.Lies w fs root base tree)
    (h' : s'.Lies w' fs' root' base' tree) (hf : Fits w fs root base tree) (hf' : Fits w' fs' root' base' tree) :
    Moved tree root root' (s.scan w).2.2 (s'.scan w').2.2 ∧
      ∀ r r', (s.scan w).2.2 = .ok r → (s'.scan w').2.2 = .ok r' →
        r'.grouped = r.grouped ∧ r'.uniqueUrls = r.uniqueUrls ∧ r'.isMalicious = r.isMalicious := by
  obtain ⟨hr, hp⟩ := h.placed
  obtain ⟨hr', hp'⟩ := h'.placed
  have hmoved := moved_outcome hd hm ht ht' hlevels hp hp' hr hr' hc hf hf'
  rw [← h.result_scan, ← h'.result_scan] at hmoved
  refine ⟨hmoved, fun r r' hok hok' => ?_⟩
  rw [hok, hok'] at hmoved
  exact hmoved.congr

/-- A package with a suspicious file, a directory with a link back to the whole, and a link across. -/
def caravan : List Planting := [
  ⟨[.literal "tent", .literal "lamp"], .file true ((text "exec(rm)http://a.b/").map fun c => c.toNat.toUInt8)⟩,
  ⟨[.literal "tent", .literal "back"], .link (text "..")⟩,
  ⟨[.literal "mirage"], .link (text "./tent/../tent/lamp")⟩,
  ⟨[.literal "crate"], .directory .passage⟩,
  ⟨[.literal "well"], .pipe⟩]

/-- The tree of that package. -/
def caravanTree : FileSystem := FileSystem.empty.plantAll [] caravan

/-- That package in a new directory of the root. -/
def camp (name : FileName) : FileSystem :=
  (FileSystem.empty.create [] name (.directory .listing)).plantAll [name] caravan

theorem placed_camp (name : FileName) : (camp name).Placed [] (Path.ofLocation [name]) [name] caravanTree :=
  (FileSystem.holds_create FileSystem.empty.isDirectory_root rfl).placed
    ((FileSystem.isExposed_root _).create rfl name _) caravan []

/-- A world with some files, and with that package behind every address. -/
def campWorld (files : FileSystem) : World := { hastyWorld with files, levels := 2, remote := fun _ => ⟨caravan, none⟩ }

theorem levels_campWorld (files : FileSystem) : (campWorld files).levels = 2 := rfl

/-- A scanner of the package at a path, without a time limit. -/
def scout (root : Path) : Scanner := { hasty with root, timeLimit := 0 }

theorem lies_of_placed {name : FileName} {files : FileSystem}
    (h : files.Placed [] (Path.ofLocation [name]) [name] caravanTree) :
    (scout (Path.ofLocation [name])).Lies (campWorld files) files (Path.ofLocation [name]) [name] caravanTree :=
  .installed (Path.isNormal_ofLocation [name]) h

theorem fits_camp (name : FileName) (hlinks : caravanTree.HasShortLinksAt [name]) (hlevels : w.levels = 2)
    (hsize : Utf8.size (Path.ofLocation [name]) < 3000) :
    Fits w (camp name) (Path.ofLocation [name]) [name] caravanTree := by
  have hroot : (Path.ofLocation [name]).IsShort := by
    rw [Path.IsShort, maxPathBytes]
    omega
  refine ⟨hlinks, hroot, FileSystem.isShort_of_mem_visitsOf ?_⟩
  rw [(Path.isNormal_ofLocation [name]).absolute_eq, hlevels, maxNameBytes, maxPathBytes]
  omega

/-- The address of the package. -/
def caravanAddress : Text := text "https://a/b"

theorem place?_scout : (scout caravanAddress).place? (campWorld .empty) = some (.literal "CLONE1") := by
  decide +kernel

/-- The world after the package was fetched once. -/
def seenWorld : World := ((scout caravanAddress).scan (campWorld .empty)).2.1

theorem files_seenWorld : seenWorld.files = .empty := by
  rw [seenWorld, files_scan rfl]
  rfl

theorem remote_seenWorld : seenWorld.remote = fun _ => ⟨caravan, none⟩ := by
  rw [seenWorld, remote_scan]
  rfl

theorem sameHost_seenWorld : (campWorld .empty).SameHost seenWorld := by
  rw [seenWorld]
  exact sameHost_scan

theorem freshName?_congr (hf : w'.files = w.files) (hn : w'.fetched = w.fetched) : freshName? w' = freshName? w := by
  rw [freshName?, freshName?, hf, hn]

theorem place?_scout_twice : (scout caravanAddress).place? seenWorld = some (.literal "CLONE2") := by
  have hfetched : seenWorld.fetched = [(caravanAddress, depth (campWorld .empty))] := by
    rw [seenWorld, fetched_scan, place?_scout]
    rfl
  have hfresh := freshName?_congr (w := { campWorld .empty with fetched := [(caravanAddress,
    depth (campWorld .empty))] })
    files_seenWorld hfetched
  rw [place?, hfresh]
  decide +kernel

theorem checkedOut_seenWorld (name : FileName) : checkedOut seenWorld name = camp name := by
  rw [checkedOut, files_seenWorld, remote_seenWorld, camp]

theorem confined_caravan : caravanTree.Confined := by decide +kernel

/-- Two packages that are installed, and one that is fetched twice. -/
theorem scan_moved_caravan :
    Moved caravanTree (text "/camp") (text "/oasis")
      ((scout (text "/camp")).scan (campWorld (camp (.literal "camp")))).2.2
      ((scout (text "/oasis")).scan (campWorld (camp (.literal "oasis")))).2.2 ∧
    Moved caravanTree (text "/CLONE1") (text "/CLONE2") ((scout caravanAddress).scan (campWorld .empty)).2.2
      ((scout caravanAddress).scan seenWorld).2.2 := by
  have hcamp : text "/camp" = Path.ofLocation [.literal "camp"] := by decide
  have hoasis : text "/oasis" = Path.ofLocation [.literal "oasis"] := by decide
  have h₁ : text "/CLONE1" = Path.ofLocation [.literal "CLONE1"] := by decide
  have h₂ : text "/CLONE2" = Path.ofLocation [.literal "CLONE2"] := by decide
  have hlevels : seenWorld.levels = 2 := sameHost_seenWorld.levels_eq
  constructor
  · rw [hcamp, hoasis]
    have hlevels := levels_campWorld (camp (.literal "camp"))
    have hlevels' := levels_campWorld (camp (.literal "oasis"))
    have hfirst := fits_camp (.literal "camp") (by decide +kernel) hlevels (by decide)
    have hsecond := fits_camp (.literal "oasis") (by decide +kernel) hlevels' (by decide)
    exact And.left (scan_moved rfl rfl le_rfl le_rfl (hlevels'.trans hlevels.symm) confined_caravan
      (lies_of_placed (placed_camp _)) (lies_of_placed (placed_camp _)) hfirst hsecond)
  · have hfirst : Fits (campWorld .empty) (checkedOut (campWorld .empty) (.literal "CLONE1")) _ _ caravanTree :=
      fits_camp _ (by decide +kernel) rfl (by decide)
    have hsecond : Fits seenWorld (camp (.literal "CLONE2")) _ _ caravanTree :=
      fits_camp _ (by decide +kernel) hlevels (by decide)
    rw [← checkedOut_seenWorld] at hsecond
    rw [h₁, h₂]
    exact And.left (scan_moved rfl rfl le_rfl le_rfl hlevels confined_caravan (.fetched place?_scout rfl rfl)
      (.fetched place?_scout_twice (by rw [files_seenWorld]; rfl) (by rw [remote_seenWorld])) hfirst hsecond)

/-! ### A package that lies too far down -/

theorem isShort_of_mem_findings {r : Report} (h : s.outcome w fs root = .ok r) {f : Finding} (hf : f ∈ r.findings) :
    Path.IsShort f.path := by
  rw [outcome] at h
  cases hw : fs.walk w.levels w.cwd root with
  | error e =>
    rw [hw] at h
    cases h
  | ok vs =>
    rw [hw] at h
    simp only [Except.bind] at h
    split at h
    · cases h
    · obtain rfl := Except.ok.inj h
      rcases hx : s.examine fs w.cwd w.clock (Visit.files vs) with ⟨x, clock⟩
      rw [hx] at hf
      obtain ⟨y, hy, hf⟩ := List.mem_flatMap.mp (show f ∈ x.results.flatMap FileResult.located from hf)
      obtain ⟨g, -, rfl⟩ := List.mem_map.mp hf
      rw [results_examine hx] at hy
      obtain ⟨p, -, hp⟩ := List.mem_filterMap.mp hy
      obtain ⟨bytes, hbytes, rfl⟩ := Option.map_eq_some_iff.mp hp
      obtain ⟨hstat, -⟩ := FileSystem.readable?_eq_some.mp hbytes
      obtain ⟨loc, hl, -⟩ := FileSystem.exists_locate_of_stat hstat
      exact (FileSystem.locate_eq_ok_iff.mp hl).1

theorem not_moved {r : Report} {f : Finding} (hf : f ∈ r.findings)
    (hlong : ¬ Path.IsShort (Path.move root root' f.path)) :
    ¬ Moved tree root root' (.ok r) (s'.outcome w' fs' root') := by
  intro hmoved
  generalize hr' : s'.outcome w' fs' root' = result at hmoved
  cases hmoved with
  | reported => exact hlong (isShort_of_mem_findings hr' (List.mem_map_of_mem hf))

/-- A name that could not be longer. -/
def longName : FileName := ⟨List.replicate 255 (CodePoint.ofChar 'a'), by decide +kernel⟩

/-- A package with one suspicious file. -/
def lamp : List Planting := [⟨[longName], .file true ((text "exec(rm)").map fun c => c.toNat.toUInt8)⟩]

/-- The tree of that package. -/
def lampTree : FileSystem := FileSystem.empty.plantAll [] lamp

/-- A world with nothing but that package at a location. -/
def lampWorld (loc : Location) : World := campWorld ((FileSystem.empty.ensureDirectories [] loc).plantAll loc lamp)

theorem lies_lampWorld (loc : Location) : (scout (Path.ofLocation loc)).Lies (lampWorld loc) (lampWorld loc).files
    (Path.ofLocation loc) loc lampTree :=
  .installed (Path.isNormal_ofLocation loc)
    ((FileSystem.holds_ensureDirectories loc).1.placed (FileSystem.holds_ensureDirectories loc).2 lamp [])

/-- A location near the root, and one whose path leaves no room for the name of the file. -/
def near : Location := [.literal "camp"]

def far : Location := List.replicate 15 longName

theorem walk_near : (lampWorld near).files.walk 2 [] (Path.ofLocation near) = .ok [
    .entered (Path.ofLocation near) near, .file (Path.beneath (Path.ofLocation near) [longName])] := by
  decide +kernel

theorem exists_report_near : ∃ r, ((scout (Path.ofLocation near)).scan (lampWorld near)).2.2 = .ok r ∧
    ⟨Path.beneath (Path.ofLocation near) [longName], 1, text "rm", execKind⟩ ∈ r.findings := by
  obtain ⟨s, w, x, clock, hx, h⟩ := exists_scan_eq (s := scout (Path.ofLocation near)) (w := lampWorld near)
    (by decide) (by decide) walk_near
  obtain rfl := congrArg Prod.fst hx
  exact ⟨_, congrArg (fun out => out.2.2) h, by decide +kernel⟩

theorem not_isShort_far : ¬ (Path.beneath (Path.ofLocation far) [longName]).IsShort := by decide +kernel

/-- **A finding is lost** if the package is moved to where the path of its file is too long. -/
theorem not_moved_far : lampTree.Confined ∧
    (scout (Path.ofLocation near)).Lies (lampWorld near) (lampWorld near).files (Path.ofLocation near) near lampTree ∧
    (scout (Path.ofLocation far)).Lies (lampWorld far) (lampWorld far).files (Path.ofLocation far) far lampTree ∧
    ¬ Moved lampTree (Path.ofLocation near) (Path.ofLocation far)
      ((scout (Path.ofLocation near)).scan (lampWorld near)).2.2
      ((scout (Path.ofLocation far)).scan (lampWorld far)).2.2 := by
  refine ⟨by decide +kernel, lies_lampWorld near, lies_lampWorld far, ?_⟩
  obtain ⟨r, hr, hf⟩ := exists_report_near
  have hmove := Path.move_beneath (Path.ofLocation_ne_nil near) (Path.ofLocation_ne_nil far) [longName]
  rw [hr, (lies_lampWorld far).result_scan]
  refine not_moved hf ?_
  rw [hmove]
  exact not_isShort_far

end Scanner

end ExtensionAudit
