import ExtensionAudit.Proofs.Frame
import ExtensionAudit.Scanner.Scan

/-!
# How a scan ends

A scan ends in one of five ways: no directory can be made for a remote package, the package cannot be
fetched, its directory cannot be walked, there is no telling when the time will be over, or its files are reported
on. In all of them the files are what they were before.

* `World.SameHost`: what no step of a run changes;
* `Scanner.Fetched`, `Scanner.fetch_cases`: how fetching ends;
* `Scanner.Site`: the files of a package, and the directory in which they lie;
* `Scanner.Scanned`, **`Scanner.scan_cases`**: how a scan ends;
* `Scanner.scan_cases_of_walk`: the scan of a directory that can be walked;
* **`Scanner.files_scan`**: a scan changes no file.
-/

namespace ExtensionAudit

/-- What no step of a run changes. -/
structure World.SameHost (w w' : World) : Prop where
  cwd_eq : w'.cwd = w.cwd
  environment_eq : w'.environment = w.environment
  levels_eq : w'.levels = w.levels
  horizon_eq : w'.horizon = w.horizon

theorem World.SameHost.refl (w : World) : w.SameHost w := ⟨rfl, rfl, rfl, rfl⟩

theorem World.SameHost.trans {w w₁ w' : World} (h : w.SameHost w₁) (h' : w₁.SameHost w') : w.SameHost w' :=
  ⟨h'.cwd_eq.trans h.cwd_eq, h'.environment_eq.trans h.environment_eq, h'.levels_eq.trans h.levels_eq,
    h'.horizon_eq.trans h.horizon_eq⟩

namespace Scanner

variable {s : Scanner} {w : World}

theorem node?_of_freshName? {name : FileName} (h : freshName? w = some name) :
    w.files.node? [name] = none := by
  have := List.find?_some h
  simpa using this

/-- The file system in which a remote package was checked out below the root. -/
def checkedOut (w : World) (name : FileName) : FileSystem :=
  (w.files.create [] name (.directory .listing)).plantAll [name] (w.remote w.fetched.length).plantings

/-- The depth with which remote packages are fetched. -/
def depth (w : World) : ℤ := (Settings.fetchDepth.read w.environment).1

/-- **How fetching ends.** -/
inductive Fetched (s : Scanner) (w : World) (address : Text) :
    Scanner × World × Except Failure Path → Prop where
  | noRoom (h : freshName? w = none) :
      Fetched s w address (s, w, .error (.system .exists (Path.ofLocation [])))
  | failed {reason : Text} {journal : List Notice}
      (hc : (w.remote w.fetched.length).failure = some reason) :
      Fetched s w address ({ s with temporary := none },
        { w with fetched := w.fetched ++ [(address, depth w)], journal }, .error (.checkout reason))
  | done {name : FileName} {journal : List Notice} (hn : w.files.node? [name] = none)
      (hc : (w.remote w.fetched.length).failure = none) :
      Fetched s w address ({ s with temporary := some [name] },
        { w with files := checkedOut w name, fetched := w.fetched ++ [(address, depth w)], journal },
        .ok (Path.ofLocation [name]))

theorem fetch_cases (s : Scanner) (w : World) (address : Text) : s.Fetched w address (s.fetch w address) := by
  unfold fetch
  split
  · next h => exact .noRoom h
  next name h =>
  have hn := node?_of_freshName? h
  simp only
  split
  · next hc => exact .done hn hc
  · next reason hc =>
    -- what was fetched lies below a directory that was new
    have hr : (checkedOut w name).remove [name] = w.files := FileSystem.remove_plantAll_create hn _
    simp only [removeTemporary, World.noteAll, World.note]
    rw [show ((w.files.create [] name (.directory .listing)).plantAll [name]
      (w.remote w.fetched.length).plantings).remove [name] = w.files from hr]
    exact .failed hc

/-- **Where the files of a package lie**: in its directory, or in a new one into which it is fetched. -/
inductive Site (w : World) (path : Path) : FileSystem → Path → Prop where
  | installed (hr : Package.isRemote path = false) : Site w path w.files path
  | fetched {name : FileName} (hr : Package.isRemote path = true) (hn : w.files.node? [name] = none)
      (hc : (w.remote w.fetched.length).failure = none) :
      Site w path (checkedOut w name) (Path.ofLocation [name])

theorem Site.eq_of_installed {path root : Path} {fs : FileSystem} (h : Site w path fs root)
    (hr : Package.isRemote path = false) : fs = w.files ∧ root = path := by
  cases h with
  | installed => exact ⟨rfl, rfl⟩
  | fetched hr' => rw [hr] at hr'; cases hr'

/-- The addresses that the scan of a package fetches. -/
def fetches (s : Scanner) (w : World) : List (Text × ℤ) :=
  if Package.isRemote s.root then [(s.root, depth w)] else []

/-- **How a scan ends.** A directory that was left over is removed; else the files are what they were. -/
inductive Scanned (s : Scanner) (w : World) : Scanner × World × Except Failure Report → Prop where
  | noRoom {files : FileSystem} {journal : List Notice} (hf : s.temporary = none → files = w.files)
      (hr : Package.isRemote s.root = true) (h : freshName? w = none) :
      Scanned s w ({ s with temporary := none }, { w with files, journal },
        .error (.system .exists (Path.ofLocation [])))
  | notFetched {reason : Text} {journal : List Notice} (hr : Package.isRemote s.root = true)
      (hc : (w.remote w.fetched.length).failure = some reason) :
      Scanned s w ({ s with temporary := none },
        { w with fetched := w.fetched ++ s.fetches w, journal }, .error (.checkout reason))
  | notWalked {files fs : FileSystem} {root : Path} {e : Failure} {journal : List Notice}
      (hf : s.temporary = none → files = w.files) (hs : Site w s.root fs root)
      (hw : fs.walk w.levels w.cwd root = .error e) :
      Scanned s w ({ s with temporary := none },
        { w with files, fetched := w.fetched ++ s.fetches w, journal }, .error e)
  | notTimed {files fs : FileSystem} {root : Path} {vs : List Visit} {journal : List Notice}
      (hf : s.temporary = none → files = w.files) (hs : Site w s.root fs root)
      (hw : fs.walk w.levels w.cwd root = .ok vs) (hz : Clock.isBeyond w.horizon s.timeLimit = true) :
      Scanned s w ({ s with temporary := none },
        { w with files, fetched := w.fetched ++ s.fetches w, journal }, .error .limitTooGreat)
  | reported {files fs : FileSystem} {root : Path} {vs : List Visit} {x : Examination} {clock : Clock}
      {journal : List Notice} (hf : s.temporary = none → files = w.files) (hs : Site w s.root fs root)
      (hw : fs.walk w.levels w.cwd root = .ok vs) (hz : Clock.isBeyond w.horizon s.timeLimit = false)
      (hx : s.examine fs w.cwd w.clock (Visit.files vs) = (x, clock)) :
      Scanned s w ({ s with temporary := none, scanned := s.scanned + x.results.length,
                            skipped := s.skipped + x.skipped.length },
        { w with files, fetched := w.fetched ++ s.fetches w, clock, journal }, .ok (report vs x))

theorem cleanUp_eq (s : Scanner) (w : World) : ∃ files journal,
    s.cleanUp w = ({ s with temporary := none }, { w with files, journal }) ∧
      files = match s.temporary with
        | none => w.files
        | some loc => w.files.remove loc := by
  obtain ⟨root, metadata, denylist, maxFileSize, timeLimit, scanned, skipped, temporary⟩ := s
  cases temporary with
  | none => exact ⟨w.files, w.journal, rfl, rfl⟩
  | some loc => exact ⟨w.files.remove loc, w.journal ++ [.cleaned], rfl, rfl⟩

theorem scanDirectory_cases (s : Scanner) (w : World) (root : Path) :
    (∃ e journal, w.files.walk w.levels w.cwd root = .error e ∧
        s.scanDirectory w root = (s, { w with journal }, .error e)) ∨
      ∃ vs, w.files.walk w.levels w.cwd root = .ok vs ∧
        ((∃ journal, Clock.isBeyond w.horizon s.timeLimit = true ∧
            s.scanDirectory w root = (s, { w with journal }, .error .limitTooGreat)) ∨
          ∃ x clock journal, Clock.isBeyond w.horizon s.timeLimit = false ∧
            s.examine w.files w.cwd w.clock (Visit.files vs) = (x, clock) ∧
            s.scanDirectory w root = ({ s with scanned := s.scanned + x.results.length,
                                               skipped := s.skipped + x.skipped.length },
              { w with clock, journal }, .ok (report vs x))) := by
  unfold scanDirectory
  cases hw : w.files.walk w.levels w.cwd root with
  | error e => exact Or.inl ⟨e, _, rfl, rfl⟩
  | ok vs =>
    cases hz : Clock.isBeyond w.horizon s.timeLimit with
    | true => exact Or.inr ⟨vs, rfl, Or.inl ⟨_, rfl, rfl⟩⟩
    | false => exact Or.inr ⟨vs, rfl, Or.inr ⟨_, _, _, rfl, rfl, rfl⟩⟩

theorem scanned_of_site {fs : FileSystem} {root : Path} (temporary : Option Location)
    (journal : List Notice) (hs : Site w s.root fs root)
    (hf : s.temporary = none → (match temporary with
      | none => fs
      | some loc => fs.remove loc) = w.files) :
    let (s', w', result) := { s with temporary }.scanDirectory
      { w with files := fs, fetched := w.fetched ++ s.fetches w, journal } root
    s.Scanned w ((s'.cleanUp w').1, (s'.cleanUp w').2, result) := by
  rcases scanDirectory_cases { s with temporary }
      { w with files := fs, fetched := w.fetched ++ s.fetches w, journal } root with
    ⟨e, journal', hw, hd⟩ | ⟨vs, hw, ⟨journal', hz, hd⟩ | ⟨x, clock, journal', hz, hx, hd⟩⟩
  · rw [hd]
    obtain ⟨files, journal'', hc, rfl⟩ := cleanUp_eq { s with temporary }
      { w with files := fs, fetched := w.fetched ++ s.fetches w, journal := journal' }
    simp only [hc]
    exact .notWalked hf hs hw
  · rw [hd]
    obtain ⟨files, journal'', hc, rfl⟩ := cleanUp_eq { s with temporary }
      { w with files := fs, fetched := w.fetched ++ s.fetches w, journal := journal' }
    simp only [hc]
    exact .notTimed hf hs hw hz
  · rw [hd]
    obtain ⟨files, journal'', hc, rfl⟩ := cleanUp_eq
      { s with scanned := s.scanned + x.results.length, skipped := s.skipped + x.skipped.length, temporary }
      { w with files := fs, fetched := w.fetched ++ s.fetches w, clock, journal := journal' }
    simp only [hc]
    exact .reported hf hs hw hz hx

/-- **How a scan ends**, whatever the package and the world. -/
theorem scan_cases (s : Scanner) (w : World) : s.Scanned w (s.scan w) := by
  rw [show s.scan w = let (s', w', result) := s.scanRoot (w.note (.scanning s.metadata.name))
    ((s'.cleanUp w').1, (s'.cleanUp w').2, result) from rfl, scanRoot]
  by_cases hr : Package.isRemote s.root = true
  · rw [if_pos hr]
    have hfetches : s.fetches w = [(s.root, depth w)] := if_pos hr
    have hf := fetch_cases s (w.note (.scanning s.metadata.name)) s.root
    generalize s.fetch (w.note (.scanning s.metadata.name)) s.root = out at hf
    cases hf with
    | noRoom h =>
      obtain ⟨files, journal, hc, rfl⟩ := s.cleanUp_eq (w.note (.scanning s.metadata.name))
      simp only [hc]
      exact .noRoom (fun ht => by rw [ht]; rfl) hr h
    | @failed reason journal hc =>
      have h : s.Scanned w (_, { w with fetched := w.fetched ++ s.fetches w, journal }, _) :=
        .notFetched hr hc
      rw [hfetches] at h
      exact h
    | @done name journal hn hc =>
      have hs : Site w s.root (checkedOut w name) (Path.ofLocation [name]) := .fetched hr hn hc
      have h := scanned_of_site (some [name]) journal hs fun _ => FileSystem.remove_plantAll_create hn _
      rw [hfetches] at h
      exact h
  · rw [if_neg hr]
    have hfetches : s.fetches w = [] := if_neg hr
    have hs : Site w s.root w.files s.root := .installed (by simpa using hr)
    have h := scanned_of_site s.temporary (w.note (.scanning s.metadata.name)).journal hs fun ht => by rw [ht]
    rw [hfetches, List.append_nil] at h
    exact h

theorem scan_cases_of_walk {vs : List Visit} (hr : Package.isRemote s.root = false)
    (hw : w.files.walk w.levels w.cwd s.root = .ok vs) :
    (Clock.isBeyond w.horizon s.timeLimit = true ∧ ∃ s' w', s.scan w = (s', w', .error .limitTooGreat)) ∨
      Clock.isBeyond w.horizon s.timeLimit = false ∧ ∃ s' w' x clock,
        s.examine w.files w.cwd w.clock (Visit.files vs) = (x, clock) ∧
          s.scan w = (s', w', .ok (report vs x)) := by
  have h := scan_cases s w
  generalize s.scan w = out at h
  cases h with
  | noRoom _ hr' => rw [hr] at hr'; cases hr'
  | notFetched hr' => rw [hr] at hr'; cases hr'
  | notWalked _ hs hw' =>
    obtain ⟨rfl, rfl⟩ := hs.eq_of_installed hr
    cases hw.symm.trans hw'
  | notTimed _ hs hw' hz => exact Or.inl ⟨hz, _, _, rfl⟩
  | reported _ hs hw' hz hx =>
    obtain ⟨rfl, rfl⟩ := hs.eq_of_installed hr
    cases hw.symm.trans hw'
    exact Or.inr ⟨hz, _, _, _, _, hx, rfl⟩

theorem exists_scan_eq {vs : List Visit} (hr : Package.isRemote s.root = false)
    (hz : Clock.isBeyond w.horizon s.timeLimit = false) (hw : w.files.walk w.levels w.cwd s.root = .ok vs) :
    ∃ s' w' x clock, s.examine w.files w.cwd w.clock (Visit.files vs) = (x, clock) ∧
      s.scan w = (s', w', .ok (report vs x)) := by
  rcases scan_cases_of_walk hr hw with ⟨hz', -⟩ | ⟨-, h⟩
  · cases hz.symm.trans hz'
  · exact h

/-- **A scan changes no file**, unless it finds a directory left over by another one. -/
theorem files_scan (ht : s.temporary = none) : (s.scan w).2.1.files = w.files := by
  have h := scan_cases s w
  generalize s.scan w = out at h
  cases h with
  | noRoom hf => exact hf ht
  | notFetched => rfl
  | notWalked hf => exact hf ht
  | notTimed hf => exact hf ht
  | reported hf => exact hf ht

theorem sameHost_scan : w.SameHost (s.scan w).2.1 := by
  have h := scan_cases s w
  generalize s.scan w = out at h
  cases h <;> exact ⟨rfl, rfl, rfl, rfl⟩

theorem remote_scan : (s.scan w).2.1.remote = w.remote := by
  have h := scan_cases s w
  generalize s.scan w = out at h
  cases h <;> rfl

end Scanner

end ExtensionAudit
