import Mathlib
import ExtensionAudit.Package.Manifest
import ExtensionAudit.Proofs.Json.Members
import ExtensionAudit.Proofs.LineEndings
import ExtensionAudit.Proofs.Paths

/-!
# The labels of a package

A package has the labels that its manifest gives it, if the manifest is usable. Else it is known by the name of its
directory, and there is one warning, unless there is no manifest at all.

* `Manifest.Gives`: a usable manifest and its members;
* `Manifest.lastLabel`, `Manifest.labels`: the labels that some members give;
* `Manifest.read_eq_object_iff`, `Manifest.load_of_gives`: packages with a usable manifest;
* `Manifest.Unusable`, `Manifest.exists_gives_iff`, `Manifest.load_of_unusable`: packages without one;
* **`Manifest.load_labels`**: the labels of a package, and what is told about its manifest.
-/

namespace ExtensionAudit.Manifest

variable {fs : FileSystem} {cwd : Location} {directory path : Path}

/-! ## Usable manifests -/

/-- **A usable manifest**: the file can be opened, its bytes are UTF-8 and its text is an object with these members, in
the order in which they are written. -/
def Gives (fs : FileSystem) (cwd : Location) (path : Path) (pairs : List (Text × Json)) : Prop :=
  ∃ bytes t, fs.read cwd path = .ok bytes ∧ Utf8.decodeStrict bytes = some t ∧
    Json.pairsWithin (some Json.maxIntegerDigits) (Text.unifyNewlines t) = some pairs

/-- The label that the last member of a name gives. Without such a member it is empty. -/
def lastLabel (pairs : List (Text × Json)) (name : String) : Text :=
  ((Table.last? pairs (text name)).map Json.label).getD []

/-- The labels that some members give. A package without a name takes that of its directory. -/
def labels (directory : Path) (pairs : List (Text × Json)) : Metadata where
  name := if lastLabel pairs "name" = [] then Path.lastComponent directory else lastLabel pairs "name"
  version := lastLabel pairs "version"
  publisher := lastLabel pairs "publisher"
  description := lastLabel pairs "description"

theorem ofMembers_ofPairs (pairs : List (Text × Json)) : Metadata.ofMembers (Table.ofPairs pairs) =
    { name := lastLabel pairs "name", version := lastLabel pairs "version", publisher := lastLabel pairs "publisher"
      description := lastLabel pairs "description" } := by
  simp only [Metadata.ofMembers, Table.get?_ofPairs, lastLabel]

theorem read_eq_ok_iff {v : Json} : read fs cwd path = .ok v ↔
    ∃ bytes t, fs.read cwd path = .ok bytes ∧ Utf8.decodeStrict bytes = some t ∧
      Json.parse (Text.unifyNewlines t) = some v := by
  rw [read]
  cases fs.read cwd path with
  | error e => simp
  | ok bytes =>
    simp only [ofBytes]
    cases ht : Utf8.decodeStrict bytes with
    | none => simp [ht]
    | some t =>
      cases hv : Json.parse (Text.unifyNewlines t) with
      | none => simp [ht, hv]
      | some v' => simp [ht, hv]

theorem read_eq_object_iff {members : Table Text Json} : read fs cwd path = .ok (.object members) ↔
    ∃ pairs, Gives fs cwd path pairs ∧ members = Table.ofPairs pairs := by
  simp only [read_eq_ok_iff, Json.parse, Json.parseWithin_eq_object_iff, Gives]
  constructor
  · rintro ⟨bytes, t, hr, ht, pairs, hp, rfl⟩
    exact ⟨pairs, ⟨bytes, t, hr, ht, hp⟩, rfl⟩
  · rintro ⟨pairs, ⟨bytes, t, hr, ht, hp⟩, rfl⟩
    exact ⟨bytes, t, hr, ht, pairs, hp, rfl⟩

theorem load_of_gives {pairs : List (Text × Json)} (h : Gives fs cwd (Path.join directory fileName) pairs) :
    load fs cwd directory = (labels directory pairs, []) := by
  have hr := read_eq_object_iff.mpr ⟨pairs, h, rfl⟩
  simp only [load, hr, ofMembers_ofPairs, labels]
  split <;> rfl

/-! ## Unusable manifests -/

/-- **What makes a manifest unusable.** A file that cannot be read is missing, is a directory, refuses to be opened or
lies behind a path that cannot be followed. -/
inductive Unusable (fs : FileSystem) (cwd : Location) (path : Path) : Prop where
  | unreadable {e : Failure} (h : fs.read cwd path = .error e)
  | notUtf8 {bytes : Bytes} (h : fs.read cwd path = .ok bytes) (ht : Utf8.decodeStrict bytes = none)
  | marked {bytes : Bytes} {t : Text} (h : fs.read cwd path = .ok bytes)
      (ht : Utf8.decodeStrict bytes = some (Json.byteOrderMark :: t))
  | notJson {bytes : Bytes} {t : Text} (h : fs.read cwd path = .ok bytes) (ht : Utf8.decodeStrict bytes = some t)
      (hv : Json.parse (Text.unifyNewlines t) = none)
  | notObject {bytes : Bytes} {t : Text} {v : Json} (h : fs.read cwd path = .ok bytes)
      (ht : Utf8.decodeStrict bytes = some t) (hv : Json.parse (Text.unifyNewlines t) = some v)
      (ho : v.isObject = false)

theorem Unusable.read_eq (h : Unusable fs cwd path) :
    (∃ fault, read fs cwd path = .error fault) ∨ ∃ v, read fs cwd path = .ok v ∧ v.isObject = false := by
  cases h with
  | @unreadable e h => exact Or.inl ⟨.unreadable e, by simp only [read, h]⟩
  | notUtf8 h ht => exact Or.inl ⟨.notUtf8, by simp only [read, h, ofBytes, ht]⟩
  | @marked bytes t h ht =>
    have hnone : Json.parse (Text.unifyNewlines (Json.byteOrderMark :: t)) = none := by
      rw [Text.unifyNewlines_cons (by decide)]
      exact Json.parseWithin_byteOrderMark _
    exact Or.inl ⟨.notJson, by simp only [read, h, ofBytes, ht, hnone]⟩
  | notJson h ht hv => exact Or.inl ⟨.notJson, by simp only [read, h, ofBytes, ht, hv]⟩
  | notObject h ht hv ho => exact Or.inr ⟨_, read_eq_ok_iff.mpr ⟨_, _, h, ht, hv⟩, ho⟩

/-- **A manifest is usable or not**, and never both. -/
theorem exists_gives_iff : (∃ pairs, Gives fs cwd path pairs) ↔ ¬ Unusable fs cwd path := by
  have hobject : ∀ members : Table Text Json, Json.isObject (.object members) = true := fun _ => rfl
  constructor
  · rintro ⟨pairs, hp⟩ hu
    have hr := read_eq_object_iff.mpr ⟨pairs, hp, rfl⟩
    rcases hu.read_eq with ⟨fault, h⟩ | ⟨v, h, ho⟩
    · rw [hr] at h
      cases h
    · rw [hr] at h
      cases h
      cases ho
  · intro hu
    cases hr : fs.read cwd path with
    | error e => exact absurd (.unreadable hr) hu
    | ok bytes =>
    cases ht : Utf8.decodeStrict bytes with
    | none => exact absurd (.notUtf8 hr ht) hu
    | some t =>
    cases hv : Json.parse (Text.unifyNewlines t) with
    | none => exact absurd (.notJson hr ht hv) hu
    | some v =>
    cases v with
    | object members =>
      obtain ⟨pairs, hp, -⟩ := Json.parseWithin_eq_object_iff.mp hv
      exact ⟨pairs, bytes, t, hr, ht, hp⟩
    | _ => exact absurd (.notObject hr ht hv rfl) hu

theorem read_eq_missing_iff {q : Path} : read fs cwd path = .error (.unreadable (.system .noEntry q)) ↔
    fs.stat cwd path = .error (.system .noEntry q) := by
  have hbytes : ∀ bytes, ofBytes bytes ≠ .error (.unreadable (.system .noEntry q)) := by
    intro bytes h
    rw [ofBytes] at h
    split at h
    · cases h
    · split at h <;> cases h
  rw [read, FileSystem.read]
  cases fs.stat cwd path with
  | error e => simp
  | ok node =>
    cases node with
    | directory => simp
    | file openable bytes => cases openable <;> simp [hbytes]
    | _ => exact iff_of_false (hbytes []) (by simp)

/-- One warning about the manifest at a path. -/
def IsWarning (path : Path) (notices : List Notice) : Prop :=
  ∃ notice, notices = [notice] ∧ notice.level = .warning ∧
    (notice = .shapelessManifest path ∨ ∃ reason, notice = .unreadableManifest path reason)

theorem load_of_missing {path q : Path} (hpath : path = Path.join directory fileName)
    (h : fs.stat cwd path = .error (.system .noEntry q)) :
    load fs cwd directory = ({ name := Path.lastComponent directory }, []) := by
  subst hpath
  simp only [load, read_eq_missing_iff.mpr h]

theorem load_of_unusable (h : Unusable fs cwd (Path.join directory fileName))
    (hexists : ∀ q, fs.stat cwd (Path.join directory fileName) ≠ .error (.system .noEntry q)) :
    (load fs cwd directory).1 = { name := Path.lastComponent directory } ∧
      IsWarning (Path.join directory fileName) (load fs cwd directory).2 := by
  have hfound : ∀ q, read fs cwd (Path.join directory fileName) ≠ .error (.unreadable (.system .noEntry q)) :=
    fun q hq => hexists q (read_eq_missing_iff.mp hq)
  rcases h.read_eq with ⟨fault, hr⟩ | ⟨v, hr, ho⟩
  · simp only [load, hr]
    split
    · next q hq =>
      cases hq
      exact absurd hr (hfound q)
    · next hq =>
      cases hq
      exact ⟨rfl, _, rfl, rfl, Or.inr ⟨_, rfl⟩⟩
    · next hq => cases hq
    · next hq => cases hq
  · simp only [load, hr]
    cases v with
    | object members => cases ho
    | _ => exact ⟨rfl, _, rfl, rfl, Or.inl rfl⟩

/-- **The labels of a package.** Loading them always comes to an end.

* If the manifest is usable, then the version, the publisher and the description are what the last members of these
  names give, and empty without such members. The name is found in the same way, unless that gives nothing; then it is
  the last component of the normalised path of the package. Nothing is told.
* If there is no file, then the name is that component, the other labels are empty, and nothing is told.
* If the file cannot be read otherwise, or holds something else than an object, then the labels are the same, and
  there is one warning.

Files that cannot be read, are not UTF-8, begin with a byte order mark, hold no document or a document that is no object
are all that is not usable. -/
theorem load_labels (fs : FileSystem) (cwd : Location) (directory : Path) :
    (∀ pairs, Gives fs cwd (Path.join directory fileName) pairs →
      load fs cwd directory = (labels directory pairs, [])) ∧
    (∀ q, fs.stat cwd (Path.join directory fileName) = .error (.system .noEntry q) →
      load fs cwd directory = ({ name := Path.lastComponent directory }, [])) ∧
    (Unusable fs cwd (Path.join directory fileName) →
      (∀ q, fs.stat cwd (Path.join directory fileName) ≠ .error (.system .noEntry q)) →
      (load fs cwd directory).1 = { name := Path.lastComponent directory } ∧
        IsWarning (Path.join directory fileName) (load fs cwd directory).2) ∧
    ((∃ pairs, Gives fs cwd (Path.join directory fileName) pairs) ↔
      ¬ Unusable fs cwd (Path.join directory fileName)) :=
  ⟨fun _ => load_of_gives, fun _ => load_of_missing rfl, load_of_unusable, exists_gives_iff⟩

/-- A manifest with an empty name and two versions. -/
def doubled : Text := text "\x7b\"version\": \"1\", \"name\": \"\", \"version\": null\x7d"

/-- A package with that manifest, one without a manifest, and one whose manifest is a directory. -/
def drawers : FileSystem := FileSystem.empty.plantAll [] [
  ⟨[.literal "a", .manifest], .file true (Utf8.encodeAll doubled)⟩,
  ⟨[.literal "b"], .directory .listing⟩,
  ⟨[.literal "c", .manifest], .directory .listing⟩]

set_option maxRecDepth 20000 in
theorem load_labels_drawers :
    load drawers [] (text "/a/") = ({ name := text "a", version := text "None" }, []) ∧
    load drawers [] (text "/b") = ({ name := text "b" }, []) ∧
    (load drawers [] (text "/c")).1 = { name := text "c" } ∧
    IsWarning (text "/c/package.json") (load drawers [] (text "/c")).2 := by
  obtain ⟨hgives, -, -, -⟩ := load_labels drawers [] (text "/a/")
  obtain ⟨-, hmissing, -, -⟩ := load_labels drawers [] (text "/b")
  obtain ⟨-, -, hunusable, -⟩ := load_labels drawers [] (text "/c")
  have ha : Gives drawers [] (Path.join (text "/a/") fileName)
      [(text "version", .string (text "1")), (text "name", .string []), (text "version", .null)] :=
    ⟨Utf8.encodeAll doubled, doubled, by cbv, by cbv, by cbv⟩
  have hc : drawers.read [] (Path.join (text "/c") fileName) =
      .error (.system .isDirectory (text "/c/package.json")) := by
    cbv
  have hexists : drawers.stat [] (Path.join (text "/c") fileName) = .ok (.directory .listing) := by cbv
  refine ⟨(hgives _ ha).trans (by cbv), hmissing (text "/b/package.json") (by cbv), hunusable (.unreadable hc) ?_⟩
  intro q hq
  rw [hexists] at hq
  cases hq

end ExtensionAudit.Manifest
