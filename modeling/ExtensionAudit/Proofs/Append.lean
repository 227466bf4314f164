import ExtensionAudit.Files.Access
import ExtensionAudit.Proofs.Lookup

/-!
# What an append adds

A text that is written at the end of a file is added to what the file holds, or the append fails and the file
holds what it held. A file that is missing holds nothing.

* `FileSystem.bytesAt`: what the file at the end of a path holds;
* `FileSystem.IsPlain`: there is no pipe and no device at the end of a path;
* `FileSystem.Opening`, **`FileSystem.opening_of_openForWriting`**: how a file is opened for writing;
* **`FileSystem.append_ok`**, **`FileSystem.append_error`**: what an append adds.
-/

namespace ExtensionAudit.FileSystem

variable {fs fs' : FileSystem} {cwd loc : Location} {p : Path}

/-! ## The file at the end of a path -/

/-- What the file at the end of a path holds. -/
def bytesAt (fs : FileSystem) (cwd : Location) (p : Path) : Bytes :=
  ((fs.stat cwd p).toOption.bind Node.content?).getD []

/-- There is neither a pipe nor a device at the end of the path. -/
def IsPlain (fs : FileSystem) (cwd : Location) (p : Path) : Prop :=
  ∀ node, fs.stat cwd p = .ok node → node ≠ .pipe ∧ node ≠ .device

theorem bytesAt_of_stat {openable : Bool} {content : Bytes} (h : fs.stat cwd p = .ok (.file openable content)) :
    fs.bytesAt cwd p = content := by
  rw [bytesAt, h]; rfl

theorem bytesAt_of_missing (h : ∀ node, fs.stat cwd p ≠ .ok node) : fs.bytesAt cwd p = [] := by
  unfold bytesAt
  cases hs : fs.stat cwd p with
  | error e => rfl
  | ok node => exact absurd hs (h node)

theorem isPlain_of_stat {openable : Bool} {content : Bytes} (h : fs.stat cwd p = .ok (.file openable content)) :
    fs.IsPlain cwd p := by
  intro node hn
  rw [h] at hn
  cases hn
  simp

/-! ## Opening a file -/

/-- Bytes can be written to the entry. Pipes and devices swallow them. -/
def IsWritable (node : Node) : Prop := (∃ content, node = .file true content) ∨ node = .pipe ∨ node = .device

/-- **How a file is opened for writing**: it is there, or it is made. -/
inductive Opening (fs : FileSystem) : FileSystem → Location → Prop where
  | found {loc : Location} {node : Node} (hn : fs.node? loc = some node) (hw : IsWritable node) : Opening fs fs loc
  | made {dir : Location} {name : FileName} (hd : fs.isDirectory dir = true)
      (hv : fs.node? (dir ++ [name]) = none) :
      Opening fs (fs.create dir name (.file true [])) (dir ++ [name])

theorem node?_made {dir : Location} {name : FileName} (hd : fs.isDirectory dir = true)
    (hv : fs.node? (dir ++ [name]) = none) :
    (fs.create dir name (.file true [])).node? (dir ++ [name]) = some (.file true []) := by
  rw [node?_create hd hv, if_pos rfl]

theorem opening_of_openForWriting (h : fs.openForWriting cwd p = .ok (fs', loc)) :
    fs.Opening fs' loc ∧ fs'.locate cwd p = .ok loc := by
  unfold openForWriting at h
  split at h
  · cases h
  · next dir name hr =>
    cases h
    obtain ⟨hd, hv⟩ := vacant_of_followLinks (followLinks_of_resolve hr).2.2.2
    have hl : (fs.create dir name (.file true [])).locate cwd p = .ok (dir ++ [name]) :=
      locate_of_resolve_write hr (extends_create fs dir name (.file true [])).keeps fun d n e => by
        cases e
        exact ⟨_, node?_made hd hv, by simp⟩
    exact ⟨.made hd hv, hl⟩
  · next loc' hr =>
    have hl : fs.locate cwd p = .ok loc' := locate_of_resolve_write hr (.refl fs) fun _ _ e => by cases e
    obtain ⟨node, hn, hlink⟩ := isSolid_of_locate hl
    rw [hn] at h
    cases node with
    | directory listable => cases h
    | file openable content =>
      cases openable with
      | false => cases h
      | true => cases h; exact ⟨.found hn (Or.inl ⟨content, rfl⟩), hl⟩
    | link path => exact absurd rfl (hlink path)
    | pipe => cases h; exact ⟨.found hn (Or.inr (Or.inl rfl)), hl⟩
    | device => cases h; exact ⟨.found hn (Or.inr (Or.inr rfl)), hl⟩

theorem node?_of_openForWriting (hp : fs.IsPlain cwd p) (h : fs.openForWriting cwd p = .ok (fs', loc)) :
    fs'.locate cwd p = .ok loc ∧ fs'.node? loc = some (.file true (fs.bytesAt cwd p)) := by
  obtain ⟨ho, hl⟩ := opening_of_openForWriting h
  refine ⟨hl, ?_⟩
  cases ho with
  | found hn hw =>
    have hs := stat_of_locate hl hn
    rcases hw with ⟨content, rfl⟩ | rfl | rfl
    · rw [hn, bytesAt_of_stat hs]
    · exact absurd rfl (hp _ hs).1
    · exact absurd rfl (hp _ hs).2
  | @made dir name hd hv =>
    -- a path that led to an entry would lead to it still, and not to the new one
    have hm : ∀ node, fs.stat cwd p ≠ .ok node := by
      intro node hs
      obtain ⟨loc', hloc, hnode⟩ := exists_locate_of_stat hs
      have hloc' := (extends_create fs dir name (.file true [])).keeps.locate hloc
      rw [hl] at hloc'
      cases hloc'
      rw [hv] at hnode
      cases hnode
    rw [bytesAt_of_missing hm, node?_made hd hv]

/-! ## Appending -/

theorem stat_setContent {openable : Bool} {old : Bytes} (hl : fs.locate cwd p = .ok loc)
    (hn : fs.node? loc = some (.file openable old)) (content : Bytes) :
    (fs.setContent loc content).stat cwd p = .ok (.file openable content) := by
  have hl' := (keeps_setContent fs loc content).locate hl
  exact stat_of_locate hl' (by rw [node?_setContent hn, if_pos rfl])

theorem contentAt_of_node? {openable : Bool} {content : Bytes}
    (hn : fs.node? loc = some (.file openable content)) : fs.contentAt loc = content := by
  rw [contentAt, hn]; rfl

theorem append_ok {t : Text} (hp : fs.IsPlain cwd p) (h : fs.append cwd p t = (fs', .ok ())) :
    fs'.IsPlain cwd p ∧ t.isEncodable = true ∧
      fs'.bytesAt cwd p = fs.bytesAt cwd p ++ Utf8.encodeAll t := by
  unfold append at h
  split at h
  · cases h
  next fs₁ loc ho =>
  obtain ⟨hl, hn⟩ := node?_of_openForWriting hp ho
  by_cases ht : t.isEncodable = true
  · rw [show Utf8.encode t = .ok (Utf8.encodeAll t) from if_pos ht] at h
    cases h
    rw [contentAt_of_node? hn]
    have hs := stat_setContent hl hn (fs.bytesAt cwd p ++ Utf8.encodeAll t)
    exact ⟨isPlain_of_stat hs, ht, bytesAt_of_stat hs⟩
  · simp [Utf8.encode, ht] at h

theorem append_error {t : Text} {e : Failure} (hp : fs.IsPlain cwd p) (h : fs.append cwd p t = (fs', .error e)) :
    fs'.IsPlain cwd p ∧ fs'.bytesAt cwd p = fs.bytesAt cwd p := by
  unfold append at h
  split at h
  · cases h
    exact ⟨hp, rfl⟩
  next fs₁ loc ho =>
  -- the file may have been made before the text was refused
  obtain ⟨hl, hn⟩ := node?_of_openForWriting hp ho
  have hs := stat_of_locate hl hn
  split at h
  · cases h
    exact ⟨isPlain_of_stat hs, bytesAt_of_stat hs⟩
  · cases h

end ExtensionAudit.FileSystem
