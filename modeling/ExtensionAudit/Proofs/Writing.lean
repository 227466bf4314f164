import Mathlib
import ExtensionAudit.AuditLog
import ExtensionAudit.Proofs.Append

/-!
# Writing files

A file that could be opened for writing can be opened again, whatever was written to it. Writing changes the content
of one file, and it moves no path.

* `FileSystem.CanOpen`, **`FileSystem.canOpen_append`**: files that can be opened go on to be;
* `FileSystem.SameShape`, `FileSystem.SameShape.locate_iff`: file systems that differ in what files hold;
* `FileSystem.Appended`: files that change by appends to one of them;
* `FileSystem.overwrite_ok`, **`FileSystem.stat_overwrite_of_ne`**: a file that is overwritten, and all others;
* **`AuditLog.node?_reset`**: what a new log holds;
* `AuditLog.record_snd_of_canOpen`: when a block is written.
-/

namespace ExtensionAudit

namespace FileSystem

variable {fs fs' : FileSystem} {cwd loc : Location} {p q : Path} {node : Node}

/-! ## Opening once more -/

/-- The file at the end of a path can be opened for writing, be it there or not. -/
def CanOpen (fs : FileSystem) (cwd : Location) (p : Path) : Prop :=
  ∃ fs' loc, fs.openForWriting cwd p = .ok (fs', loc)

theorem IsWritable.isDirectory (h : IsWritable node) : node.isDirectory = false := by
  rcases h with ⟨content, rfl⟩ | rfl | rfl <;> rfl

theorem canOpen_of_locate (h : fs.locate cwd p = .ok loc) (hn : fs.node? loc = some node)
    (hw : IsWritable node) : fs.CanOpen cwd p := by
  have hd : fs.isDirectory loc = false := by
    rw [isDirectory, hn]
    exact hw.isDirectory
  obtain ⟨hs, k, hk, hp⟩ := locate_eq_ok_iff.mp h
  have hr : fs.resolve .write cwd p = .ok (.entry loc) := by
    rw [resolve_eq hp.nul_notMem hp.ne_nil hs, followLinks_of_leads (by simp) hp.leads fun _ => hd, if_pos hk]
  refine ⟨fs, loc, ?_⟩
  rw [openForWriting, hr]
  rcases hw with ⟨content, rfl⟩ | rfl | rfl <;> simp only [hn]

theorem Opening.exists_node (h : fs.Opening fs' loc) : ∃ node, fs'.node? loc = some node ∧ IsWritable node := by
  cases h with
  | found hn hw => exact ⟨_, hn, hw⟩
  | made hd hv => exact ⟨_, node?_made hd hv, Or.inl ⟨[], rfl⟩⟩

theorem Opening.extends (h : fs.Opening fs' loc) : fs.Extends fs' := by
  cases h with
  | found => exact .refl fs
  | made hd hv => exact extends_create fs _ _ _

theorem Opening.node?_of_ne (h : fs.Opening fs' loc) {loc' : Location} (hne : loc' ≠ loc) :
    fs'.node? loc' = fs.node? loc' := by
  cases h with
  | found => rfl
  | made hd hv => rw [node?_create hd hv, if_neg (Ne.symm hne)]

theorem node?_setContent_of_ne {loc' : Location} (h : loc' ≠ loc) (content : Bytes) :
    (fs.setContent loc content).node? loc' = fs.node? loc' := by
  cases hf : fs.node? loc with
  | none => simp only [setContent, hf]
  | some old =>
    cases old with
    | file openable bytes => rw [node?_setContent hf, if_neg (Ne.symm h)]
    | _ => simp only [setContent, hf]

theorem exists_node?_setContent (hn : fs.node? loc = some node) (hw : IsWritable node) (content : Bytes) :
    ∃ node', (fs.setContent loc content).node? loc = some node' ∧ IsWritable node' := by
  rcases hw with ⟨old, rfl⟩ | rfl | rfl
  · exact ⟨_, by rw [node?_setContent hn, if_pos rfl], Or.inl ⟨content, rfl⟩⟩
  · exact ⟨_, by simp only [setContent, hn], Or.inr (Or.inl rfl)⟩
  · exact ⟨_, by simp only [setContent, hn], Or.inr (Or.inr rfl)⟩

/-- **A file that can be opened can be opened again** after an append, also after one that fails. -/
theorem canOpen_append (h : fs.CanOpen cwd p) (t : Text) : (fs.append cwd p t).1.CanOpen cwd p := by
  obtain ⟨fs₁, loc, ho⟩ := h
  obtain ⟨hopening, hl⟩ := opening_of_openForWriting ho
  obtain ⟨node, hn, hw⟩ := hopening.exists_node
  unfold append
  rw [ho]
  cases Utf8.encode t with
  | error run => exact canOpen_of_locate hl hn hw
  | ok bytes =>
    obtain ⟨node', hn', hw'⟩ := exists_node?_setContent hn hw (fs₁.contentAt loc ++ bytes)
    exact canOpen_of_locate ((keeps_setContent fs₁ loc _).locate hl) hn' hw'

theorem append_snd_of_canOpen (h : fs.CanOpen cwd p) (t : Text) : (fs.append cwd p t).2 =
    if t.isEncodable then .ok () else .error (.unencodable (Utf8.firstSurrogates t)) := by
  obtain ⟨fs₁, loc, ho⟩ := h
  rw [append, ho]
  cases ht : t.isEncodable <;> simp [Utf8.encode, ht]

/-! ## What writing leaves alone -/

/-- The two file systems have the same entries; only what files hold may differ. -/
structure SameShape (fs fs' : FileSystem) : Prop where
  keeps : fs.Keeps fs'
  kept : fs'.Keeps fs

theorem SameShape.refl (fs : FileSystem) : fs.SameShape fs := ⟨.refl fs, .refl fs⟩

theorem Keeps.trans {fs'' : FileSystem} (h : fs.Keeps fs') (h' : fs'.Keeps fs'') : fs.Keeps fs'' := by
  intro loc node hn
  obtain ⟨node', hn', hs⟩ := h loc node hn
  obtain ⟨node'', hn'', hs'⟩ := h' loc node' hn'
  exact ⟨node'', hn'', hs'.trans hs⟩

theorem SameShape.trans {fs'' : FileSystem} (h : fs.SameShape fs') (h' : fs'.SameShape fs'') : fs.SameShape fs'' :=
  ⟨h.keeps.trans h'.keeps, h'.kept.trans h.kept⟩

theorem SameShape.locate_iff (h : fs.SameShape fs') :
    fs.locate cwd p = .ok loc ↔ fs'.locate cwd p = .ok loc :=
  ⟨h.keeps.locate, h.kept.locate⟩

theorem sameShape_setContent (fs : FileSystem) (loc : Location) (content : Bytes) :
    fs.SameShape (fs.setContent loc content) := by
  refine ⟨keeps_setContent fs loc content, fun loc' node hn => ?_⟩
  by_cases he : loc' = loc
  · subst he
    cases hf : fs.node? loc' with
    | none =>
      simp only [setContent, hf] at hn
      cases hn
    | some old =>
      cases old with
      | file openable bytes =>
        rw [node?_setContent hf, if_pos rfl] at hn
        cases hn
        exact ⟨_, rfl, rfl⟩
      | _ =>
        simp only [setContent, hf] at hn
        cases hn
        exact ⟨_, rfl, rfl⟩
  · rw [node?_setContent_of_ne he] at hn
    exact ⟨node, hn, rfl⟩

theorem sameShape_append (hl : fs.locate cwd p = .ok loc) (t : Text) : fs.SameShape (fs.append cwd p t).1 := by
  unfold append
  split
  · exact .refl fs
  next fs₁ loc' ho =>
  obtain ⟨hopening, hl'⟩ := opening_of_openForWriting ho
  have hfs : fs₁ = fs := by
    cases hopening with
    | found => rfl
    | @made dir name hd hv =>
      have hloc := (extends_create fs dir name (.file true [])).keeps.locate hl
      rw [hl'] at hloc
      cases hloc
      obtain ⟨node, hn, -⟩ := isSolid_of_locate hl
      rw [hv] at hn
      cases hn
  rw [hfs]
  split
  · exact .refl fs
  · exact sameShape_setContent fs loc' _

/-- **Files that change by appends to one of them.** -/
inductive Appended (cwd : Location) (p : Path) (fs : FileSystem) : FileSystem → Prop where
  | refl : Appended cwd p fs fs
  | append {fs' : FileSystem} (h : Appended cwd p fs fs') (t : Text) : Appended cwd p fs (fs'.append cwd p t).1

theorem Appended.trans {fs'' : FileSystem} (h : Appended cwd p fs fs') (h' : Appended cwd p fs' fs'') :
    Appended cwd p fs fs'' := by
  induction h' with
  | refl => exact h
  | append _ t ih => exact ih.append t

theorem Appended.canOpen (h : Appended cwd p fs fs') (ho : fs.CanOpen cwd p) : fs'.CanOpen cwd p := by
  induction h with
  | refl => exact ho
  | append _ t ih => exact canOpen_append ih t

theorem Appended.sameShape (h : Appended cwd p fs fs') (hl : fs.locate cwd p = .ok loc) : fs.SameShape fs' := by
  induction h with
  | refl => exact .refl fs
  | append _ t ih => exact ih.trans (sameShape_append (ih.keeps.locate hl) t)

/-! ## Overwriting -/

theorem overwrite_ok {bytes : Bytes} (hp : fs'.IsPlain cwd p) (h : fs.overwrite cwd p bytes = (fs', .ok ())) :
    ∃ loc, fs'.locate cwd p = .ok loc ∧ fs'.node? loc = some (.file true bytes) := by
  unfold overwrite at h
  split at h
  · cases h
  next fs₁ loc ho =>
  cases h
  obtain ⟨hopening, hl⟩ := opening_of_openForWriting ho
  obtain ⟨node, hn, hw⟩ := hopening.exists_node
  have hl' := (keeps_setContent fs₁ loc bytes).locate hl
  rcases hw with ⟨content, rfl⟩ | rfl | rfl
  · exact ⟨loc, hl', by rw [node?_setContent hn, if_pos rfl]⟩
  · exact absurd rfl (hp _ (stat_of_locate hl' (by simp only [setContent, hn]))).1
  · exact absurd rfl (hp _ (stat_of_locate hl' (by simp only [setContent, hn]))).2

theorem overwrite_of_canOpen (h : fs.CanOpen cwd p) (bytes : Bytes) :
    ∃ fs', fs.overwrite cwd p bytes = (fs', .ok ()) ∧ (fs.IsPlain cwd p → fs'.bytesAt cwd p = bytes) := by
  obtain ⟨fs₁, loc, ho⟩ := h
  refine ⟨fs₁.setContent loc bytes, by rw [overwrite, ho], fun hp => ?_⟩
  obtain ⟨hl, hn⟩ := node?_of_openForWriting hp ho
  exact bytesAt_of_stat (stat_setContent hl hn bytes)

/-- **Overwriting one file leaves all others alone.** -/
theorem stat_overwrite_of_ne {bytes : Bytes} (hl : fs.locate cwd p = .ok loc) (hq : fs.locate cwd q ≠ .ok loc) :
    (fs.overwrite cwd q bytes).1.stat cwd p = fs.stat cwd p := by
  obtain ⟨node, hn, -⟩ := isSolid_of_locate hl
  unfold overwrite
  split
  · rfl
  next fs₁ loc' ho =>
  obtain ⟨hopening, hl'⟩ := opening_of_openForWriting ho
  have hkept : fs.Extends fs₁ ∧ loc ≠ loc' := by
    cases hopening with
    | found => exact ⟨.refl fs, fun e => hq (e ▸ hl')⟩
    | made hd hv => exact ⟨extends_create _ _ _ _, fun e => by rw [e, hv] at hn; cases hn⟩
  have hloc := (keeps_setContent fs₁ loc' bytes).locate (hkept.1.keeps.locate hl)
  rw [stat_of_locate hl hn]
  exact stat_of_locate hloc (by rw [node?_setContent_of_ne hkept.2]; exact hkept.1 _ _ hn)

end FileSystem

/-! ## A new log -/

namespace AuditLog

variable {w w' : World} {log : Path}

/-- **A new log holds the heading.** -/
theorem node?_reset (h : reset w log = (w', .ok ())) (hp : w'.files.IsPlain w'.cwd log) :
    ∃ loc, w'.files.locate w'.cwd log = .ok loc ∧
      w'.files.node? loc = some (.file true (Utf8.encodeAll Report.header)) := by
  unfold reset at h
  split at h
  · cases h
  next files hm =>
  split at h
  · cases h
  next files' ho =>
  cases h
  exact FileSystem.overwrite_ok hp ho

theorem record_snd_of_canOpen (h : w.files.CanOpen w.cwd log) (m : Metadata) (r : Report) :
    (record w log m r).2 = if (r.block m).isEncodable then .ok (r.block m)
      else .error (.unencodable (Utf8.firstSurrogates (r.block m))) := by
  have happend := FileSystem.append_snd_of_canOpen h (r.block m)
  rcases ha : w.files.append w.cwd log (r.block m) with ⟨files, result⟩
  rw [ha] at happend
  simp only [record, append, ha]
  by_cases he : (r.block m).isEncodable = true
  · rw [if_pos he] at happend ⊢
    obtain rfl : result = .ok () := happend
    rfl
  · rw [if_neg he] at happend ⊢
    obtain rfl : result = .error (.unencodable (Utf8.firstSurrogates (r.block m))) := happend
    rfl

theorem exists_record_fst_eq (w : World) (log : Path) (m : Metadata) (r : Report) : ∃ journal,
    (record w log m r).1 = { w with files := (w.files.append w.cwd log (r.block m)).1, journal } := by
  rcases ha : w.files.append w.cwd log (r.block m) with ⟨files, e | u⟩
  · exact ⟨w.journal, by simp only [record, append, ha]⟩
  · exact ⟨_, by simp only [record, append, ha, World.note]; rfl⟩

end AuditLog

end ExtensionAudit
