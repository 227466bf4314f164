import Mathlib
import ExtensionAudit.Proofs.Walk.Root
import ExtensionAudit.Proofs.Writing

/-!
# Directories while files are written

Writing a file, also one that has to be made, changes no directory and no link. So a directory can be listed after it
exactly if it could be listed before, and real paths are what they were.

* `FileSystem.SameBranches`: file systems that differ in their files alone;
* `FileSystem.sameBranches_append`: an append changes nothing else;
* `FileSystem.SameBranches.realPath_eq`: real paths;
* `FileSystem.canList`, **`FileSystem.SameBranches.canList_eq`**: the directories that can be listed.
-/

namespace ExtensionAudit.FileSystem

variable {fs fs' : FileSystem} {cwd loc : Location} {p : Path}

/-! ## Writing -/

/-- The two file systems differ in their files alone: those may be missing, and they may hold something else. -/
def SameBranches (fs fs' : FileSystem) : Prop :=
  ∀ loc node, node.isFile = false → (fs.node? loc = some node ↔ fs'.node? loc = some node)

theorem SameBranches.refl (fs : FileSystem) : fs.SameBranches fs := fun _ _ _ => Iff.rfl

theorem SameBranches.symm (h : fs.SameBranches fs') : fs'.SameBranches fs :=
  fun loc node hf => (h loc node hf).symm

theorem SameBranches.trans {fs'' : FileSystem} (h : fs.SameBranches fs') (h' : fs'.SameBranches fs'') :
    fs.SameBranches fs'' :=
  fun loc node hf => (h loc node hf).trans (h' loc node hf)

theorem sameBranches_setContent (fs : FileSystem) (loc : Location) (content : Bytes) :
    fs.SameBranches (fs.setContent loc content) := by
  intro loc' node hf
  cases hn : fs.node? loc with
  | none => simp only [setContent, hn]
  | some old =>
    cases old with
    | file openable bytes =>
      rw [node?_setContent hn]
      split
      · next he =>
        -- at the location itself there is a file on either side
        subst he
        rw [hn]
        constructor <;> (intro h; cases h; cases hf)
      · exact Iff.rfl
    | _ => simp only [setContent, hn]

theorem Opening.sameBranches (h : fs.Opening fs' loc) : fs.SameBranches fs' := by
  cases h with
  | found => exact .refl fs
  | @made dir name hd hv =>
    intro loc' node hf
    rw [node?_create hd hv]
    split
    · next he =>
      subst he
      rw [hv]
      constructor
      · intro h
        cases h
      · intro h
        cases h
        cases hf
    · exact Iff.rfl

theorem sameBranches_append (fs : FileSystem) (cwd : Location) (p : Path) (t : Text) :
    fs.SameBranches (fs.append cwd p t).1 := by
  unfold append
  split
  · exact .refl fs
  next fs₁ loc ho =>
  obtain ⟨hopening, -⟩ := opening_of_openForWriting ho
  split
  · exact hopening.sameBranches
  · exact hopening.sameBranches.trans (sameBranches_setContent fs₁ loc _)

theorem Appended.sameBranches (h : Appended cwd p fs fs') : fs.SameBranches fs' := by
  induction h with
  | refl => exact .refl fs
  | append _ t ih => exact ih.trans (sameBranches_append _ cwd p t)

/-! ## Directories -/

theorem SameBranches.isDirectory {loc : Location} (h : fs.SameBranches fs') (hd : fs.isDirectory loc = true) :
    fs'.isDirectory loc = true := by
  obtain ⟨b, hb⟩ := isDirectory_iff.mp hd
  exact isDirectory_iff.mpr ⟨b, (h loc (.directory b) rfl).mp hb⟩

theorem SameBranches.isPassable {loc : Location} (h : fs.SameBranches fs') (hd : fs.isPassable loc = true) :
    fs'.isPassable loc = true := by
  obtain ⟨access, hn, hne⟩ := isPassable_iff.mp hd
  exact isPassable_iff.mpr ⟨access, (h loc (.directory access) rfl).mp hn, hne⟩

theorem Leads.isDirectory_start {k : ℕ} {target : Location} {steps : List Step} {slashed : Bool}
    (h : fs.Leads k loc steps slashed target) (hd : fs.isDirectory target = true) : fs.isDirectory loc = true := by
  by_cases hs : steps = []
  · subst hs
    cases h
    exact hd
  · exact isDirectory_of_isPassable (h.isPassable_of_ne_nil hs)

/-- **Steps to a directory go through no file**, so they lead there whatever the files are. -/
theorem Leads.of_sameBranches {k : ℕ} {target : Location} {steps : List Step} {slashed : Bool}
    (hs : fs.SameBranches fs') (h : fs.Leads k loc steps slashed target) (hd : fs.isDirectory target = true) :
    fs'.Leads k loc steps slashed target := by
  induction h with
  | here h => exact .here fun e => hs.isDirectory (h e)
  | stay h _ ih => exact .stay (hs.isPassable h) (ih hd)
  | up h _ ih => exact .up (hs.isPassable h) (ih hd)
  | down hpass _ _ h ih =>
    obtain ⟨b, hb⟩ := isDirectory_iff.mp (h.isDirectory_start hd)
    exact .down (hs.isPassable hpass) ((hs _ (.directory b) rfl).mp hb) (by simp) (ih hd)
  | link hpass hn hp _ ih => exact .link (hs.isPassable hpass) ((hs _ _ rfl).mp hn) hp (ih hd)

theorem SameBranches.locate (hs : fs.SameBranches fs') {target : Location} (h : fs.locate cwd p = .ok target)
    (hd : fs.isDirectory target = true) : fs'.locate cwd p = .ok target := by
  obtain ⟨hshort, k, hk, hp⟩ := locate_eq_ok_iff.mp h
  exact locate_eq_ok_iff.mpr ⟨hshort, k, hk, hp.nul_notMem, hp.ne_nil, hp.leads.of_sameBranches hs hd⟩

/-! ## Real paths -/

section Name

variable {jump jump' : Location → List Step → Bool → Except SystemError Place} {steps : List Step} {slashed : Bool}
  {found : Location} {target : Path}

theorem SameBranches.follow_name {loc : Location} (hs : fs.SameBranches fs') (hl : fs.node? found = some (.link target))
    (hjump : ∀ loc steps slashed, jump loc steps slashed = .ok (.entry found) →
      jump' loc steps slashed = .ok (.entry found))
    (h : fs.follow .name jump loc steps slashed = .ok (.entry found)) :
    fs'.follow .name jump' loc steps slashed = .ok (.entry found) := by
  induction steps generalizing loc with
  | nil =>
    rw [follow] at h ⊢
    split at h <;> cases h
    next hslashed =>
    have hd : fs.isDirectory found = false := by rw [FileSystem.isDirectory, hl]; rfl
    cases slashed with
    | false => rfl
    | true => rw [hd] at hslashed; exact absurd rfl hslashed
  | cons step rest ih =>
    by_cases hd : fs.isPassable loc = true
    case neg =>
      rw [follow_of_not_isPassable hd] at h
      cases h
    have hd' := hs.isPassable hd
    cases step with
    | stay =>
      rw [follow_stay hd] at h
      rw [follow_stay hd']
      exact ih h
    | up =>
      rw [follow_up hd] at h
      rw [follow_up hd']
      exact ih h
    | down t =>
      refine (nameStep_iff hd').mpr ?_
      cases (nameStep_iff hd).mp h with
      | named hw hn hname => exact .named hw ((hs _ _ rfl).mp hn) hname
      | link hw hn hname hp h => exact .link hw ((hs _ _ rfl).mp hn) hname hp (hjump _ _ _ h)
      | @down name node _ hw hn hlink h =>
        cases node with
        | link path => exact absurd rfl (hlink path)
        | file openable content =>
          -- nothing lies below a file, and it is no link
          cases rest with
          | nil =>
            rw [follow] at h
            split at h <;> cases h
            cases hn.symm.trans hl
          | cons step rest =>
            have hfile : fs.isPassable (loc ++ [name]) = false := by rw [FileSystem.isPassable, hn]; rfl
            rw [follow_of_not_isPassable (by simp [hfile])] at h
            cases h
        | _ => exact .down hw ((hs _ _ rfl).mp hn) hlink (ih h)

theorem SameBranches.followLinks_name (hs : fs.SameBranches fs') (hl : fs.node? found = some (.link target))
    {links : ℕ} (h : fs.followLinks .name links loc steps slashed = .ok (.entry found)) :
    fs'.followLinks .name links loc steps slashed = .ok (.entry found) := by
  induction links generalizing loc steps slashed with
  | zero =>
    rw [followLinks_eq] at h ⊢
    exact hs.follow_name hl (fun _ _ _ h => by cases h) h
  | succ links ih =>
    rw [followLinks_eq] at h ⊢
    exact hs.follow_name hl (fun _ _ _ h => ih h) h

end Name

theorem SameBranches.readLink?_eq_some (hs : fs.SameBranches fs') {target : Path} (h : fs.readLink? p = some target) :
    fs'.readLink? p = some target := by
  unfold readLink? at h
  split at h
  · next found hr =>
    split at h <;> cases h
    next hl =>
    obtain ⟨hshort, hz, hp, hf⟩ := followLinks_of_resolve hr
    rw [readLink?, resolve_eq hz hp hshort, hs.followLinks_name hl hf]
    simp only [(hs found _ rfl).mp hl]
  · cases h

theorem SameBranches.readLink?_eq (hs : fs.SameBranches fs') : fs'.readLink? p = fs.readLink? p := by
  ext target
  exact ⟨hs.symm.readLink?_eq_some, hs.readLink?_eq_some⟩

theorem SameBranches.resolveLinks_eq (hs : fs.SameBranches fs') (links : ℕ) :
    fs'.resolveLinks links = fs.resolveLinks links := by
  have hnames : ∀ jump names steps, fs'.resolveNames jump names steps = fs.resolveNames jump names steps := by
    intro jump names steps
    induction steps generalizing names with
    | nil => rfl
    | cons step rest ih => cases step <;> simp only [resolveNames, ih, hs.readLink?_eq]
  induction links with
  | zero =>
    funext names steps
    exact hnames _ names steps
  | succ links ih =>
    funext names steps
    rw [resolveLinks, resolveLinks, ih]
    exact hnames _ names steps

/-- **Real paths do not depend on files.** -/
theorem SameBranches.realPath_eq (hs : fs.SameBranches fs') (p : Path) : fs'.realPath p = fs.realPath p := by
  rw [realPath, realPath, hs.resolveLinks_eq]

/-! ## Listing -/

/-- The directory at the end of a path can be listed. -/
def canList (fs : FileSystem) (cwd : Location) (p : Path) : Bool := (fs.list cwd p).toOption.isSome

theorem canList_iff : fs.canList cwd p = true ↔
    ∃ loc, fs.locate cwd p = .ok loc ∧ fs.node? loc = some (.directory .listing) := by
  rw [canList]
  constructor
  · intro h
    refine locate_of_list ?_
    cases hl : fs.list cwd p with
    | error e => rw [hl] at h; cases h
    | ok names => rfl
  · rintro ⟨loc, hl, hn⟩
    rw [list_of_locate hl hn]
    rfl

/-- **A directory can be listed exactly if it could be**, whatever the files are. -/
theorem SameBranches.canList_eq (h : fs.SameBranches fs') : fs'.canList cwd p = fs.canList cwd p := by
  have key : ∀ {fs fs' : FileSystem}, fs.SameBranches fs' → fs.canList cwd p = true → fs'.canList cwd p = true := by
    intro fs fs' h hc
    obtain ⟨loc, hl, hn⟩ := canList_iff.mp hc
    exact canList_iff.mpr ⟨loc, h.locate hl (isDirectory_iff.mpr ⟨.listing, hn⟩),
      (h loc (.directory .listing) rfl).mp hn⟩
  rw [Bool.eq_iff_iff]
  exact ⟨key h.symm, key h⟩

end ExtensionAudit.FileSystem
