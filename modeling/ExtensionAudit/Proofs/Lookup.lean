import ExtensionAudit.Proofs.Paths

/-!
# Where paths lead

A path leads to a location if following it, link by link, ends there, however many links that takes. A
lookup finds the same location, or gives up because of the length of the path or of the number of links, and for no
other reason.

* `FileSystem.Leads`: where some steps lead, and through how many links;
* `FileSystem.NameStep`, **`FileSystem.nameStep_iff`**: what a lookup does at a name;
* **`FileSystem.followLinks_of_leads`**, `FileSystem.exists_leads`: what a lookup makes of such steps;
* `Path.IsShort`: a path that is short enough to be looked up;
* `FileSystem.PathLeads`, `FileSystem.locate_of_pathLeads`, `FileSystem.locate_eq_ok_iff`: the same for paths;
* `FileSystem.Arrives`, `FileSystem.Arrives.join`: where a path leads, however long it is;
* `FileSystem.lookupErrors`, `FileSystem.locate_eq_error`: why a path cannot be looked up;
* `FileSystem.Leads.append`, `FileSystem.Leads.append_iff`, `FileSystem.PathLeads.join`: one path behind another one;
* `FileSystem.Extends`, `FileSystem.Keeps`: new entries and new contents;
* **`FileSystem.Leads.mono`**, `FileSystem.Keeps.locate`: what changes no path that leads somewhere.
-/

namespace ExtensionAudit

/-- The path has so few bytes that it can be looked up. -/
def Path.IsShort (p : Path) : Prop := Utf8.size p < maxPathBytes

instance (p : Path) : Decidable p.IsShort := by unfold Path.IsShort; infer_instance

namespace FileSystem

variable {fs fs' : FileSystem}

theorem isDirectory_of_node? {dir : Location} {name : FileName} {node : Node}
    (h : fs.node? (dir ++ [name]) = some node) : fs.isDirectory dir = true :=
  isDirectory_iff.mpr (fs.parent_isDirectory dir name (by
    rw [show fs.entries.get? (dir ++ [name]) = some node from h]; rfl))

theorem isPassable_of_listing {loc : Location} (h : fs.node? loc = some (.directory .listing)) :
    fs.isPassable loc = true := isPassable_iff.mpr ⟨_, h, by simp⟩

/-! ## New entries and new contents -/

/-- Every entry of the one file system is an entry of the other one too. -/
def Extends (fs fs' : FileSystem) : Prop := ∀ loc node, fs.node? loc = some node → fs'.node? loc = some node

theorem Extends.refl (fs : FileSystem) : fs.Extends fs := fun _ _ h => h

theorem Extends.trans {fs'' : FileSystem} (h : fs.Extends fs') (h' : fs'.Extends fs'') : fs.Extends fs'' :=
  fun loc node hn => h' loc node (h loc node hn)

theorem extends_create (fs : FileSystem) (dir : Location) (name : FileName) (node : Node) :
    fs.Extends (fs.create dir name node) := by
  intro loc old hn
  by_cases h : fs.isDirectory dir = true ∧ fs.node? (dir ++ [name]) = none
  · rw [node?_create h.1 h.2, if_neg, hn]
    rintro rfl
    rw [h.2] at hn
    cases hn
  · rw [create, dif_neg h, hn]

/-- There is an entry at the location, and it is no link. -/
def IsSolid (fs : FileSystem) (loc : Location) : Prop :=
  ∃ node, fs.node? loc = some node ∧ ∀ path, node ≠ .link path

theorem isSolid_of_isDirectory {loc : Location} (h : fs.isDirectory loc = true) : fs.IsSolid loc := by
  obtain ⟨b, hb⟩ := isDirectory_iff.mp h
  exact ⟨_, hb, by simp⟩

/-- What a lookup can tell of an entry: all but the content of a file. -/
def shape : Node → Node
  | .file _ _ => .file true []
  | node => node

/-- Every entry of the one file system is an entry of the other one too, but files may hold something else. -/
def Keeps (fs fs' : FileSystem) : Prop :=
  ∀ loc node, fs.node? loc = some node → ∃ node', fs'.node? loc = some node' ∧ shape node' = shape node

theorem Keeps.refl (fs : FileSystem) : fs.Keeps fs := fun _ node hn => ⟨node, hn, rfl⟩

theorem Extends.keeps (h : fs.Extends fs') : fs.Keeps fs' := fun _ node hn => ⟨node, h _ _ hn, rfl⟩

theorem keeps_setContent (fs : FileSystem) (loc : Location) (content : Bytes) :
    fs.Keeps (fs.setContent loc content) := by
  intro loc' node hn
  cases hf : fs.node? loc with
  | none => exact ⟨node, by simpa only [setContent, hf] using hn, rfl⟩
  | some old =>
    cases old with
    | file openable bytes =>
      rw [node?_setContent hf]
      split
      · next e =>
        rw [← e, hf] at hn
        cases hn
        exact ⟨_, rfl, rfl⟩
      · exact ⟨node, hn, rfl⟩
    | _ => exact ⟨node, by simpa only [setContent, hf] using hn, rfl⟩

theorem Keeps.isDirectory {loc : Location} (h : fs.Keeps fs') (hd : fs.isDirectory loc = true) :
    fs'.isDirectory loc = true := by
  obtain ⟨b, hb⟩ := isDirectory_iff.mp hd
  obtain ⟨node, hn, hs⟩ := h _ _ hb
  cases node with
  | directory c => exact isDirectory_iff.mpr ⟨c, hn⟩
  | _ => cases hs

theorem Keeps.isPassable {loc : Location} (h : fs.Keeps fs') (hd : fs.isPassable loc = true) :
    fs'.isPassable loc = true := by
  obtain ⟨access, hn, hne⟩ := isPassable_iff.mp hd
  obtain ⟨node, hn', hs⟩ := h _ _ hn
  cases node with
  | directory access' => cases hs; exact isPassable_iff.mpr ⟨access, hn', hne⟩
  | _ => cases hs

theorem Keeps.link {loc : Location} {path : Path} (h : fs.Keeps fs') (hl : fs.node? loc = some (.link path)) :
    fs'.node? loc = some (.link path) := by
  obtain ⟨node, hn, hs⟩ := h _ _ hl
  cases node with
  | link path' => cases hs; exact hn
  | _ => cases hs

theorem Keeps.isSolid {loc : Location} (h : fs.Keeps fs') (hs : fs.IsSolid loc) : fs'.IsSolid loc := by
  obtain ⟨node, hn, hl⟩ := hs
  obtain ⟨node', hn', hs⟩ := h _ _ hn
  refine ⟨node', hn', ?_⟩
  rintro path rfl
  cases node with
  | link path' => exact hl _ rfl
  | _ => cases hs

/-! ## Steps -/

/-- **Where some steps lead**, and through how many links. A path with a slash at its end leads to a
directory or nowhere. -/
inductive Leads (fs : FileSystem) : ℕ → Location → List Step → Bool → Location → Prop where
  | here {loc : Location} {slashed : Bool} (hd : slashed = true → fs.isDirectory loc = true) :
      Leads fs 0 loc [] slashed loc
  | stay {k : ℕ} {loc target : Location} {rest : List Step} {slashed : Bool}
      (hd : fs.isPassable loc = true) (h : Leads fs k loc rest slashed target) :
      Leads fs k loc (.stay :: rest) slashed target
  | up {k : ℕ} {loc target : Location} {rest : List Step} {slashed : Bool}
      (hd : fs.isPassable loc = true) (h : Leads fs k loc.dropLast rest slashed target) :
      Leads fs k loc (.up :: rest) slashed target
  | down {k : ℕ} {loc target : Location} {rest : List Step} {slashed : Bool} {name : FileName}
      {node : Node} (hd : fs.isPassable loc = true) (hn : fs.node? (loc ++ [name]) = some node)
      (hl : ∀ path, node ≠ .link path) (h : Leads fs k (loc ++ [name]) rest slashed target) :
      Leads fs k loc (.down name.text :: rest) slashed target
  | link {k : ℕ} {loc target : Location} {rest : List Step} {slashed : Bool} {name : FileName}
      {path : Path} (hd : fs.isPassable loc = true) (hn : fs.node? (loc ++ [name]) = some (.link path))
      (hp : path ≠ []) (h : Leads fs k (if Path.isAbsolute path then [] else loc) ((Route.ofPath path).steps ++ rest)
        (if rest = [] then slashed || (Route.ofPath path).slashed else slashed) target) :
      Leads fs (k + 1) loc (.down name.text :: rest) slashed target

/-- What a lookup does at a link when it may follow so many links in all. -/
def jump (fs : FileSystem) (purpose : Purpose) :
    ℕ → Location → List Step → Bool → Except SystemError Place
  | 0 => fun _ _ _ => .error .tooManyLinks
  | links + 1 => fs.followLinks purpose links

theorem followLinks_eq (purpose : Purpose) (links : ℕ) :
    fs.followLinks purpose links = fs.follow purpose (fs.jump purpose links) := by
  cases links <;> rfl

section Follow

variable {purpose : Purpose} {next : Location → List Step → Bool → Except SystemError Place}
  {loc : Location} {rest : List Step} {slashed : Bool}

theorem follow_nil (h : slashed = true → fs.isDirectory loc = true) :
    fs.follow purpose next loc [] slashed = .ok (.entry loc) := by
  cases slashed with
  | false => simp [follow]
  | true => simp [follow, h rfl]

theorem follow_of_not_isPassable {step : Step} (hd : ¬ fs.isPassable loc = true) :
    fs.follow purpose next loc (step :: rest) slashed =
      .error (if fs.isDirectory loc then .denied else .notDirectory) := by
  cases step <;> rw [follow, if_pos (by simpa using hd)]

theorem follow_stay (hd : fs.isPassable loc = true) :
    fs.follow purpose next loc (.stay :: rest) slashed = fs.follow purpose next loc rest slashed := by
  rw [follow, hd]; simp

theorem follow_up (hd : fs.isPassable loc = true) :
    fs.follow purpose next loc (.up :: rest) slashed =
      fs.follow purpose next loc.dropLast rest slashed := by
  rw [follow, hd]; simp

/-- A directory is asked for where a file is to be written. -/
def WantsDirectory (purpose : Purpose) (rest : List Step) (slashed : Bool) : Prop :=
  purpose = .write ∧ rest = [] ∧ slashed = true

theorem not_wantsDirectory (h : purpose ≠ .write) : ¬ WantsDirectory purpose rest slashed := fun hw => h hw.1

/-- **What a lookup does at a name** in a directory that lets it through. -/
inductive NameStep (fs : FileSystem) (purpose : Purpose)
    (next : Location → List Step → Bool → Except SystemError Place) (loc : Location) (rest : List Step)
    (slashed : Bool) : Text → Except SystemError Place → Prop where
  | unwritable {t : Text} (hw : WantsDirectory purpose rest slashed) :
      NameStep fs purpose next loc rest slashed t (.error .isDirectory)
  | nameless {t : Text} (hw : ¬ WantsDirectory purpose rest slashed) (ht : FileName.ofText? t = none) :
      NameStep fs purpose next loc rest slashed t (.error (nameError t))
  | vacancy {name : FileName} (hw : ¬ WantsDirectory purpose rest slashed)
      (hn : fs.node? (loc ++ [name]) = none) (hrest : rest = []) :
      NameStep fs purpose next loc rest slashed name.text (.ok (.vacancy loc name))
  | missing {name : FileName} (hw : ¬ WantsDirectory purpose rest slashed)
      (hn : fs.node? (loc ++ [name]) = none) (hrest : rest ≠ []) :
      NameStep fs purpose next loc rest slashed name.text (.error .noEntry)
  | named {name : FileName} {path : Path} (hw : ¬ WantsDirectory purpose rest slashed)
      (hn : fs.node? (loc ++ [name]) = some (.link path)) (hname : purpose = .name ∧ rest = []) :
      NameStep fs purpose next loc rest slashed name.text (.ok (.entry (loc ++ [name])))
  | void {name : FileName} (hw : ¬ WantsDirectory purpose rest slashed)
      (hn : fs.node? (loc ++ [name]) = some (.link [])) (hname : ¬ (purpose = .name ∧ rest = [])) :
      NameStep fs purpose next loc rest slashed name.text (.error .noEntry)
  | link {name : FileName} {path : Path} {result : Except SystemError Place}
      (hw : ¬ WantsDirectory purpose rest slashed) (hn : fs.node? (loc ++ [name]) = some (.link path))
      (hname : ¬ (purpose = .name ∧ rest = [])) (hp : path ≠ [])
      (h : next (if Path.isAbsolute path then [] else loc) ((Route.ofPath path).steps ++ rest)
        (if rest = [] then slashed || (Route.ofPath path).slashed else slashed) = result) :
      NameStep fs purpose next loc rest slashed name.text result
  | down {name : FileName} {node : Node} {result : Except SystemError Place}
      (hw : ¬ WantsDirectory purpose rest slashed) (hn : fs.node? (loc ++ [name]) = some node)
      (hl : ∀ path, node ≠ .link path) (h : fs.follow purpose next (loc ++ [name]) rest slashed = result) :
      NameStep fs purpose next loc rest slashed name.text result

theorem nameStep_follow (hd : fs.isPassable loc = true) (t : Text) :
    fs.NameStep purpose next loc rest slashed t (fs.follow purpose next loc (.down t :: rest) slashed) := by
  rw [follow, hd]
  simp only [Bool.not_true, Bool.false_eq_true, if_false]
  split
  · next hw => exact .unwritable hw
  next hw =>
  split
  · next ht => exact .nameless hw ht
  next name ht =>
  obtain rfl := FileName.text_of_ofText? ht
  split
  · next hn =>
    split
    · next hrest => exact .vacancy hw hn hrest
    · next hrest => exact .missing hw hn hrest
  · next path hn =>
    split
    · next hname => exact .named hw hn hname
    next hname =>
    split
    · next hp => exact .void hw (hp ▸ hn) hname
    · next hp => exact .link hw hn hname hp rfl
  · next node hl hn => exact .down hw hn (fun path e => hl path e) rfl

theorem NameStep.follow_eq (hd : fs.isPassable loc = true) {t : Text} {result : Except SystemError Place}
    (h : fs.NameStep purpose next loc rest slashed t result) :
    fs.follow purpose next loc (.down t :: rest) slashed = result := by
  rw [follow, hd]
  simp only [Bool.not_true, Bool.false_eq_true, if_false]
  cases h with
  | unwritable hw => exact if_pos hw
  | nameless hw ht =>
    refine (if_neg hw).trans ?_
    rw [ht]
  | vacancy hw hn hrest =>
    refine (if_neg hw).trans ?_
    simp only [FileName.ofText?_text, hn, if_pos hrest]
  | missing hw hn hrest =>
    refine (if_neg hw).trans ?_
    simp only [FileName.ofText?_text, hn, if_neg hrest]
  | named hw hn hname =>
    refine (if_neg hw).trans ?_
    simp only [FileName.ofText?_text, hn, if_pos hname]
  | void hw hn hname =>
    refine (if_neg hw).trans ?_
    simp only [FileName.ofText?_text, hn, if_neg hname, if_true]
  | link hw hn hname hp h =>
    refine (if_neg hw).trans ?_
    simp only [FileName.ofText?_text, hn, if_neg hname, if_neg hp]
    exact h
  | @down name node _ hw hn hl h =>
    refine (if_neg hw).trans ?_
    simp only [FileName.ofText?_text, hn]
    cases node with
    | link path => exact absurd rfl (hl path)
    | _ => exact h

/-- **A lookup at a name** comes to what one of the steps gives, and to nothing else. -/
theorem nameStep_iff (hd : fs.isPassable loc = true) {t : Text} {result : Except SystemError Place} :
    fs.follow purpose next loc (.down t :: rest) slashed = result ↔
      fs.NameStep purpose next loc rest slashed t result :=
  ⟨fun h => h ▸ nameStep_follow hd t, NameStep.follow_eq hd⟩

theorem follow_down {name : FileName} {node : Node} (hd : fs.isPassable loc = true)
    (hn : fs.node? (loc ++ [name]) = some node) (hl : ∀ path, node ≠ .link path)
    (hw : ¬ WantsDirectory purpose rest slashed) :
    fs.follow purpose next loc (.down name.text :: rest) slashed =
      fs.follow purpose next (loc ++ [name]) rest slashed :=
  (nameStep_iff hd).mpr (.down hw hn hl rfl)

theorem follow_link {name : FileName} {path : Path} (hd : fs.isPassable loc = true)
    (hn : fs.node? (loc ++ [name]) = some (.link path)) (hp : path ≠ []) (hpurpose : purpose ≠ .name)
    (hw : ¬ WantsDirectory purpose rest slashed) :
    fs.follow purpose next loc (.down name.text :: rest) slashed =
      next (if Path.isAbsolute path then [] else loc) ((Route.ofPath path).steps ++ rest)
        (if rest = [] then slashed || (Route.ofPath path).slashed else slashed) :=
  (nameStep_iff hd).mpr (.link hw hn (fun hname => hpurpose hname.1) hp rfl)

end Follow

variable {k links : ℕ} {loc target : Location} {steps : List Step} {slashed : Bool}

theorem Leads.isDirectory_of_slashed (h : fs.Leads k loc steps slashed target) (hs : slashed = true) :
    fs.isDirectory target = true := by
  induction h with
  | here hd => exact hd hs
  | stay _ _ ih => exact ih hs
  | up _ _ ih => exact ih hs
  | down _ _ _ _ ih => exact ih hs
  | link _ _ _ _ ih =>
    refine ih ?_
    split
    · rw [hs, Bool.true_or]
    · exact hs

theorem Leads.of_isDirectory (h : fs.Leads k loc steps slashed target) (hd : fs.isDirectory target = true)
    (slashed' : Bool) : fs.Leads k loc steps slashed' target := by
  induction h generalizing slashed' with
  | here _ => exact .here fun _ => hd
  | stay hloc _ ih => exact .stay hloc (ih hd _)
  | up hloc _ ih => exact .up hloc (ih hd _)
  | down hp hn hl _ ih => exact .down hp hn hl (ih hd _)
  | link hd' hn hp _ ih => exact .link hd' hn hp (ih hd _)

theorem Leads.not_wantsDirectory {purpose : Purpose} {rest : List Step}
    (h : fs.Leads k loc steps slashed target) (hwrite : purpose = .write → fs.isDirectory target = false) :
    ¬ WantsDirectory purpose rest slashed := by
  rintro ⟨hp, -, hs⟩
  have hd := hwrite hp
  rw [h.isDirectory_of_slashed hs] at hd
  cases hd

/-- **What a lookup makes of steps that lead somewhere**: it finds the location, unless it may not follow as
many links as that takes. A directory cannot be looked up for writing. -/
theorem followLinks_of_leads {purpose : Purpose} (hpurpose : purpose ≠ .name)
    (h : fs.Leads k loc steps slashed target) (hwrite : purpose = .write → fs.isDirectory target = false)
    (links : ℕ) :
    fs.followLinks purpose links loc steps slashed =
      if k ≤ links then .ok (.entry target) else .error .tooManyLinks := by
  -- only a link makes the lookup look at the number that is left
  induction h generalizing links with
  | here hd => rw [followLinks_eq, follow_nil hd, if_pos (Nat.zero_le _)]
  | stay hd _ ih => rw [followLinks_eq, follow_stay hd, ← followLinks_eq, ih hwrite]
  | up hd _ ih => rw [followLinks_eq, follow_up hd, ← followLinks_eq, ih hwrite]
  | down hd hn hl h ih =>
    rw [followLinks_eq, follow_down hd hn hl (h.not_wantsDirectory hwrite), ← followLinks_eq, ih hwrite]
  | link hd hn hp h ih =>
    rw [followLinks_eq, follow_link hd hn hp hpurpose ((Leads.link hd hn hp h).not_wantsDirectory hwrite)]
    cases links with
    | zero => exact (if_neg (Nat.not_succ_le_zero _)).symm
    | succ links =>
      show fs.followLinks purpose links _ _ _ = _
      rw [ih hwrite]
      simp only [Nat.add_le_add_iff_right]

/-- The location of a place, be there an entry or not. -/
def placeLocation : Place → Location
  | .entry loc => loc
  | .vacancy dir name => dir ++ [name]

/-- An entry has been put into a place that was vacant. -/
def IsFilled (fs : FileSystem) (place : Place) : Prop :=
  ∀ dir name, place = .vacancy dir name → fs.IsSolid (dir ++ [name])

theorem leads_of_follow {purpose : Purpose} {place : Place} (hpurpose : purpose ≠ .name)
    (hvacancy : ∀ dir name, place = .vacancy dir name → purpose = .write) (hk : fs.Keeps fs')
    (hf : fs'.IsFilled place) {next : Location → List Step → Bool → Except SystemError Place}
    (hnext : ∀ loc steps slashed, next loc steps slashed = .ok place →
      ∃ k, k + 1 ≤ links ∧ fs'.Leads k loc steps slashed (placeLocation place))
    (h : fs.follow purpose next loc steps slashed = .ok place) :
    ∃ k ≤ links, fs'.Leads k loc steps slashed (placeLocation place) := by
  induction steps generalizing loc with
  | nil =>
    rw [follow] at h
    split at h
    · cases h
    · next hs =>
      cases h
      refine ⟨0, Nat.zero_le _, .here fun e => hk.isDirectory ?_⟩
      simpa [e] using hs
  | cons step rest ih =>
    by_cases hd : fs.isPassable loc = true
    case neg =>
      rw [follow_of_not_isPassable hd] at h
      cases h
    have hd' := hk.isPassable hd
    cases step with
    | stay =>
      rw [follow_stay hd] at h
      obtain ⟨k, hk, hl⟩ := ih h
      exact ⟨k, hk, .stay hd' hl⟩
    | up =>
      rw [follow_up hd] at h
      obtain ⟨k, hk, hl⟩ := ih h
      exact ⟨k, hk, .up hd' hl⟩
    | down t =>
      have hfirst : ¬ (purpose = .name ∧ rest = []) := fun hname => hpurpose hname.1
      cases (nameStep_iff hd).mp h with
      | vacancy hw hn hrest =>
        subst hrest
        obtain ⟨node, hn, hl⟩ := hf _ _ rfl
        have hs : slashed ≠ true := fun hs => hw ⟨hvacancy _ _ rfl, rfl, hs⟩
        exact ⟨0, Nat.zero_le _, .down hd' hn hl (.here fun e => absurd e hs)⟩
      | named _ _ hname => exact absurd hname hfirst
      | link _ hn _ hp h =>
        obtain ⟨k, hk', hl⟩ := hnext _ _ _ h
        exact ⟨k + 1, hk', .link hd' (hk.link hn) hp hl⟩
      | down _ hn hl h =>
        obtain ⟨k, hk', h'⟩ := ih h
        obtain ⟨node', hn', hl'⟩ := hk.isSolid ⟨_, hn, hl⟩
        exact ⟨k, hk', .down hd' hn' hl' h'⟩

theorem leads_of_followLinks {purpose : Purpose} {place : Place} (hpurpose : purpose ≠ .name)
    (hvacancy : ∀ dir name, place = .vacancy dir name → purpose = .write) (hk : fs.Keeps fs')
    (hf : fs'.IsFilled place) (h : fs.followLinks purpose links loc steps slashed = .ok place) :
    ∃ k ≤ links, fs'.Leads k loc steps slashed (placeLocation place) := by
  induction links generalizing loc steps slashed with
  | zero =>
    rw [followLinks_eq] at h
    exact leads_of_follow hpurpose hvacancy hk hf (fun _ _ _ h => by cases h) h
  | succ links ih =>
    rw [followLinks_eq] at h
    refine leads_of_follow hpurpose hvacancy hk hf (fun _ _ _ hj => ?_) h
    obtain ⟨k, hk', hl⟩ := ih hj
    exact ⟨k, by omega, hl⟩

theorem exists_leads {purpose : Purpose} (hpurpose : purpose ≠ .name)
    (h : fs.followLinks purpose links loc steps slashed = .ok (.entry target)) :
    ∃ k ≤ links, fs.Leads k loc steps slashed target :=
  leads_of_followLinks hpurpose (fun _ _ e => by cases e) (.refl fs) (fun _ _ e => by cases e) h

theorem vacant_of_follow {purpose : Purpose} {dir : Location} {name : FileName}
    {next : Location → List Step → Bool → Except SystemError Place}
    (hnext : ∀ loc steps slashed, next loc steps slashed = .ok (.vacancy dir name) →
      fs.isDirectory dir = true ∧ fs.node? (dir ++ [name]) = none)
    (h : fs.follow purpose next loc steps slashed = .ok (.vacancy dir name)) :
    fs.isDirectory dir = true ∧ fs.node? (dir ++ [name]) = none := by
  induction steps generalizing loc with
  | nil => rw [follow] at h; split at h <;> cases h
  | cons step rest ih =>
    by_cases hd : fs.isPassable loc = true
    case neg =>
      rw [follow_of_not_isPassable hd] at h
      cases h
    cases step with
    | stay => exact ih (follow_stay hd ▸ h)
    | up => exact ih (follow_up hd ▸ h)
    | down t =>
      cases (nameStep_iff hd).mp h with
      | vacancy _ hn _ => exact ⟨isDirectory_of_isPassable hd, hn⟩
      | link _ _ _ _ h => exact hnext _ _ _ h
      | down _ _ _ h => exact ih h

theorem vacant_of_followLinks {purpose : Purpose} {dir : Location} {name : FileName}
    (h : fs.followLinks purpose links loc steps slashed = .ok (.vacancy dir name)) :
    fs.isDirectory dir = true ∧ fs.node? (dir ++ [name]) = none := by
  induction links generalizing loc steps slashed with
  | zero =>
    rw [followLinks_eq] at h
    exact vacant_of_follow (fun _ _ _ h => by cases h) h
  | succ links ih =>
    rw [followLinks_eq] at h
    exact vacant_of_follow (fun _ _ _ h => ih h) h

theorem Leads.append {k₁ k₂ : ℕ} {mid : Location} {first second : List Step} {slashed₁ slashed₂ : Bool}
    (h₁ : fs.Leads k₁ loc first slashed₁ mid) (h₂ : fs.Leads k₂ mid second slashed₂ target)
    (hs : second ≠ []) : fs.Leads (k₁ + k₂) loc (first ++ second) slashed₂ target := by
  induction h₁ with
  | here _ => rw [Nat.zero_add]; exact h₂
  | stay hd _ ih => exact .stay hd (ih h₂)
  | up hd _ ih => exact .up hd (ih h₂)
  | down hp hn hl _ ih => exact .down hp hn hl (ih h₂)
  | @link k loc _ rest _ _ path hd hn hp _ ih =>
    -- a slash behind the target counts only at the very end, which `second` has moved away
    rw [Nat.succ_add, List.cons_append]
    refine .link hd hn hp ?_
    rw [if_neg (show rest ++ second ≠ [] by simp [hs]), ← List.append_assoc]
    exact ih h₂

theorem Leads.isPassable_of_ne_nil (h : fs.Leads k loc steps slashed target) (hs : steps ≠ []) :
    fs.isPassable loc = true := by
  cases h with
  | here => exact absurd rfl hs
  | stay hd => exact hd
  | up hd => exact hd
  | down hd => exact hd
  | link hd => exact hd

/-- **Steps that lead somewhere** lead there by way of the location to which the first of them lead. -/
theorem Leads.exists_mid {first second : List Step} (h : fs.Leads k loc (first ++ second) slashed target)
    (hs : second ≠ []) :
    ∃ k₁ k₂ mid, (∀ slashed', fs.Leads k₁ loc first slashed' mid) ∧ fs.Leads k₂ mid second slashed target := by
  have hnil : ∀ {k loc steps slashed target}, [] ++ second = steps → fs.Leads k loc steps slashed target →
      ∃ k₁ k₂ mid, (∀ slashed', fs.Leads k₁ loc [] slashed' mid) ∧ fs.Leads k₂ mid second slashed target := by
    rintro k loc _ slashed target rfl h
    exact ⟨0, k, loc, fun _ => .here fun _ => isDirectory_of_isPassable (h.isPassable_of_ne_nil hs), h⟩
  generalize he : first ++ second = steps at h
  -- a link puts the steps of its target in front of the first steps
  induction h generalizing first with
  | here => exact absurd (List.append_eq_nil_iff.mp he).2 hs
  | stay hd h ih =>
    cases first with
    | nil => exact hnil he (.stay hd h)
    | cons step first =>
      rw [List.cons_append, List.cons_eq_cons] at he
      obtain ⟨rfl, rfl⟩ := he
      obtain ⟨k₁, k₂, mid, h₁, h₂⟩ := ih rfl
      exact ⟨k₁, k₂, mid, fun s => .stay hd (h₁ s), h₂⟩
  | up hd h ih =>
    cases first with
    | nil => exact hnil he (.up hd h)
    | cons step first =>
      rw [List.cons_append, List.cons_eq_cons] at he
      obtain ⟨rfl, rfl⟩ := he
      obtain ⟨k₁, k₂, mid, h₁, h₂⟩ := ih rfl
      exact ⟨k₁, k₂, mid, fun s => .up hd (h₁ s), h₂⟩
  | down hd hn hl h ih =>
    cases first with
    | nil => exact hnil he (.down hd hn hl h)
    | cons step first =>
      rw [List.cons_append, List.cons_eq_cons] at he
      obtain ⟨rfl, rfl⟩ := he
      obtain ⟨k₁, k₂, mid, h₁, h₂⟩ := ih rfl
      exact ⟨k₁, k₂, mid, fun s => .down hd hn hl (h₁ s), h₂⟩
  | link hd hn hp h ih =>
    cases first with
    | nil => exact hnil he (.link hd hn hp h)
    | cons step first =>
      rw [List.cons_append, List.cons_eq_cons] at he
      obtain ⟨rfl, rfl⟩ := he
      obtain ⟨k₁, k₂, mid, h₁, h₂⟩ := ih (List.append_assoc ..)
      rw [if_neg (show first ++ second ≠ [] by simp [hs])] at h₂
      exact ⟨k₁ + 1, k₂, mid, fun s => .link hd hn hp (h₁ _), h₂⟩

theorem Leads.unique {k' : ℕ} {target' : Location} (h : fs.Leads k loc steps slashed target)
    (h' : fs.Leads k' loc steps slashed target') : target = target' := by
  have hpurpose : Purpose.examine ≠ .name := by simp
  have hl := followLinks_of_leads hpurpose h (by simp) (max k k')
  rw [followLinks_of_leads hpurpose h' (by simp), if_pos (le_max_left k k'), if_pos (le_max_right k k')] at hl
  cases hl
  rfl

theorem Leads.unique_links {k' : ℕ} {target' : Location} (h : fs.Leads k loc steps slashed target)
    (h' : fs.Leads k' loc steps slashed target') : k = k' := by
  have key : ∀ {k k' target target'}, fs.Leads k loc steps slashed target →
      fs.Leads k' loc steps slashed target' → k' ≤ k := by
    intro k k' target target' h h'
    have hl := followLinks_of_leads (show Purpose.examine ≠ .name by simp) h (by simp) k
    rw [followLinks_of_leads (show Purpose.examine ≠ .name by simp) h' (by simp), if_pos (le_refl k)] at hl
    by_contra hk
    rw [if_neg hk] at hl
    cases hl
  exact le_antisymm (key h' h) (key h h')

theorem Leads.append_iff {first second : List Step} (hs : second ≠ []) :
    fs.Leads k loc (first ++ second) slashed target ↔
      ∃ k₁ k₂ mid, k = k₁ + k₂ ∧ fs.Leads k₁ loc first true mid ∧ fs.Leads k₂ mid second slashed target := by
  constructor
  · intro h
    obtain ⟨k₁, k₂, mid, h₁, h₂⟩ := h.exists_mid hs
    exact ⟨k₁, k₂, mid, h.unique_links ((h₁ true).append h₂ hs), h₁ true, h₂⟩
  · rintro ⟨k₁, k₂, mid, rfl, h₁, h₂⟩
    exact h₁.append h₂ hs

theorem Leads.nul_notMem (h : fs.Leads k loc steps slashed target) {t : Text} (ht : .down t ∈ steps) : nul ∉ t := by
  induction h with
  | here _ => cases ht
  | stay _ _ ih => exact ih ((List.mem_cons.mp ht).resolve_left (by simp))
  | up _ _ ih => exact ih ((List.mem_cons.mp ht).resolve_left (by simp))
  | @down _ _ _ _ _ name _ _ _ _ _ ih =>
    rcases List.mem_cons.mp ht with h | h
    · cases h
      exact name.nul_notMem
    · exact ih h
  | @link _ _ _ _ _ name _ _ _ _ _ ih =>
    rcases List.mem_cons.mp ht with h | h
    · cases h
      exact name.nul_notMem
    · exact ih (List.mem_append_right _ h)

theorem isDirectory_root (fs : FileSystem) : fs.isDirectory [] = true := isDirectory_iff.mpr fs.root_isDirectory

theorem isDirectory_dropLast (h : fs.isDirectory loc = true) : fs.isDirectory loc.dropLast = true := by
  induction loc using List.reverseRecOn with
  | nil => exact h
  | append_singleton dir name _ =>
    rw [List.dropLast_concat]
    obtain ⟨node, hn, -⟩ := isSolid_of_isDirectory h
    exact isDirectory_of_node? hn

theorem isSolid_start {p : Path} (hp : p ≠ []) {loc : Location} (hs : (Route.ofPath p).steps = []) :
    fs.IsSolid (if Path.isAbsolute p then [] else loc) := by
  have ha : Path.isAbsolute p = true := by
    by_contra ha
    exact Route.steps_ne_nil hp (by simpa using ha) hs
  rw [if_pos ha]
  exact isSolid_of_isDirectory fs.isDirectory_root

theorem Leads.isSolid (h : fs.Leads k loc steps slashed target) (hs : steps = [] → fs.IsSolid loc) :
    fs.IsSolid target := by
  induction h with
  | here _ => exact hs rfl
  | stay hd _ ih => exact ih fun _ => isSolid_of_isDirectory (isDirectory_of_isPassable hd)
  | up hd _ ih => exact ih fun _ => isSolid_of_isDirectory (isDirectory_dropLast (isDirectory_of_isPassable hd))
  | down _ hn hl _ ih => exact ih fun _ => ⟨_, hn, hl⟩
  | link _ _ hp _ ih => exact ih fun he => isSolid_start hp (List.append_eq_nil_iff.mp he).1

theorem leads_entry {dir : Location} {name : FileName} {node : Node} (hd : fs.isPassable dir = true)
    (hn : fs.node? (dir ++ [name]) = some node) (hl : ∀ path, node ≠ .link path) :
    fs.Leads 0 dir [.down name.text] false (dir ++ [name]) :=
  .down hd hn hl (.here (by simp))

/-! ## Errors -/

/-- Why a lookup of what is there can fail. -/
def lookupErrors : List SystemError := [.noEntry, .denied, .notDirectory, .nameTooLong, .tooManyLinks]

theorem error_of_follow {e : SystemError} {next : Location → List Step → Bool → Except SystemError Place}
    (hnext : ∀ loc steps slashed, next loc steps slashed = .error e → e ∈ lookupErrors)
    (h : fs.follow .examine next loc steps slashed = .error e) : e ∈ lookupErrors := by
  induction steps generalizing loc with
  | nil =>
    rw [follow] at h
    split at h
    · cases h
      decide
    · cases h
  | cons step rest ih =>
    by_cases hd : fs.isPassable loc = true
    case neg =>
      rw [follow_of_not_isPassable hd] at h
      cases h
      split <;> decide
    cases step with
    | stay => exact ih (follow_stay hd ▸ h)
    | up => exact ih (follow_up hd ▸ h)
    | down t =>
      cases (nameStep_iff hd).mp h with
      | unwritable hw => cases hw.1
      | nameless =>
        unfold nameError
        split <;> decide
      | missing => decide
      | void => decide
      | link _ _ _ _ h => exact hnext _ _ _ h
      | down _ _ _ h => exact ih h

theorem error_of_followLinks {e : SystemError} (h : fs.followLinks .examine links loc steps slashed = .error e) :
    e ∈ lookupErrors := by
  induction links generalizing loc steps slashed with
  | zero =>
    rw [followLinks_eq] at h
    exact error_of_follow (fun _ _ _ h => by cases h; decide) h
  | succ links ih =>
    rw [followLinks_eq] at h
    exact error_of_follow (fun _ _ _ h => ih h) h

/-! ## Paths -/

/-- Where a path leads, and through how many links. -/
structure PathLeads (fs : FileSystem) (cwd : Location) (k : ℕ) (p : Path) (target : Location) : Prop where
  nul_notMem : nul ∉ p
  ne_nil : p ≠ []
  leads : fs.Leads k (if Path.isAbsolute p then [] else cwd) (Route.ofPath p).steps (Route.ofPath p).slashed
    target

variable {cwd : Location} {p : Path}

theorem resolve_eq (hz : nul ∉ p) (hp : p ≠ []) (hs : p.IsShort) (purpose : Purpose) :
    fs.resolve purpose cwd p =
      match fs.followLinks purpose maxLinks (if Path.isAbsolute p then [] else cwd) (Route.ofPath p).steps
        (Route.ofPath p).slashed with
      | .ok place => .ok place
      | .error e => .error (.system e p) := by
  rw [resolve, if_neg hz, if_neg hp, if_neg (not_le_of_gt hs)]
  rfl

theorem resolve_of_not_isShort (hz : nul ∉ p) (hs : ¬ p.IsShort) (purpose : Purpose) :
    fs.resolve purpose cwd p = .error (.system .nameTooLong p) := by
  have hp : p ≠ [] := by
    rintro rfl
    exact hs (by decide)
  rw [resolve, if_neg hz, if_neg hp, if_pos (le_of_not_gt hs)]

theorem followLinks_of_resolve {purpose : Purpose} {place : Place} (h : fs.resolve purpose cwd p = .ok place) :
    p.IsShort ∧ nul ∉ p ∧ p ≠ [] ∧ fs.followLinks purpose maxLinks (if Path.isAbsolute p then [] else cwd)
      (Route.ofPath p).steps (Route.ofPath p).slashed = .ok place := by
  by_cases hz : nul ∈ p
  · simp [resolve, hz] at h
  by_cases hp : p = []
  · simp [resolve, hp] at h
  by_cases hs : p.IsShort
  case neg =>
    rw [resolve_of_not_isShort hz hs] at h
    cases h
  refine ⟨hs, hz, hp, ?_⟩
  rw [resolve_eq hz hp hs] at h
  split at h
  · next place' hf => cases h; exact hf
  · cases h

theorem locate_of_pathLeads (h : fs.PathLeads cwd k p target) (hs : p.IsShort) :
    fs.locate cwd p = if k ≤ maxLinks then .ok target else .error (.system .tooManyLinks p) := by
  rw [locate, resolve_eq h.nul_notMem h.ne_nil hs, followLinks_of_leads (by simp) h.leads (by simp)]
  by_cases hk : k ≤ maxLinks
  · simp [hk]
  · simp [hk]

theorem locate_of_not_isShort (hz : nul ∉ p) (hs : ¬ p.IsShort) :
    fs.locate cwd p = .error (.system .nameTooLong p) := by
  rw [locate, resolve_of_not_isShort hz hs]

/-- **A lookup finds the location to which a path leads**, if the path is short, through at most forty links. -/
theorem locate_eq_ok_iff :
    fs.locate cwd p = .ok target ↔ p.IsShort ∧ ∃ k ≤ maxLinks, fs.PathLeads cwd k p target := by
  constructor
  · intro h
    unfold locate at h
    split at h
    · next loc hr =>
      cases h
      obtain ⟨hs, hz, hp, hf⟩ := followLinks_of_resolve hr
      obtain ⟨k, hk, hl⟩ := exists_leads (by simp) hf
      exact ⟨hs, k, hk, hz, hp, hl⟩
    · cases h
    · cases h
  · rintro ⟨hs, k, hk, h⟩
    rw [locate_of_pathLeads h hs, if_pos hk]

theorem isShort_of_locate (h : fs.locate cwd p = .ok target) : p.IsShort := (locate_eq_ok_iff.mp h).1

/-- **Why a path cannot be looked up.** -/
theorem locate_eq_error {e : Failure} (h : fs.locate cwd p = .error e) :
    (nul ∈ p ∧ e = .nulInPath) ∨ ∃ error ∈ lookupErrors, e = .system error p := by
  by_cases hz : nul ∈ p
  · simp only [locate, resolve, if_pos hz] at h
    exact Or.inl ⟨hz, by cases h; rfl⟩
  refine Or.inr ?_
  by_cases hp : p = []
  · simp only [locate, resolve, if_neg hz, if_pos hp] at h
    exact ⟨.noEntry, by decide, by cases h; rfl⟩
  by_cases hs : p.IsShort
  case neg =>
    rw [locate_of_not_isShort hz hs] at h
    exact ⟨.nameTooLong, by decide, by cases h; rfl⟩
  rw [locate, resolve_eq hz hp hs] at h
  split at h
  · cases h
  · exact ⟨.noEntry, by decide, by cases h; rfl⟩
  next error hr =>
  cases h
  split at hr
  · cases hr
  next error hf =>
  cases hr
  exact ⟨error, error_of_followLinks hf, rfl⟩

theorem locate_of_resolve_write {place : Place} (h : fs.resolve .write cwd p = .ok place) (hk : fs.Keeps fs')
    (hf : fs'.IsFilled place) : fs'.locate cwd p = .ok (placeLocation place) := by
  obtain ⟨hs, hz, hp, hl⟩ := followLinks_of_resolve h
  obtain ⟨k, hle, hleads⟩ := leads_of_followLinks (by simp) (fun _ _ _ => rfl) hk hf hl
  exact locate_eq_ok_iff.mpr ⟨hs, k, hle, hz, hp, hleads⟩

theorem PathLeads.join {k' : ℕ} {dir : Location} {name : FileName} (h : fs.PathLeads cwd k p dir)
    (hn : fs.Leads k' dir [.down name.text] false target) :
    fs.PathLeads cwd (k + k') (Path.join p name.text) target := by
  refine ⟨Path.nul_notMem_join h.nul_notMem name.nul_notMem, Path.join_ne_nil p name, ?_⟩
  have ha : Path.isAbsolute (Path.join p name.text) = Path.isAbsolute p :=
    congrArg Route.absolute (Route.ofPath_join h.ne_nil name)
  rw [ha, Route.ofPath_join h.ne_nil]
  exact h.leads.append hn (by simp)

/-- Where a path leads through no more links than a lookup follows, however long the path is. -/
def Arrives (fs : FileSystem) (cwd : Location) (p : Path) (target : Location) : Prop :=
  ∃ k ≤ maxLinks, fs.PathLeads cwd k p target

theorem arrives_of_locate (h : fs.locate cwd p = .ok target) : fs.Arrives cwd p target := (locate_eq_ok_iff.mp h).2

theorem Arrives.locate_eq (h : fs.Arrives cwd p target) (hs : p.IsShort) : fs.locate cwd p = .ok target :=
  locate_eq_ok_iff.mpr ⟨hs, h⟩

theorem Arrives.unique {target' : Location} (h : fs.Arrives cwd p target) (h' : fs.Arrives cwd p target') :
    target = target' := by
  obtain ⟨_, _, hp⟩ := h
  obtain ⟨_, _, hp'⟩ := h'
  exact hp.leads.unique hp'.leads

theorem Arrives.join {dir : Location} {name : FileName} {node : Node} (h : fs.Arrives cwd p dir)
    (hd : fs.isPassable dir = true) (hn : fs.node? (dir ++ [name]) = some node) (hl : ∀ path, node ≠ .link path) :
    fs.Arrives cwd (Path.join p name.text) (dir ++ [name]) := by
  obtain ⟨k, hk, hp⟩ := h
  exact ⟨k + 0, hk, hp.join (leads_entry hd hn hl)⟩

theorem Arrives.isSolid (h : fs.Arrives cwd p target) : fs.IsSolid target := by
  obtain ⟨k, -, hp⟩ := h
  exact hp.leads.isSolid (isSolid_start hp.ne_nil)

theorem isSolid_of_locate (h : fs.locate cwd p = .ok target) : fs.IsSolid target := (arrives_of_locate h).isSolid

theorem stat_of_locate {node : Node} (h : fs.locate cwd p = .ok target) (hn : fs.node? target = some node) :
    fs.stat cwd p = .ok node := by
  rw [stat, h]
  simp only [hn]

theorem exists_locate_of_stat {node : Node} (h : fs.stat cwd p = .ok node) :
    ∃ loc, fs.locate cwd p = .ok loc ∧ fs.node? loc = some node := by
  unfold stat at h
  split at h
  · cases h
  · next loc hl =>
    split at h
    · next n hn =>
      cases h
      exact ⟨loc, hl, hn⟩
    · cases h

theorem stat_eq_error_iff {e : Failure} : fs.stat cwd p = .error e ↔ fs.locate cwd p = .error e := by
  rw [stat]
  cases hl : fs.locate cwd p with
  | error e' => simp
  | ok loc =>
    obtain ⟨node, hn, -⟩ := isSolid_of_locate hl
    simp [hn]

/-! ## What changes no path -/

/-- **Paths that lead somewhere still lead there** where every entry is still there. -/
theorem Leads.mono (hk : fs.Keeps fs') (h : fs.Leads k loc steps slashed target) :
    fs'.Leads k loc steps slashed target := by
  induction h with
  | here hd => exact .here fun hs => hk.isDirectory (hd hs)
  | stay hd _ ih => exact .stay (hk.isPassable hd) ih
  | up hd _ ih => exact .up (hk.isPassable hd) ih
  | down hd hn hl _ ih =>
    obtain ⟨node', hn', hl'⟩ := hk.isSolid ⟨_, hn, hl⟩
    exact .down (hk.isPassable hd) hn' hl' ih
  | link hd hn hpath _ ih => exact .link (hk.isPassable hd) (hk.link hn) hpath ih

theorem Keeps.locate (hk : fs.Keeps fs') (h : fs.locate cwd p = .ok target) :
    fs'.locate cwd p = .ok target := by
  obtain ⟨hs, k, hle, hl⟩ := locate_eq_ok_iff.mp h
  exact locate_eq_ok_iff.mpr ⟨hs, k, hle, hl.nul_notMem, hl.ne_nil, hl.leads.mono hk⟩

end FileSystem

end ExtensionAudit
