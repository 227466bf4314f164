import Mathlib
import ExtensionAudit.Proofs.Groups
import ExtensionAudit.Proofs.Walk.Lockstep
import ExtensionAudit.Proofs.Walk.Root

/-!
# Trees of entries that can be moved

A directory with all that lies below it is a file system of its own. As long as its links do not lead out of it, its
paths lead to the same entries wherever it lies.

* `FileSystem.Holds`: a tree lies at a location;
* `FileSystem.escapes`, `FileSystem.Confined`: steps that lead out of a tree, and a tree with no link that does;
* `FileSystem.escapes_append`, **`FileSystem.Confined.escapes_eq_false`**: no path of such a tree leads out of it;
* **`FileSystem.Holds.followLinks_eq`**: a lookup in a tree, wherever it lies;
* **`FileSystem.Holds.resolveLinks_of_leads`**: real paths in a tree;
* `FileSystem.Placed`, `FileSystem.Placed.locate_beneath`: the paths of its entries;
* **`FileSystem.Placed.lockstep`**: two walks of the same tree.
-/

namespace ExtensionAudit

namespace FileSystem

variable {fs tree : FileSystem} {base loc : Location} {steps : List Step}

/-! ## Trees -/

/-- The tree lies at the location. -/
def Holds (fs : FileSystem) (base : Location) (tree : FileSystem) : Prop :=
  ∀ loc, fs.node? (base ++ loc) = tree.node? loc

theorem Holds.isDirectory_eq (h : fs.Holds base tree) (loc : Location) :
    fs.isDirectory (base ++ loc) = tree.isDirectory loc := by
  rw [isDirectory, isDirectory, h loc]

theorem Holds.isPassable_eq (h : fs.Holds base tree) (loc : Location) :
    fs.isPassable (base ++ loc) = tree.isPassable loc := by
  rw [isPassable, isPassable, h loc]

theorem Holds.node?_entry (h : fs.Holds base tree) (loc : Location) (name : FileName) :
    fs.node? (base ++ loc ++ [name]) = tree.node? (loc ++ [name]) := by
  rw [List.append_assoc, h]

/-! ## Steps that lead out of a tree -/

/-- Do the steps lead out of the tree? An absolute link does. `next` tells so of the steps behind a link. -/
def escapesBy (tree : FileSystem) (next : Location → List Step → Bool) : Location → List Step → Bool
  | _, [] => false
  | loc, step :: rest =>
    if !tree.isPassable loc then false
    else match step with
      | .stay => escapesBy tree next loc rest
      | .up => loc.isEmpty || escapesBy tree next loc.dropLast rest
      | .down t =>
        match FileName.ofText? t with
        | none => false
        | some name =>
          match tree.node? (loc ++ [name]) with
          | none => false
          | some (.link target) =>
            if target = [] then false
            else Path.isAbsolute target || next loc ((Route.ofPath target).steps ++ rest)
          | some _ => escapesBy tree next (loc ++ [name]) rest

/-- Do the steps lead out of the tree, before they have gone through more links than that? -/
def escapes (tree : FileSystem) : ℕ → Location → List Step → Bool
  | 0 => tree.escapesBy fun _ _ => false
  | links + 1 => tree.escapesBy (tree.escapes links)

/-- **No link of the tree leads out of it.** -/
def Confined (tree : FileSystem) : Prop :=
  ∀ dir name target, tree.node? (dir ++ [name]) = some (.link target) →
    tree.escapes maxLinks dir [.down name.text] = false

/-- It is enough to look at the entries of the table. -/
theorem confined_iff : tree.Confined ↔ ∀ e ∈ tree.entries, ∀ name ∈ e.1.getLast?, (e.2 matches .link _) = true →
    tree.escapes maxLinks e.1.dropLast [.down name.text] = false := by
  constructor
  · rintro h ⟨loc, node⟩ he name hname hlink
    cases node with
    | link target =>
      refine h _ name target ?_
      rw [List.dropLast_append_getLast? name hname]
      exact (Table.mem_iff_get? tree.nodup).mp he
    | _ => cases hlink
  · intro h dir name target hn
    have hescapes := h (dir ++ [name], .link target) ((Table.mem_iff_get? tree.nodup).mpr hn) name
      List.getLast?_concat rfl
    rwa [List.dropLast_concat] at hescapes

instance : Decidable tree.Confined := decidable_of_iff' _ confined_iff

/-- What is known of the steps behind a link when so many links may be followed in all. -/
def escapesNext (tree : FileSystem) : ℕ → Location → List Step → Bool
  | 0 => fun _ _ => false
  | links + 1 => tree.escapes links

theorem escapes_eq (links : ℕ) : tree.escapes links = tree.escapesBy (tree.escapesNext links) := by
  cases links <;> rfl

section Step

variable {next : Location → List Step → Bool} {rest : List Step}

theorem escapesBy_of_not_isPassable {step : Step} (hd : ¬ tree.isPassable loc = true) :
    tree.escapesBy next loc (step :: rest) = false := by
  cases step <;> simp [escapesBy, hd]

variable (hd : tree.isPassable loc = true)
include hd

theorem escapesBy_stay : tree.escapesBy next loc (.stay :: rest) = tree.escapesBy next loc rest := by
  simp [escapesBy, hd]

theorem escapesBy_up :
    tree.escapesBy next loc (.up :: rest) = (loc.isEmpty || tree.escapesBy next loc.dropLast rest) := by
  simp [escapesBy, hd]

theorem escapesBy_down (t : Text) : tree.escapesBy next loc (.down t :: rest) =
    match FileName.ofText? t with
    | none => false
    | some name =>
      match tree.node? (loc ++ [name]) with
      | none => false
      | some (.link target) =>
        if target = [] then false
        else Path.isAbsolute target || next loc ((Route.ofPath target).steps ++ rest)
      | some _ => tree.escapesBy next (loc ++ [name]) rest := by
  simp [escapesBy, hd]

end Step

theorem escapesBy_mono {next next' : Location → List Step → Bool}
    (hnext : ∀ loc steps, next loc steps = true → next' loc steps = true) (h : tree.escapesBy next loc steps = true) :
    tree.escapesBy next' loc steps = true := by
  induction steps generalizing loc with
  | nil => cases h
  | cons step rest ih =>
    by_cases hd : tree.isPassable loc = true
    case neg =>
      rw [escapesBy_of_not_isPassable hd] at h
      cases h
    cases step with
    | stay =>
      rw [escapesBy_stay hd] at h ⊢
      exact ih h
    | up =>
      rw [escapesBy_up hd, Bool.or_eq_true] at h ⊢
      exact h.imp_right ih
    | down t =>
      rw [escapesBy_down hd] at h ⊢
      split at h
      · cases h
      split at h
      · cases h
      · split at h
        · cases h
        · next ht =>
          rw [Bool.or_eq_true] at h
          simp only [ht, if_false, Bool.or_eq_true]
          exact h.imp_right (hnext _ _)
      · exact ih h

theorem escapes_mono {links links' : ℕ} (hle : links ≤ links') (h : tree.escapes links loc steps = true) :
    tree.escapes links' loc steps = true := by
  induction links generalizing links' loc steps with
  | zero =>
    rw [escapes_eq] at h ⊢
    exact escapesBy_mono (fun _ _ h => by cases h) h
  | succ links ih =>
    obtain ⟨links', rfl⟩ := Nat.exists_eq_add_of_le' (Nat.one_le_of_lt hle)
    rw [escapes_eq] at h ⊢
    exact escapesBy_mono (fun _ _ h => ih (Nat.le_of_succ_le_succ hle) h) h

theorem escapesBy_append {next : Location → List Step → Bool} {first second : List Step} {P : Prop}
    (hnext : ∀ loc steps, next loc (steps ++ second) = true → next loc steps = true ∨ P)
    (hsecond : ∀ loc, tree.escapesBy next loc second = true → P)
    (h : tree.escapesBy next loc (first ++ second) = true) : tree.escapesBy next loc first = true ∨ P := by
  induction first generalizing loc with
  | nil => exact Or.inr (hsecond loc h)
  | cons step first ih =>
    rw [List.cons_append] at h
    by_cases hd : tree.isPassable loc = true
    case neg =>
      rw [escapesBy_of_not_isPassable hd] at h
      cases h
    cases step with
    | stay =>
      rw [escapesBy_stay hd] at h ⊢
      exact ih h
    | up =>
      rw [escapesBy_up hd, Bool.or_eq_true] at h ⊢
      rcases h with h | h
      · exact Or.inl (Or.inl h)
      · exact (ih h).imp_left Or.inr
    | down t =>
      rw [escapesBy_down hd] at h ⊢
      split at h
      · cases h
      split at h
      · cases h
      · split at h
        · cases h
        · next ht =>
          simp only [ht, if_false, Bool.or_eq_true] at h ⊢
          rw [← List.append_assoc] at h
          rcases h with h | h
          · exact Or.inl (Or.inl h)
          · exact (hnext _ _ h).imp_left Or.inr
      · exact ih h

theorem escapes_append {links : ℕ} {first second : List Step}
    (h : tree.escapes links loc (first ++ second) = true) :
    tree.escapes links loc first = true ∨ ∃ left ≤ links, ∃ mid, tree.escapes left mid second = true := by
  induction links generalizing loc first with
  | zero =>
    rw [escapes_eq] at h ⊢
    refine escapesBy_append (fun _ _ h => by cases h) (fun mid h => ⟨0, le_rfl, mid, ?_⟩) h
    rwa [escapes_eq]
  | succ links ih =>
    rw [escapes_eq] at h ⊢
    refine escapesBy_append (fun mid steps h => ?_) (fun mid h => ⟨links + 1, le_rfl, mid, ?_⟩) h
    · obtain h | ⟨left, hle, mid', h⟩ := ih h
      · exact Or.inl h
      · exact Or.inr ⟨left, Nat.le_succ_of_le hle, mid', h⟩
    · rwa [escapes_eq]

theorem Confined.escapes_name (hc : tree.Confined) {links : ℕ} (hle : links ≤ maxLinks) (loc : Location)
    (name : FileName) : tree.escapes links loc [.down name.text] = false := by
  by_cases hd : tree.isPassable loc = true
  case neg => rw [escapes_eq, escapesBy_of_not_isPassable hd]
  cases hn : tree.node? (loc ++ [name]) with
  | none => simp only [escapes_eq, escapesBy_down hd, FileName.ofText?_text, hn]
  | some node =>
    cases node with
    | link target =>
      rw [← Bool.not_eq_true]
      intro h
      have htrue := escapes_mono hle h
      rw [hc loc name target hn] at htrue
      cases htrue
    | _ =>
      simp only [escapes_eq, escapesBy_down hd, FileName.ofText?_text, hn]
      rfl

/-- **No path of a confined tree leads out of it.** -/
theorem Confined.escapes_eq_false (hc : tree.Confined) {links : ℕ} (hle : links ≤ maxLinks) (loc : Location)
    (rel : List FileName) : tree.escapes links loc (stepsTo rel) = false := by
  induction rel generalizing links loc with
  | nil =>
    rw [escapes_eq]
    rfl
  | cons name rel ih =>
    rw [← Bool.not_eq_true]
    intro h
    change tree.escapes links loc ([.down name.text] ++ stepsTo rel) = true at h
    rcases escapes_append h with h | ⟨left, hleft, mid, h⟩
    · rw [hc.escapes_name hle] at h
      cases h
    · rw [ih (hleft.trans hle)] at h
      cases h

/-! ## Lookups in a tree -/

/-- The same place, seen from the location where the tree lies. -/
def placeBelow (base : Location) : Place → Place
  | .entry loc => .entry (base ++ loc)
  | .vacancy dir name => .vacancy (base ++ dir) name

section Lookup

variable {purpose : Purpose} {slashed : Bool}

theorem Holds.follow_eq (h : fs.Holds base tree) {next : Location → List Step → Bool}
    {jump jump' : Location → List Step → Bool → Except SystemError Place}
    (hjump : ∀ loc steps slashed, next loc steps = false →
      jump (base ++ loc) steps slashed = (jump' loc steps slashed).map (placeBelow base))
    (he : tree.escapesBy next loc steps = false) :
    fs.follow purpose jump (base ++ loc) steps slashed =
      (tree.follow purpose jump' loc steps slashed).map (placeBelow base) := by
  induction steps generalizing loc with
  | nil =>
    rw [follow, follow, h.isDirectory_eq]
    split <;> rfl
  | cons step rest ih =>
    have hd' : fs.isPassable (base ++ loc) = tree.isPassable loc := h.isPassable_eq loc
    by_cases hd : tree.isPassable loc = true
    case neg =>
      rw [follow_of_not_isPassable hd, follow_of_not_isPassable (by rwa [hd']), h.isDirectory_eq]
      rfl
    rw [hd] at hd'
    cases step with
    | stay =>
      rw [escapesBy_stay hd] at he
      rw [follow_stay hd', follow_stay hd, ih he]
    | up =>
      rw [escapesBy_up hd, Bool.or_eq_false_iff] at he
      have hne : loc ≠ [] := by simpa using he.1
      rw [follow_up hd', follow_up hd, List.dropLast_append_of_ne_nil hne, ih he.2]
    | down t =>
      rw [escapesBy_down hd] at he
      refine (nameStep_iff hd').mpr ?_
      generalize hr : tree.follow purpose jump' loc (.down t :: rest) slashed = result
      cases (nameStep_iff hd).mp hr with
      | unwritable hw => exact .unwritable hw
      | nameless hw ht => exact .nameless hw ht
      | vacancy hw hn hrest => exact .vacancy hw ((h.node?_entry _ _).trans hn) hrest
      | missing hw hn hrest => exact .missing hw ((h.node?_entry _ _).trans hn) hrest
      | named hw hn hname =>
        have hstep : fs.NameStep purpose jump (base ++ loc) rest slashed _ _ :=
          .named hw ((h.node?_entry _ _).trans hn) hname
        rwa [List.append_assoc] at hstep
      | void hw hn hname => exact .void hw ((h.node?_entry _ _).trans hn) hname
      | @link name target _ hw hn hname hp hnext =>
        simp only [FileName.ofText?_text, hn, if_neg hp, Bool.or_eq_false_iff] at he
        have ha : Path.isAbsolute target = false := he.1
        refine .link hw ((h.node?_entry _ _).trans hn) hname hp ?_
        rw [ha] at hnext ⊢
        rw [← hnext]
        exact hjump _ _ _ he.2
      | @down name node _ hw hn hl hf =>
        refine .down hw ((h.node?_entry _ _).trans hn) hl ?_
        have he' : tree.escapesBy next (loc ++ [name]) rest = false := by
          simp only [FileName.ofText?_text, hn] at he
          cases node with
          | link path => exact absurd rfl (hl path)
          | _ => exact he
        rw [List.append_assoc, ih he', hf]

/-- **A lookup in a tree** finds the same place wherever the tree lies, unless it leads out of the tree. -/
theorem Holds.followLinks_eq (h : fs.Holds base tree) {links : ℕ} (he : tree.escapes links loc steps = false) :
    fs.followLinks purpose links (base ++ loc) steps slashed =
      (tree.followLinks purpose links loc steps slashed).map (placeBelow base) := by
  induction links generalizing loc steps slashed with
  | zero =>
    rw [escapes_eq] at he
    rw [followLinks_eq, FileSystem.followLinks_eq]
    exact h.follow_eq (fun _ _ _ _ => rfl) he
  | succ links ih =>
    rw [escapes_eq] at he
    rw [FileSystem.followLinks_eq, FileSystem.followLinks_eq]
    exact h.follow_eq (fun _ _ _ he => ih he) he

end Lookup

/-! ## Real paths in a tree -/

/-- **What is left of steps in a tree** when the links are replaced, wherever the tree lies. -/
theorem Holds.resolveLinks_of_leads (h : fs.Holds base tree) (hlinks : tree.HasShortLinksAt base) {links k : ℕ}
    {slashed : Bool} {target : Location} (hexposed : fs.IsExposed (base ++ loc))
    (he : tree.escapes links loc steps = false) (hl : tree.Leads k loc steps slashed target) (hk : k ≤ links) :
    fs.resolveLinks links (namesTo (base ++ loc)) steps = namesTo (base ++ target) := by
  induction hl generalizing links with
  | here => rw [resolveLinks_eq]; rfl
  | stay hd _ ih =>
    rw [escapes_eq, escapesBy_stay hd, ← escapes_eq] at he
    rw [resolveLinks_eq, resolveNames, ← resolveLinks_eq, ih hexposed he hk]
  | up hd _ ih =>
    rw [escapes_eq, escapesBy_up hd, Bool.or_eq_false_iff, ← escapes_eq] at he
    have hup := hexposed.dropLast
    rw [List.dropLast_append_of_ne_nil (by simpa using he.1)] at hup
    rw [resolveLinks_eq, resolveNames_up, ← resolveLinks_eq,
      List.dropLast_append_of_ne_nil (by simpa using he.1), ih hup he.2 hk]
  | @down _ loc _ rest _ name node hd hn hnode _ ih =>
    have hdown := hexposed.concat ((h.isPassable_eq loc).trans hd) name
    have he' : tree.escapes links (loc ++ [name]) rest = false := by
      rw [escapes_eq, escapesBy_down hd] at he
      simp only [FileName.ofText?_text, hn] at he
      rw [escapes_eq]
      cases node with
      | link path => exact absurd rfl (hnode path)
      | _ => exact he
    rw [← h.node?_entry] at hn
    rw [resolveLinks_eq, resolveNames_down hdown hn hnode, ← resolveLinks_eq, List.append_assoc]
    rw [List.append_assoc] at hdown
    rw [ih hdown he' hk]
  | @link _ loc _ _ _ name path hd hn hpath _ ih =>
    have hdown := hexposed.concat ((h.isPassable_eq loc).trans hd) name
    obtain ⟨links, rfl⟩ := Nat.exists_eq_add_of_le' (Nat.one_le_of_lt hk)
    rw [escapes_eq, escapesBy_down hd] at he
    simp only [FileName.ofText?_text, hn, if_neg hpath, Bool.or_eq_false_iff] at he
    have hshort := hlinks _ _ hn
    rw [← List.append_assoc] at hshort
    rw [← h.node?_entry] at hn
    rw [resolveLinks_eq, resolveNames_link hdown hn hshort]
    have hrelative : Path.isAbsolute path = false := he.1
    simp only [hrelative, Bool.false_eq_true, if_false] at ih ⊢
    exact ih hexposed he.2 (Nat.le_of_succ_le_succ hk)

/-! ## Trees at the end of a path -/

variable {fs fs' tree : FileSystem} {cwd cwd' base base' : Location} {root root' : Path}

/-- **The tree lies at the end of a path** that goes through no link. -/
structure Placed (fs : FileSystem) (cwd : Location) (root : Path) (base : Location) (tree : FileSystem) : Prop where
  pathLeads : fs.PathLeads cwd 0 root base
  holds : fs.Holds base tree

/-- **Where the paths of a tree lead**, wherever it lies. -/
theorem Placed.locate_beneath (h : fs.Placed cwd root base tree) (hc : tree.Confined) {rel : List FileName}
    (hs : (Path.beneath root rel).IsShort) (target : Location) : fs.locate cwd (Path.beneath root rel) = .ok target ↔
      ∃ loc, target = base ++ loc ∧ tree.followLinks .examine maxLinks [] (stepsTo rel) false = .ok (.entry loc) := by
  have hroot := h.pathLeads
  by_cases hrel : rel = []
  · subst hrel
    have hl : fs.locate cwd root = .ok base := by
      rw [locate_of_pathLeads hroot hs, if_pos (Nat.zero_le _)]
    have ht : tree.followLinks .examine maxLinks [] (stepsTo []) false = .ok (.entry []) := by
      rw [followLinks_eq]
      exact follow_nil (by simp)
    rw [Path.beneath, List.foldl_nil, hl, ht]
    constructor
    · rintro ⟨⟩
      exact ⟨[], (List.append_nil _).symm, rfl⟩
    · rintro ⟨loc, rfl, ⟨⟩⟩
      rw [List.append_nil]
  · have hlookup : fs.followLinks .examine maxLinks
        (if Path.isAbsolute (Path.beneath root rel) then [] else cwd) (Route.ofPath (Path.beneath root rel)).steps
        (Route.ofPath (Path.beneath root rel)).slashed =
          (tree.followLinks .examine maxLinks [] (stepsTo rel) false).map (placeBelow base) := by
      obtain ⟨ha, hs⟩ := Path.ofPath_beneath hroot.ne_nil rel
      have hne : stepsTo rel ≠ [] := by simpa [stepsTo] using hrel
      have ha' : Path.isAbsolute (Path.beneath root rel) = Path.isAbsolute root := ha
      rw [ha', hs, Path.slashed_beneath hroot.ne_nil hrel, followLinks_append_of_leads hroot.leads hne,
        ← h.holds.followLinks_eq (hc.escapes_eq_false le_rfl [] rel), List.append_nil]
    rw [locate, resolve_eq (Path.nul_notMem_beneath hroot.nul_notMem rel) (Path.beneath_ne_nil hroot.ne_nil rel) hs,
      hlookup]
    cases tree.followLinks .examine maxLinks [] (stepsTo rel) false with
    | error e => simp [Except.map]
    | ok place =>
      cases place with
      | entry loc => simp [Except.map, placeBelow, eq_comm]
      | vacancy dir name => simp [Except.map, placeBelow]

/-- **The real paths of a tree** whose links are short where it lies. -/
theorem Placed.realPath_beneath (h : fs.Placed cwd root base tree) (hc : tree.Confined)
    (ha : Path.isAbsolute root = true) (hlinks : tree.HasShortLinksAt base) {rel : List FileName} {target : Location}
    (hl : fs.locate cwd (Path.beneath root rel) = .ok target) :
    fs.realPath (Path.beneath root rel) = Path.ofLocation target := by
  obtain ⟨loc, rfl, hf⟩ := (h.locate_beneath hc (isShort_of_locate hl) target).mp hl
  obtain ⟨k, hk, hleads⟩ := exists_leads (by simp) hf
  have hroot := h.pathLeads.leads
  rw [if_pos ha] at hroot
  have hbase : fs.IsExposed (base ++ []) := by
    rw [List.append_nil]
    exact hroot.isExposed fs.isExposed_root
  have hrel := h.holds.resolveLinks_of_leads hlinks hbase (hc.escapes_eq_false le_rfl [] rel) hleads hk
  rw [List.append_nil] at hrel
  refine realPath_of_resolveLinks ?_
  rw [(Path.ofPath_beneath h.pathLeads.ne_nil rel).2, ← hrel]
  exact resolveLinks_append_of_leads fs.isExposed_root hroot maxLinks

/-- The paths of the same entry of a tree that lies at two places. -/
def SameBeneath (root root' : Path) (p q : Path) : Prop :=
  ∃ rel, p = Path.beneath root rel ∧ q = Path.beneath root' rel

/-- The locations of the same entry of a tree that lies at two places. -/
def SameBelow (base base' : Location) (a b : Location) : Prop := ∃ loc, a = base ++ loc ∧ b = base' ++ loc

theorem Placed.locate_or (h : fs.Placed cwd root base tree) (h' : fs'.Placed cwd' root' base' tree) (hc : tree.Confined)
    {p q : Path} (hpq : SameBeneath root root' p q) (hs : p.IsShort) (hs' : q.IsShort) :
    ((∀ a, fs.locate cwd p ≠ .ok a) ∧ ∀ b, fs'.locate cwd' q ≠ .ok b) ∨
      ∃ a b, fs.locate cwd p = .ok a ∧ fs'.locate cwd' q = .ok b ∧ SameBelow base base' a b := by
  obtain ⟨rel, rfl, rfl⟩ := hpq
  simp only [h.locate_beneath hc hs, h'.locate_beneath hc hs', ne_eq]
  by_cases hl : ∃ loc, tree.followLinks .examine maxLinks [] (stepsTo rel) false = .ok (.entry loc)
  · obtain ⟨loc, hl⟩ := hl
    exact Or.inr ⟨_, _, ⟨loc, rfl, hl⟩, ⟨loc, rfl, hl⟩, loc, rfl, rfl⟩
  · exact Or.inl ⟨fun _ ⟨loc, _, hl'⟩ => hl ⟨loc, hl'⟩, fun _ ⟨loc, _, hl'⟩ => hl ⟨loc, hl'⟩⟩

/-- **Two walks of the same tree** go in lockstep. -/
theorem Placed.lockstep (h : fs.Placed cwd root base tree) (h' : fs'.Placed cwd' root' base' tree)
    (hc : tree.Confined) (ha : Path.isAbsolute root = true) (ha' : Path.isAbsolute root' = true)
    (hlinks : tree.HasShortLinksAt base) (hlinks' : tree.HasShortLinksAt base') :
    fs.Lockstep fs' cwd cwd' (SameBeneath root root') (SameBelow base base') where
  locate := h.locate_or h' hc
  realPath_left := by
    rintro _ _ _ ⟨rel, rfl, -⟩ hl
    exact h.realPath_beneath hc ha hlinks hl
  realPath_right := by
    rintro _ _ _ ⟨rel, -, rfl⟩ hl
    exact h'.realPath_beneath hc ha' hlinks' hl
  shape_eq := by
    rintro _ _ ⟨loc, rfl, rfl⟩
    rw [h.holds, h'.holds]
  eq_iff := by
    rintro _ _ _ _ ⟨loc, rfl, rfl⟩ ⟨loc', rfl, rfl⟩
    rw [List.append_cancel_left_eq, List.append_cancel_left_eq]
  names_eq := by
    rintro _ _ ⟨loc, rfl, rfl⟩
    refine FileSystem.names_eq fun name => ?_
    rw [h.holds.node?_entry, h'.holds.node?_entry]
  join := by
    rintro _ _ ⟨rel, rfl, rfl⟩ name
    exact ⟨rel ++ [name], (Path.beneath_concat ..).symm, (Path.beneath_concat ..).symm⟩

/-- **The visits of the same tree at two places.** -/
theorem Placed.visitsOf (h : fs.Placed cwd root base tree) (h' : fs'.Placed cwd' root' base' tree) (hr : root.IsNormal)
    (hr' : root'.IsNormal) (hc : tree.Confined) (hlinks : tree.HasShortLinksAt base)
    (hlinks' : tree.HasShortLinksAt base') (hs : root.IsShort) (hs' : root'.IsShort) {levels : ℕ}
    (hpaths : ∀ v ∈ fs.visitsOf levels cwd root, v.path.IsShort)
    (hpaths' : ∀ v ∈ fs'.visitsOf levels cwd' root', v.path.IsShort) :
    List.Forall₂ (Visit.Like (SameBeneath root root') (SameBelow base base')) (fs.visitsOf levels cwd root)
      (fs'.visitsOf levels cwd' root') := by
  have hl : fs.locate cwd (Path.absolute cwd root) = .ok base := by
    rw [hr.absolute_eq, locate_of_pathLeads h.pathLeads hs, if_pos (Nat.zero_le _)]
  have hl' : fs'.locate cwd' (Path.absolute cwd' root') = .ok base' := by
    rw [hr'.absolute_eq, locate_of_pathLeads h'.pathLeads hs', if_pos (Nat.zero_le _)]
  refine (h.lockstep h' hc hr.isAbsolute hr'.isAbsolute hlinks hlinks').visits sound_outset sound_outset .nil ?_ hpaths
    hpaths'
  rw [outset_of_locate hl, outset_of_locate hl', hr.absolute_eq, hr'.absolute_eq]
  exact .cons ⟨⟨[], rfl, rfl⟩, rfl⟩ .nil

end FileSystem

end ExtensionAudit
