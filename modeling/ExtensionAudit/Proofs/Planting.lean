import Mathlib
import ExtensionAudit.Proofs.Frame
import ExtensionAudit.Proofs.Tree

/-!
# Planting a tree

The same entries planted in two empty directories are the same tree, wherever these directories lie.

* `FileSystem.Holds.create`, `FileSystem.Holds.exchange`, `FileSystem.Holds.plant`: one change below a location;
* **`FileSystem.Holds.plantAll`**: the tree of some plantings;
* `FileSystem.holds_create`, `FileSystem.IsExposed.create`, `FileSystem.holds_ensureDirectories`: empty directories;
* **`FileSystem.Holds.placed`**: the tree of what is planted in one.
-/

namespace ExtensionAudit

namespace FileSystem

variable {fs tree : FileSystem} {base : Location}

/-! ## Changes below a location -/

theorem Holds.create (h : fs.Holds base tree) (dir : Location) (name : FileName) (node : Node) :
    (fs.create (base ++ dir) name node).Holds base (tree.create dir name node) := by
  have hd := h.isDirectory_eq dir
  have hn := h.node?_entry dir name
  by_cases hc : tree.isDirectory dir = true ∧ tree.node? (dir ++ [name]) = none
  · intro loc
    rw [node?_create hc.1 hc.2, node?_create (hd.trans hc.1) (hn.trans hc.2), h loc, List.append_assoc]
    simp only [List.append_cancel_left_eq]
  · have hc' : ¬ (fs.isDirectory (base ++ dir) = true ∧ fs.node? (base ++ dir ++ [name]) = none) := by
      rwa [hd, hn]
    rw [FileSystem.create, FileSystem.create, dif_neg hc, dif_neg hc']
    exact h

theorem Holds.exchange (h : fs.Holds base tree) (loc : Location) (node : Node) :
    (fs.exchange (base ++ loc) node).Holds base (tree.exchange loc node) := by
  have hn := h loc
  by_cases hc : (tree.node? loc).any (fun old => old.isDirectory == node.isDirectory) = true
  · obtain ⟨old, ho, hk⟩ := (Option.any_eq_true _ _).mp hc
    intro loc'
    rw [node?_exchange ho (eq_of_beq hk), node?_exchange (hn.trans ho) (eq_of_beq hk), h loc']
    simp only [List.append_cancel_left_eq]
  · rw [FileSystem.exchange, FileSystem.exchange, dif_neg hc, dif_neg (by rwa [hn])]
    exact h

theorem Holds.ensureDirectories (h : fs.Holds base tree) (names : List FileName) :
    (fs.ensureDirectories base names).Holds base (tree.ensureDirectories [] names) := by
  -- the directory that was made last is carried along
  have key : ∀ (names : List FileName) (fs tree : FileSystem) (dir : Location), fs.Holds base tree →
      (names.foldl (fun state name => (state.1.create state.2 name (.directory .listing), state.2 ++ [name]))
        (fs, base ++ dir)).1.Holds base
      (names.foldl (fun state name => (state.1.create state.2 name (.directory .listing), state.2 ++ [name]))
        (tree, dir)).1 := by
    intro names
    induction names with
    | nil => exact fun _ _ _ h => h
    | cons name names ih =>
      intro fs tree dir h
      rw [List.foldl_cons, List.foldl_cons, List.append_assoc]
      exact ih _ _ _ (h.create dir name (.directory .listing))
  have hkey := key names fs tree [] h
  rw [List.append_nil] at hkey
  exact hkey

/-- **One planting** below the location. -/
theorem Holds.plant (h : fs.Holds base tree) (p : Planting) : (fs.plant base p).Holds base (tree.plant [] p) := by
  have he := h.ensureDirectories p.path.dropLast
  rw [FileSystem.plant, FileSystem.plant]
  generalize fs.ensureDirectories base p.path.dropLast = fs₁ at he ⊢
  generalize tree.ensureDirectories [] p.path.dropLast = tree₁ at he ⊢
  simp only [he p.path, List.nil_append]
  cases hn : tree₁.node? p.path with
  | none =>
    simp only
    cases p.path.getLast? with
    | none => exact he
    | some name => exact he.create _ _ _
  | some old =>
    cases old <;> cases p.node <;> first | exact he | exact he.exchange _ _

/-- **The tree of some plantings.** -/
theorem Holds.plantAll (h : fs.Holds base tree) (ps : List Planting) :
    (fs.plantAll base ps).Holds base (tree.plantAll [] ps) := by
  unfold FileSystem.plantAll
  induction ps generalizing fs tree with
  | nil => exact h
  | cons p ps ih => exact ih (h.plant p)

/-! ## New directories -/

variable {dir : Location} {name : FileName}

theorem holds_create (hd : fs.isDirectory dir = true) (h : fs.node? (dir ++ [name]) = none) :
    (fs.create dir name (.directory .listing)).Holds (dir ++ [name]) empty := by
  intro loc
  rw [node?_create hd h]
  cases loc with
  | nil => rw [List.append_nil, if_pos rfl]; rfl
  | cons a loc =>
    rw [if_neg (by simp), node?_append_eq_none h]
    rfl

theorem IsExposed.create (he : fs.IsExposed dir) (hd : fs.isPassable dir = true) (name : FileName) (node : Node) :
    (fs.create dir name node).IsExposed (dir ++ [name]) := by
  have hk : ∀ {loc}, fs.isPassable loc = true → (fs.create dir name node).isPassable loc = true :=
    (extends_create fs dir name node).keeps.isPassable
  exact isExposed_concat.mpr ⟨fun above hp hne => hk (he above hp hne), hk hd⟩

theorem holds_ensureDirectories (loc : Location) :
    (empty.ensureDirectories [] loc).Holds loc empty ∧ (empty.ensureDirectories [] loc).IsExposed loc := by
  suffices h : ∀ state, state = loc.foldl (fun (state : FileSystem × Location) name =>
      (state.1.create state.2 name (.directory .listing), state.2 ++ [name])) (empty, []) →
      state.2 = loc ∧ state.1.Holds loc empty ∧ state.1.IsExposed loc from (h _ rfl).2
  rintro _ rfl
  induction loc using List.reverseRecOn with
  | nil => exact ⟨rfl, fun _ => rfl, isExposed_root _⟩
  | append_singleton dir name ih =>
    obtain ⟨hdir, hh, he⟩ := ih
    rw [List.foldl_append, List.foldl_cons, List.foldl_nil, hdir]
    have hd := hh.isDirectory_eq []
    have hp := hh.isPassable_eq []
    rw [List.append_nil] at hd hp
    exact ⟨rfl, holds_create (hd.trans rfl) (hh [name]), he.create (hp.trans rfl) name _⟩

/-- **The tree of what is planted** in an empty directory to which a path leads. -/
theorem Holds.placed (h : fs.Holds base empty) (he : fs.IsExposed base) (ps : List Planting) (cwd : Location) :
    (fs.plantAll base ps).Placed cwd (Path.ofLocation base) base (empty.plantAll [] ps) := by
  have hh := h.plantAll ps
  have hexposed : (fs.plantAll base ps).IsExposed base := by
    intro dir hp hne
    rw [isPassable, node?_of_outside (outside_plantAll ps) fun hb => hne
      (hp.eq_of_length (hp.length_le.antisymm hb.length_le))]
    exact he dir hp hne
  obtain ⟨access, hroot⟩ := (empty.plantAll [] ps).root_isDirectory
  have hn := hh []
  rw [List.append_nil] at hn
  exact ⟨pathLeads_ofLocation ⟨_, hn.trans hroot, by simp⟩ hexposed cwd, hh⟩

end FileSystem

end ExtensionAudit
