import Mathlib
import ExtensionAudit.Files.System

/-!
# Changes below a location

Planting below a location changes nothing outside it. So a directory that was new can be filled and removed
again, and the file system is what it was before.

* `FileSystem.outside`: the entries that do not lie at or below a location;
* `FileSystem.outside_create`, `FileSystem.outside_exchange`, `FileSystem.outside_plantAll`: changes below
  the location leave them alone;
* **`FileSystem.remove_plantAll_create`**: a new directory, filled and removed again.
-/

namespace ExtensionAudit

namespace FileSystem

variable {fs : FileSystem} {base : Location}

@[ext]
theorem ext {fs fs' : FileSystem} (h : fs.entries = fs'.entries) : fs = fs' := by
  cases fs; cases fs'; cases h; rfl

theorem node?_append_eq_none {loc : Location} (h : fs.node? loc = none) (rest : Location) :
    fs.node? (loc ++ rest) = none := by
  induction rest using List.reverseRecOn with
  | nil => rwa [List.append_nil]
  | append_singleton rest name ih =>
    rw [← List.append_assoc]
    cases hn : fs.node? (loc ++ rest ++ [name]) with
    | none => rfl
    | some node =>
      obtain ⟨b, hb⟩ := fs.parent_isDirectory (loc ++ rest) name (by
        rw [show fs.entries.get? (loc ++ rest ++ [name]) = some node from hn]; rfl)
      rw [show fs.entries.get? (loc ++ rest) = none from ih] at hb
      cases hb

/-- The entries that do not lie at or below a location. -/
def outside (fs : FileSystem) (base : Location) : Table Location Node :=
  fs.entries.filter fun e => !base.isPrefixOf e.1

theorem outside_eq_entries (h : fs.node? base = none) : fs.outside base = fs.entries := by
  refine List.filter_eq_self.mpr fun e he => ?_
  rw [Bool.not_eq_true', Bool.eq_false_iff, ne_eq, List.isPrefixOf_iff_prefix]
  rintro ⟨rest, hr⟩
  have hm : e.1 ∈ fs.entries.keys := List.mem_map_of_mem he
  obtain ⟨node, hn⟩ := Table.exists_get? hm
  have := node?_append_eq_none h rest
  rw [hr, node?, hn] at this
  cases this

theorem node?_of_outside {fs' : FileSystem} {loc : Location} (h : fs'.outside base = fs.outside base)
    (hp : ¬ base <+: loc) : fs'.node? loc = fs.node? loc := by
  have key : ∀ fs : FileSystem, Table.get? (fs.outside base) loc = fs.node? loc := fun fs => by
    rw [outside, Table.get?_filter_keys (fun l : Location => !base.isPrefixOf l), if_pos, node?]
    rwa [Bool.not_eq_true', Bool.eq_false_iff, ne_eq, List.isPrefixOf_iff_prefix]
  rw [← key fs', h, key fs]

theorem outside_create {dir : Location} {name : FileName} (node : Node) (h : base <+: dir ++ [name]) :
    (fs.create dir name node).outside base = fs.outside base := by
  rw [create]
  split
  · exact Table.filter_alter (p := fun l : Location => !base.isPrefixOf l)
      (by simpa [List.isPrefixOf_iff_prefix] using h) _ _
  · rfl

theorem outside_exchange {loc : Location} (node : Node) (h : base <+: loc) :
    (fs.exchange loc node).outside base = fs.outside base := by
  rw [exchange]
  split
  · exact Table.filter_alter (p := fun l : Location => !base.isPrefixOf l)
      (by simpa [List.isPrefixOf_iff_prefix] using h) _ _
  · rfl

theorem outside_ensureDirectories (names : List FileName) :
    (fs.ensureDirectories base names).outside base = fs.outside base := by
  have key : ∀ (names : List FileName) (fs : FileSystem) (dir : Location), base <+: dir →
      (names.foldl (fun state name => (state.1.create state.2 name (.directory .listing), state.2 ++ [name]))
        (fs, dir)).1.outside base = fs.outside base := by
    intro names
    induction names with
    | nil => intro fs dir _; rfl
    | cons name names ih =>
      intro fs dir hd
      have hp : base <+: dir ++ [name] := hd.trans (List.prefix_append _ _)
      rw [List.foldl_cons, ih _ _ hp, outside_create _ hp]
  exact key names fs base List.prefix_rfl

theorem outside_plant (p : Planting) : (fs.plant base p).outside base = fs.outside base := by
  rw [plant]
  have he := @outside_ensureDirectories fs base p.path.dropLast
  generalize fs.ensureDirectories base p.path.dropLast = fs' at he ⊢
  split
  · split
    · rw [outside_create _ (by rw [List.append_assoc]; exact List.prefix_append _ _), he]
    · exact he
  · rw [outside_exchange _ (List.prefix_append _ _), he]
  · rw [outside_exchange _ (List.prefix_append _ _), he]
  · exact he

theorem outside_plantAll (ps : List Planting) : (fs.plantAll base ps).outside base = fs.outside base := by
  unfold plantAll
  induction ps generalizing fs with
  | nil => rfl
  | cons p ps ih => rw [List.foldl_cons, ih, outside_plant]

/-- **A new directory, filled and removed again**, leaves the file system as it was. -/
theorem remove_plantAll_create {name : FileName} (h : fs.node? [name] = none) (ps : List Planting) :
    ((fs.create [] name (.directory .listing)).plantAll [name] ps).remove [name] = fs := by
  ext1
  rw [remove, dif_neg (by simp)]
  show ((fs.create [] name (.directory .listing)).plantAll [name] ps).outside [name] = fs.entries
  have hc : (fs.create [] name (.directory .listing)).outside [name] = fs.outside [name] :=
    outside_create _ List.prefix_rfl
  rw [outside_plantAll, hc, outside_eq_entries h]

end FileSystem

end ExtensionAudit
