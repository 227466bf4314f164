import Mathlib
import ExtensionAudit.Proofs.Walk.Branches

/-!
# The order of a walk

A walk returns files in the order of their paths name by name, which is not the order of the paths as text: `a-b`
comes after everything below `a`, and the minus sign before the slash. The order comes from two facts. The names of a
directory are in order, and all that is pending while a directory is walked lies behind everything below it.

* `FileName.Before`: the order of entries below a root, by the first names that differ;
* `FileName.Before.append`: what lies below entries in order is in order;
* `FileSystem.files_inOrder`: the files of a walk whose pending paths are in order;
* **`FileSystem.walkFiles_inOrder`**: the files below a root, in order.
-/

namespace ExtensionAudit

/-! ## The order of entries -/

/-- **One entry comes before another one**, both seen from the same directory, and neither lies below the other: the
first names that differ are in order. -/
inductive FileName.Before : List FileName → List FileName → Prop where
  | head {a b : FileName} {s t : List FileName} (h : a.text < b.text) : Before (a :: s) (b :: t)
  | tail {a : FileName} {s t : List FileName} (h : Before s t) : Before (a :: s) (a :: t)

namespace FileName.Before

variable {s t : List FileName}

theorem append (h : Before s t) (s' t' : List FileName) : Before (s ++ s') (t ++ t') := by
  induction h with
  | head h => exact .head h
  | tail _ ih => exact .tail ih

theorem mono (h : Before s t) {s' t' : List FileName} (hs : s <+: s') (ht : t <+: t') : Before s' t' := by
  obtain ⟨s₁, rfl⟩ := hs
  obtain ⟨t₁, rfl⟩ := ht
  exact h.append s₁ t₁

theorem siblings (dir : List FileName) {a b : FileName} (h : a.text < b.text) : Before (dir ++ [a]) (dir ++ [b]) := by
  induction dir with
  | nil => exact .head h
  | cons _ _ ih => exact .tail ih

theorem map_text_lt (h : Before s t) : s.map text < t.map text := by
  induction h with
  | head h => exact List.Lex.rel h
  | tail _ ih => exact List.Lex.cons ih

theorem apart (h : Before s t) : ¬ s <+: t ∧ ¬ t <+: s := by
  induction h with
  | @head a b _ _ h =>
    have hne : a ≠ b := by
      rintro rfl
      exact List.lt_irrefl _ h
    simp [List.cons_prefix_cons, hne, hne.symm]
  | tail _ ih => simpa [List.cons_prefix_cons] using ih

end FileName.Before

namespace FileSystem

variable {fs : FileSystem} {levels : ℕ} {cwd : Location} {root : Path}

/-! ## The files of a walk -/

/-- The paths are those of entries seen from the root, in order, and each lies at or below one of `rels`. -/
def InOrder (root : Path) (rels : List (List FileName)) (paths : List Path) : Prop :=
  ∃ found : List (List FileName), paths = found.map (Path.beneath root) ∧ found.Pairwise FileName.Before ∧
    ∀ r ∈ found, ∃ q ∈ rels, q <+: r

theorem exists_below {v : Visit} {rel : List FileName} (hv : v.path = Path.beneath root rel) :
    ∃ rels : List (List FileName), fs.below v = rels.map (Path.beneath root) ∧ rels.Pairwise FileName.Before ∧
      ∀ r ∈ rels, ∃ n, r = rel ++ [n] := by
  cases v with
  | entered p dir =>
    obtain rfl : p = Path.beneath root rel := hv
    refine ⟨(fs.names dir).map fun n => rel ++ [n], ?_, ?_, ?_⟩
    · rw [List.map_map]
      exact List.map_congr_left fun n _ => (Path.beneath_concat root rel n).symm
    · exact List.pairwise_map.mpr ((pairwise_text_names fs dir).imp (FileName.Before.siblings rel))
    · intro r hr
      obtain ⟨n, -, rfl⟩ := List.mem_map.mp hr
      exact ⟨n, rfl⟩
  | _ => exact ⟨[], rfl, .nil, by simp⟩

/-- **The files of a walk whose pending paths are in order** are in order, each at or below a pending path. -/
theorem files_inOrder (visited : List Path) {pending : List Pending} (hp : ∀ e ∈ pending, e.Sound fs cwd)
    (rels : List (List FileName)) (hrels : pending.map Pending.path = rels.map (Path.beneath root))
    (h : rels.Pairwise FileName.Before) : InOrder root rels (Visit.files (fs.visits cwd visited pending)) := by
  refine visits_induction (motive := fun _ pending vs => ∀ rels : List (List FileName),
    pending.map Pending.path = rels.map (Path.beneath root) → rels.Pairwise FileName.Before →
    InOrder root rels (Visit.files vs)) ?_ ?_ visited pending hp rels hrels h
  · intro _ rels _ _
    exact ⟨[], rfl, .nil, by simp⟩
  intro visited e v visited' next pending rest _ hs ih rels hrels horder
  rw [List.map_cons] at hrels
  obtain ⟨rel, rels, rfl, hrel, hrest⟩ := List.map_eq_cons_iff.mp hrels.symm
  obtain ⟨hfirst, horder⟩ := List.pairwise_cons.mp horder
  have hpath : v.path = Path.beneath root rel := hs.path_eq.trans hrel.symm
  -- what comes next lies below the visited path, so it comes before all that was pending
  obtain ⟨below, hbelow, hsorted, hentry⟩ := @exists_below fs root v rel hpath
  have hunder : ∀ q ∈ below, rel <+: q := by
    intro q hq
    obtain ⟨n, rfl⟩ := hentry q hq
    exact List.prefix_append rel [n]
  obtain ⟨found, hfiles, hfound, hfrom⟩ := ih (below ++ rels)
    (by rw [List.map_append, hs.map_path_next, hbelow, List.map_append, hrest])
    (List.pairwise_append.mpr ⟨hsorted, horder, fun q hq r hr =>
      (hfirst r hr).mono (hunder q hq) (List.prefix_refl r)⟩)
  have hfrom' : ∀ r ∈ found, ∃ q ∈ rel :: rels, q <+: r := by
    intro r hr
    obtain ⟨q, hq, hqr⟩ := hfrom r hr
    rcases List.mem_append.mp hq with hq | hq
    · exact ⟨rel, List.mem_cons_self .., (hunder q hq).trans hqr⟩
    · exact ⟨q, List.mem_cons_of_mem _ hq, hqr⟩
  cases hs with
  | file =>
    obtain rfl : below = [] := List.map_eq_nil_iff.mp hbelow.symm
    refine ⟨rel :: found, ?_, List.pairwise_cons.mpr ⟨fun r hr => ?_, hfound⟩, ?_⟩
    · rw [List.map_cons, ← hfiles, hrel]
      rfl
    · obtain ⟨q, hq, hqr⟩ := hfrom r hr
      exact (hfirst q hq).mono (List.prefix_refl rel) hqr
    · exact List.forall_mem_cons.mpr ⟨⟨rel, List.mem_cons_self .., List.prefix_refl rel⟩, hfrom'⟩
  | _ => exact ⟨found, hfiles, hfound, hfrom'⟩

/-! ## The walk of a root -/

section Walk

variable {vs : List Visit} (hw : fs.walk levels cwd root = .ok vs)
include hw

theorem files_inOrder_of_walk : ∃ rels : List (List FileName),
    Visit.files vs = rels.map (Path.beneath (Path.absolute cwd root)) ∧ (∀ rel ∈ rels, rel ≠ []) ∧
      rels.Pairwise FileName.Before := by
  obtain ⟨⟨top, hl, hn⟩, hvs, -⟩ := walk_eq_ok_iff.mp hw
  have hx : fs.examineEntry cwd top (Path.absolute cwd root) = .ok (.directory .listing) := by
    simp only [examineEntry, hn]
  have hsound : Pending.Sound fs cwd ⟨Path.absolute cwd root, top, levels + 1⟩ := .root hl
  have hs : fs.VisitStep cwd [] ⟨Path.absolute cwd root, top, levels + 1⟩ _ _ _ :=
    .entered hx rfl List.not_mem_nil hl hn
  obtain ⟨below, hbelow, hsorted, hentry⟩ := @exists_below fs (Path.absolute cwd root) _ [] hs.path_eq
  obtain ⟨rels, hfiles, hrels, hfrom⟩ := files_inOrder [fs.realPath (Path.absolute cwd root)] (hs.sound hsound) below
    (hs.map_path_next.trans hbelow) hsorted
  refine ⟨rels, ?_, ?_, hrels⟩
  · rw [hvs, visitsOf, outset_of_locate hl, visits_of_step hs, List.append_nil, ← hfiles]
    rfl
  · intro rel hrel
    obtain ⟨q, hq, hqr⟩ := hfrom rel hrel
    obtain ⟨n, rfl⟩ := hentry q hq
    rintro rfl
    cases List.prefix_nil.mp hqr

theorem walk_eq_of_node?_eq {fs' : FileSystem} (h : ∀ loc, fs'.node? loc = fs.node? loc) :
    fs'.walk levels cwd root = .ok vs := by
  obtain ⟨⟨top, hl, hn⟩, hvs, hdeep⟩ := walk_eq_ok_iff.mp hw
  have hkeeps : ∀ {fs fs' : FileSystem}, (∀ loc, fs'.node? loc = fs.node? loc) → fs.Keeps fs' :=
    fun h loc node hn => ⟨node, (h loc).trans hn, rfl⟩
  have hshape : fs.SameShape fs' := ⟨hkeeps h, hkeeps fun loc => (h loc).symm⟩
  exact walk_eq_ok_iff.mpr ⟨⟨top, hshape.locate_iff.mp hl, (h top).trans hn⟩, by rw [hshape.visitsOf_eq, hvs], hdeep⟩

end Walk

/-- **Files come in the order of their paths**, name by name. Whatever links are followed on the way, a walk that
returns files returns the paths of entries below its root, an absolute path that is normalised already. They are
strictly in the order of their names, each name compared by its code points. So no file is returned twice, and none
lies below another one. None of this depends on the order in which directories have their entries. -/
theorem walkFiles_inOrder {reporting : Bool} {errors : List Failure} {files : List Path}
    (h : fs.walkFiles levels cwd root reporting = (errors, .ok files)) :
    Path.IsNormal (Path.absolute cwd root) ∧
    (∃ rels : List (List FileName), files = rels.map (Path.beneath (Path.absolute cwd root)) ∧
      (∀ rel ∈ rels, rel ≠ []) ∧
      rels.Pairwise fun r s => r.map FileName.text < s.map FileName.text ∧ ¬ r <+: s ∧ ¬ s <+: r) ∧
    files.Nodup ∧
    ∀ fs' : FileSystem, (∀ loc, fs'.node? loc = fs.node? loc) →
      fs'.walkFiles levels cwd root reporting = (errors, .ok files) := by
  obtain ⟨vs, hw, rfl⟩ := walkFiles_eq_ok h
  obtain ⟨rels, hfiles, hne, horder⟩ := files_inOrder_of_walk hw
  refine ⟨Path.isNormal_absolute cwd root, ⟨rels, hfiles, hne, ?_⟩, ?_, ?_⟩
  · exact horder.imp fun h => ⟨h.map_text_lt, h.apart⟩
  · have hroot : Path.absolute cwd root ≠ [] := (Path.isTidy_absolute cwd root).1
    rw [hfiles]
    refine List.Nodup.map (fun r s h => Path.beneath_inj hroot h) (horder.imp ?_)
    rintro r s h rfl
    exact h.apart.1 (List.prefix_refl r)
  · intro fs' hnode
    rw [walkFiles_of_walk (walk_eq_of_node?_eq hw hnode), ← walkFiles_of_walk hw, h]

/-- A directory `a` with a file beside it whose name begins with the same letter, and a link out of the root. -/
def orchard : FileSystem := empty.plantAll [] [
  ⟨[.literal "r", .literal "z"], .file true []⟩,
  ⟨[.literal "r", .literal "a-b"], .file true []⟩,
  ⟨[.literal "r", .literal "m"], .link (text "../s")⟩,
  ⟨[.literal "r", .literal "a", .literal "x"], .file true []⟩,
  ⟨[.literal "s", .literal "r"], .link (text "../r")⟩,
  ⟨[.literal "s", .literal "f"], .link (text "../r/z")⟩]

theorem walkFiles_inOrder_orchard :
    orchard.walkFiles 3 [] (text "//r/../r/") true =
      ([], .ok [text "//r/a/x", text "//r/a-b", text "//r/m/f", text "//r/z"]) ∧
    ∃ rels : List (List FileName),
      [text "//r/a/x", text "//r/a-b", text "//r/m/f", text "//r/z"] = rels.map (Path.beneath (text "//r")) ∧
      rels.Pairwise fun r s => r.map FileName.text < s.map FileName.text ∧ ¬ r <+: s ∧ ¬ s <+: r := by
  have h : orchard.walkFiles 3 [] (text "//r/../r/") true =
      ([], .ok [text "//r/a/x", text "//r/a-b", text "//r/m/f", text "//r/z"]) := by cbv
  obtain ⟨-, ⟨rels, hfiles, -, horder⟩, -⟩ := walkFiles_inOrder h
  exact ⟨h, rels, hfiles, horder⟩

end FileSystem

end ExtensionAudit
