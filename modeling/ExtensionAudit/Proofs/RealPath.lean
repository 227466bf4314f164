import ExtensionAudit.Files.RealPath
import ExtensionAudit.Proofs.Groups
import ExtensionAudit.Proofs.Lookup

/-!
# Real paths and locations

The real path of a path is made of answers of the file system, and a path that is too long gets none. Where the path of
every link is short, that makes no difference: the real path is that of the location to which the path leads.

* `Path.ofLocation_concat`: the paths of locations;
* `Path.beneath`, `Path.beneath_inj`: the paths of the entries below a directory;
* `FileSystem.followLinks_append_of_leads`: steps that a lookup can leave out;
* `FileSystem.IsExposed`: entries to which a lookup from the root can come;
* `FileSystem.pathLeads_ofLocation`: the path of such an entry leads to it;
* `FileSystem.HasShortLinksAt`, `FileSystem.HasShortLinks`: trees where the path of every link is short;
* `FileSystem.resolveLinks_of_leads`, **`FileSystem.realPath_eq`**: the real path of a path that leads somewhere.
-/

namespace ExtensionAudit

/-! ## The paths of locations -/

namespace Path

theorem intercalate_concat {cs : List Text} (h : cs ≠ []) (c : Text) :
    [slash].intercalate (cs ++ [c]) = [slash].intercalate cs ++ slash :: c := by
  induction cs with
  | nil => exact absurd rfl h
  | cons d cs ih =>
    by_cases hcs : cs = []
    · simp [hcs]
    · rw [List.cons_append, List.intercalate_cons_of_ne_nil (by simp), ih hcs, List.intercalate_cons_of_ne_nil hcs,
        List.append_assoc (d ++ [slash])]

theorem ofLocation_ne_nil (loc : Location) : ofLocation loc ≠ [] := List.cons_ne_nil _ _

theorem isAbsolute_ofLocation (loc : Location) : isAbsolute (ofLocation loc) = true := rfl

theorem ofLocation_concat (loc : Location) (name : FileName) :
    ofLocation (loc ++ [name]) = join (ofLocation loc) name.text := by
  by_cases hloc : loc = []
  · rw [hloc, List.nil_append, ofLocation_singleton, join, isAbsolute_name]
    rfl
  have hlast : (ofLocation loc).getLast? ≠ some slash := by
    obtain ⟨init, last, rfl⟩ := (List.eq_nil_or_concat loc).resolve_left hloc
    rw [ofLocation, ofNames, List.concat_eq_append, List.map_append, List.map_singleton, ← List.singleton_append,
      List.getLast?_append_of_ne_nil, getLast?_intercalate _ _ last.text_ne_nil]
    · exact fun h => last.slash_notMem (List.mem_of_getLast? h)
    · intro h
      have hl := getLast?_intercalate (init.map FileName.text) last.text last.text_ne_nil
      rw [h] at hl
      exact last.text_ne_nil (List.getLast?_eq_none_iff.mp hl.symm)
  have hjoin : join (ofLocation loc) name.text = ofLocation loc ++ slash :: name.text := by
    rcases join_name (ofLocation_ne_nil loc) name with ⟨q, hq, -⟩ | ⟨-, hj⟩
    · exact absurd (by rw [hq, List.getLast?_concat]) hlast
    · exact hj
  rw [hjoin, ofLocation, ofNames, List.map_append, List.map_singleton, intercalate_concat (by simpa using hloc)]
  rfl

end Path

namespace FileSystem

/-- The steps down to an entry. -/
def stepsTo (rel : List FileName) : List Step := rel.map fun name => .down name.text

theorem stepsTo_concat (rel : List FileName) (name : FileName) :
    stepsTo (rel ++ [name]) = stepsTo rel ++ [.down name.text] := List.map_append

theorem stepsTo_injective {rel rel' : List FileName} (h : stepsTo rel = stepsTo rel') : rel = rel' :=
  List.map_injective_iff.mpr (fun _ _ h => FileName.text_injective (Step.down.inj h)) h

end FileSystem

/-! ## The paths of entries below a directory -/

namespace Path

/-- The path of an entry below the directory at the end of a path. -/
def beneath (p : Path) (rel : List FileName) : Path := rel.foldl (fun p name => join p name.text) p

variable {p : Path}

theorem beneath_concat (p : Path) (rel : List FileName) (name : FileName) :
    beneath p (rel ++ [name]) = join (beneath p rel) name.text := List.foldl_concat ..

theorem beneath_ne_nil (hp : p ≠ []) (rel : List FileName) : beneath p rel ≠ [] := by
  induction rel using List.reverseRecOn with
  | nil => exact hp
  | append_singleton rel name _ =>
    rw [beneath_concat]
    exact join_ne_nil _ name

theorem nul_notMem_beneath (hz : nul ∉ p) (rel : List FileName) : nul ∉ beneath p rel := by
  induction rel using List.reverseRecOn with
  | nil => exact hz
  | append_singleton rel name ih =>
    rw [beneath_concat]
    exact nul_notMem_join ih name.nul_notMem

theorem ofPath_beneath (hp : p ≠ []) (rel : List FileName) :
    (Route.ofPath (beneath p rel)).absolute = isAbsolute p ∧
      (Route.ofPath (beneath p rel)).steps = (Route.ofPath p).steps ++ FileSystem.stepsTo rel := by
  induction rel using List.reverseRecOn with
  | nil => exact ⟨rfl, (List.append_nil _).symm⟩
  | append_singleton rel name ih =>
    rw [beneath_concat, Route.ofPath_join (beneath_ne_nil hp rel)]
    exact ⟨ih.1, by rw [ih.2, FileSystem.stepsTo_concat, List.append_assoc]⟩

theorem slashed_beneath (hp : p ≠ []) {rel : List FileName} (hrel : rel ≠ []) :
    (Route.ofPath (beneath p rel)).slashed = false := by
  rcases List.eq_nil_or_concat rel with rfl | ⟨init, name, rfl⟩
  · exact absurd rfl hrel
  · rw [List.concat_eq_append, beneath_concat, Route.ofPath_join (beneath_ne_nil hp init)]

theorem size_join_le (p : Path) (name : FileName) : Utf8.size (join p name.text) ≤
    Utf8.size p + (maxNameBytes + 1) := by
  have hname : Utf8.size name.text ≤ maxNameBytes := name.valid.2.2.2.2.2.2
  have happend : ∀ t t' : Text, Utf8.size (t ++ t') = Utf8.size t + Utf8.size t' := fun t t' => by
    rw [Utf8.size, Utf8.encodeAll_append, List.length_append, Utf8.size, Utf8.size]
  have hslash : Utf8.size [slash] = 1 := by decide
  rw [join, isAbsolute_name]
  simp only [Bool.false_eq_true, if_false]
  split
  · rw [happend]
    omega
  · rw [show p ++ slash :: name.text = p ++ [slash] ++ name.text by simp, happend, happend, hslash]
    omega

theorem size_beneath_le (p : Path) (rel : List FileName) :
    Utf8.size (beneath p rel) ≤ Utf8.size p + rel.length * (maxNameBytes + 1) := by
  induction rel using List.reverseRecOn with
  | nil => simp [beneath]
  | append_singleton rel name ih =>
    have hstep := size_join_le (beneath p rel) name
    rw [beneath_concat, List.length_append, List.length_singleton, Nat.add_mul, Nat.one_mul]
    omega

theorem beneath_inj (hp : p ≠ []) {rel rel' : List FileName} (h : beneath p rel = beneath p rel') : rel = rel' := by
  have hsteps := (ofPath_beneath hp rel).2
  rw [h, (ofPath_beneath hp rel').2, List.append_cancel_left_eq] at hsteps
  exact (FileSystem.stepsTo_injective hsteps).symm

theorem ofLocation_eq_beneath (loc : Location) : ofLocation loc = beneath [slash] loc := by
  induction loc using List.reverseRecOn with
  | nil => rfl
  | append_singleton loc name ih => rw [ofLocation_concat, beneath_concat, ih]

theorem ofLocation_injective {loc loc' : Location} (h : ofLocation loc = ofLocation loc') : loc = loc' := by
  rw [ofLocation_eq_beneath, ofLocation_eq_beneath] at h
  exact beneath_inj (List.cons_ne_nil _ _) h

end Path

theorem Route.steps_ofLocation (loc : Location) :
    (ofPath (Path.ofLocation loc)).steps = FileSystem.stepsTo loc := by
  rw [Path.ofLocation_eq_beneath, (Path.ofPath_beneath (List.cons_ne_nil _ _) loc).2]
  rfl

namespace FileSystem

variable {fs : FileSystem} {cwd loc target : Location} {steps : List Step} {slashed : Bool} {k : ℕ}

/-! ## Lookups of entries -/

theorem followLinks_append_of_leads {purpose : Purpose} {first second : List Step} {slashed' : Bool}
    {mid : Location} (h : fs.Leads 0 loc first slashed' mid) (hs : second ≠ []) (links : ℕ) :
    fs.followLinks purpose links loc (first ++ second) slashed = fs.followLinks purpose links mid second slashed := by
  generalize hk : 0 = k at h
  induction h with
  | here => rfl
  | stay hd _ ih => rw [FileSystem.followLinks_eq, List.cons_append, follow_stay hd, ← FileSystem.followLinks_eq, ih hk]
  | up hd _ ih => rw [FileSystem.followLinks_eq, List.cons_append, follow_up hd, ← FileSystem.followLinks_eq, ih hk]
  | @down _ _ _ rest _ _ _ hd hn hl _ ih =>
    have hw : ¬ WantsDirectory purpose (rest ++ second) slashed :=
      fun hw => hs (List.append_eq_nil_iff.mp hw.2.1).2
    rw [FileSystem.followLinks_eq, List.cons_append, follow_down hd hn hl hw, ← FileSystem.followLinks_eq, ih hk]
  | link => cases hk

/-- Every directory above the location lets paths through. -/
def IsExposed (fs : FileSystem) (loc : Location) : Prop := ∀ dir, dir <+: loc → dir ≠ loc → fs.isPassable dir = true

theorem isExposed_root (fs : FileSystem) : fs.IsExposed [] := fun _ hp hne => absurd (List.prefix_nil.mp hp) hne

theorem isExposed_concat {dir : Location} {name : FileName} :
    fs.IsExposed (dir ++ [name]) ↔ fs.IsExposed dir ∧ fs.isPassable dir = true := by
  constructor
  · intro h
    refine ⟨fun above hp _ => h above (hp.trans (List.prefix_append _ _)) ?_, h dir (List.prefix_append _ _) (by simp)⟩
    rintro rfl
    simpa using hp.length_le
  · rintro ⟨h, hd⟩ above hp hne
    rcases List.prefix_concat_iff.mp hp with he | hp
    · exact absurd he hne
    by_cases he : above = dir
    · exact he ▸ hd
    · exact h above hp he

theorem IsExposed.concat {dir : Location} (h : fs.IsExposed dir) (hd : fs.isPassable dir = true) (name : FileName) :
    fs.IsExposed (dir ++ [name]) := isExposed_concat.mpr ⟨h, hd⟩

theorem IsExposed.dropLast (h : fs.IsExposed loc) : fs.IsExposed loc.dropLast := by
  induction loc using List.reverseRecOn with
  | nil => exact h
  | append_singleton dir name _ =>
    rw [List.dropLast_concat]
    exact (isExposed_concat.mp h).1

/-- **A lookup from the root comes to exposed entries only.** -/
theorem Leads.isExposed (h : fs.Leads k loc steps slashed target) (he : fs.IsExposed loc) : fs.IsExposed target := by
  induction h with
  | here => exact he
  | stay _ _ ih => exact ih he
  | up _ _ ih => exact ih he.dropLast
  | down hd _ _ _ ih => exact ih (he.concat hd _)
  | link _ _ _ _ ih =>
    refine ih ?_
    split
    · exact fs.isExposed_root
    · exact he

/-- **The path of an exposed entry** leads to it, and through no link. -/
theorem pathLeads_ofLocation (h : fs.IsSolid loc) (he : fs.IsExposed loc) (cwd : Location) :
    fs.PathLeads cwd 0 (Path.ofLocation loc) loc := by
  induction loc using List.reverseRecOn with
  | nil => exact ⟨by decide, Path.ofLocation_ne_nil _, .here fun _ => fs.isDirectory_root⟩
  | append_singleton dir name ih =>
    obtain ⟨node, hn, hl⟩ := h
    obtain ⟨he, hd⟩ := isExposed_concat.mp he
    rw [Path.ofLocation_concat]
    exact (ih (isSolid_of_isDirectory (isDirectory_of_node? hn)) he).join (leads_entry hd hn hl)

theorem followLinks_name {dir : Location} {name : FileName} {node : Node} (hd : fs.isPassable dir = true)
    (hn : fs.node? (dir ++ [name]) = some node) (links : ℕ) :
    fs.followLinks .name links dir [.down name.text] false = .ok (.entry (dir ++ [name])) := by
  rw [followLinks_eq, nameStep_iff hd]
  have hw : ¬ WantsDirectory .name [] false := not_wantsDirectory (by simp)
  cases node with
  | link path => exact .named hw hn ⟨rfl, rfl⟩
  | _ => exact .down hw hn (fun path => by simp) (follow_nil (by simp))

theorem readLink?_ofLocation {dir : Location} {name : FileName} {node : Node} (he : fs.IsExposed (dir ++ [name]))
    (hn : fs.node? (dir ++ [name]) = some node) (hs : (Path.ofLocation (dir ++ [name])).IsShort) :
    fs.readLink? (Path.ofLocation (dir ++ [name])) = match node with
      | .link path => some path
      | _ => none := by
  obtain ⟨he, hd⟩ := isExposed_concat.mp he
  have hdir := fs.pathLeads_ofLocation (isSolid_of_isDirectory (isDirectory_of_node? hn)) he []
  have hleads : fs.Leads 0 [] (stepsTo dir) (Route.ofPath (Path.ofLocation dir)).slashed dir := by
    have h := hdir.leads
    rwa [Path.isAbsolute_ofLocation, if_pos rfl, Route.steps_ofLocation] at h
  have hslashed : (Route.ofPath (Path.ofLocation (dir ++ [name]))).slashed = false := by
    rw [Path.ofLocation_concat, Route.ofPath_join (Path.ofLocation_ne_nil _)]
  rw [readLink?, resolve_eq (Path.nul_notMem_ofLocation _) (Path.ofLocation_ne_nil _) hs, Path.isAbsolute_ofLocation,
    if_pos rfl, Route.steps_ofLocation, stepsTo_concat, hslashed, followLinks_append_of_leads hleads (by simp),
    followLinks_name hd hn]
  simp only [hn]
  cases node <;> rfl

/-! ## Real paths -/

/-- The path of every link is short enough to be looked up if the tree lies at the location. -/
def HasShortLinksAt (tree : FileSystem) (base : Location) : Prop :=
  ∀ loc path, tree.node? loc = some (.link path) → (Path.ofLocation (base ++ loc)).IsShort

/-- The path of every link is short enough to be looked up. -/
def HasShortLinks (fs : FileSystem) : Prop := fs.HasShortLinksAt []

theorem hasShortLinksAt_iff {base : Location} : fs.HasShortLinksAt base ↔
    ∀ e ∈ fs.entries, (e.2 matches .link _) = true → (Path.ofLocation (base ++ e.1)).IsShort := by
  constructor
  · rintro h ⟨loc, node⟩ he hlink
    cases node with
    | link path => exact h loc path ((Table.mem_iff_get? fs.nodup).mp he)
    | _ => cases hlink
  · intro h loc path hn
    exact h (loc, .link path) ((Table.mem_iff_get? fs.nodup).mpr hn) rfl

instance (base : Location) : Decidable (fs.HasShortLinksAt base) := decidable_of_iff' _ hasShortLinksAt_iff

instance : Decidable fs.HasShortLinks := inferInstanceAs (Decidable (fs.HasShortLinksAt []))

/-- What is done at a link when so many links may be gone through in all. -/
def resolveNext (fs : FileSystem) : ℕ → List Text → List Step → List Text
  | 0 => fun names _ => names
  | links + 1 => fs.resolveLinks links

theorem resolveLinks_eq (links : ℕ) : fs.resolveLinks links = fs.resolveNames (fs.resolveNext links) := by
  cases links <;> rfl

/-- The names of a location, of which the last one stands first. -/
def namesTo (loc : Location) : List Text := (loc.map FileName.text).reverse

theorem namesTo_concat (loc : Location) (name : FileName) : namesTo (loc ++ [name]) = name.text :: namesTo loc := by
  simp [namesTo]

section Names

variable {jump : List Text → List Step → List Text} {dir : Location} {name : FileName} {rest : List Step}

theorem resolveNames_up : fs.resolveNames jump (namesTo loc) (.up :: rest) =
    fs.resolveNames jump (namesTo loc.dropLast) rest := by
  rw [resolveNames, namesTo, namesTo, List.tail_reverse, ← List.map_dropLast]

theorem ofNames_cons_namesTo : Path.ofNames (name.text :: namesTo dir).reverse = Path.ofLocation (dir ++ [name]) := by
  rw [← namesTo_concat, namesTo, List.reverse_reverse]
  rfl

theorem resolveNames_down {node : Node} (he : fs.IsExposed (dir ++ [name])) (hn : fs.node? (dir ++ [name]) = some node)
    (hl : ∀ path, node ≠ .link path) : fs.resolveNames jump (namesTo dir) (.down name.text :: rest) =
      fs.resolveNames jump (namesTo (dir ++ [name])) rest := by
  have hread : fs.readLink? (Path.ofLocation (dir ++ [name])) = none := by
    by_cases hs : (Path.ofLocation (dir ++ [name])).IsShort
    · rw [readLink?_ofLocation he hn hs]
      cases node with
      | link path => exact absurd rfl (hl path)
      | _ => rfl
    · rw [readLink?, resolve_of_not_isShort (Path.nul_notMem_ofLocation _) hs]
  rw [resolveNames, ofNames_cons_namesTo, hread, namesTo_concat]

theorem resolveNames_link {path : Path} (he : fs.IsExposed (dir ++ [name]))
    (hn : fs.node? (dir ++ [name]) = some (.link path))
    (hs : (Path.ofLocation (dir ++ [name])).IsShort) : fs.resolveNames jump (namesTo dir) (.down name.text :: rest) =
      jump (namesTo (if Path.isAbsolute path then [] else dir)) ((Route.ofPath path).steps ++ rest) := by
  rw [resolveNames, ofNames_cons_namesTo, readLink?_ofLocation he hn hs]
  show jump (if Path.isAbsolute path then [] else namesTo dir) _ = _
  split <;> rfl

end Names

theorem resolveLinks_append_of_leads {first second : List Step} {mid : Location} (he : fs.IsExposed loc)
    (h : fs.Leads 0 loc first slashed mid) (links : ℕ) :
    fs.resolveLinks links (namesTo loc) (first ++ second) = fs.resolveLinks links (namesTo mid) second := by
  generalize hk : 0 = k at h
  induction h with
  | here => rfl
  | stay _ _ ih => rw [resolveLinks_eq, List.cons_append, resolveNames, ← resolveLinks_eq, ih he hk]
  | up _ _ ih => rw [resolveLinks_eq, List.cons_append, resolveNames_up, ← resolveLinks_eq, ih he.dropLast hk]
  | down hd hn hl _ ih =>
    rw [resolveLinks_eq, List.cons_append, resolveNames_down (he.concat hd _) hn hl, ← resolveLinks_eq,
      ih (he.concat hd _) hk]
  | link => cases hk

/-- **What is left of steps that lead somewhere** when the links are replaced: the names of the location. -/
theorem resolveLinks_of_leads (hs : fs.HasShortLinks) (he : fs.IsExposed loc)
    (h : fs.Leads k loc steps slashed target) {links : ℕ} (hk : k ≤ links) :
    fs.resolveLinks links (namesTo loc) steps = namesTo target := by
  induction h generalizing links with
  | here => rw [resolveLinks_eq]; rfl
  | stay _ _ ih => rw [resolveLinks_eq, resolveNames, ← resolveLinks_eq, ih he hk]
  | up _ _ ih => rw [resolveLinks_eq, resolveNames_up, ← resolveLinks_eq, ih he.dropLast hk]
  | down hd hn hl _ ih =>
    rw [resolveLinks_eq, resolveNames_down (he.concat hd _) hn hl, ← resolveLinks_eq, ih (he.concat hd _) hk]
  | link hd hn _ _ ih =>
    obtain ⟨links, rfl⟩ := Nat.exists_eq_add_of_le' (Nat.one_le_of_lt hk)
    rw [resolveLinks_eq, resolveNames_link (he.concat hd _) hn (hs _ _ hn)]
    refine ih ?_ (Nat.le_of_succ_le_succ hk)
    split
    · exact fs.isExposed_root
    · exact he

theorem realPath_of_resolveLinks {p : Path} (h : fs.resolveLinks maxLinks [] (Route.ofPath p).steps = namesTo loc) :
    fs.realPath p = Path.ofLocation loc := by
  rw [realPath, h, namesTo, List.reverse_reverse]
  rfl

/-- **The real path of a path that leads somewhere** is that of the location, however long the path is. -/
theorem realPath_eq (hs : fs.HasShortLinks) {p : Path} (ha : Path.isAbsolute p = true) (h : fs.Arrives cwd p loc) :
    fs.realPath p = Path.ofLocation loc := by
  obtain ⟨k, hk, h⟩ := h
  have hleads := h.leads
  rw [if_pos ha] at hleads
  exact realPath_of_resolveLinks (resolveLinks_of_leads hs fs.isExposed_root hleads hk)

end FileSystem

end ExtensionAudit
