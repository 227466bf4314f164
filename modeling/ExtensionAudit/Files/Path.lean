import ExtensionAudit.Files.Name

/-!
# Paths as text

* `Path.join`, `Path.base`, `Path.parent`: putting paths together and taking them apart;
* `Path.normalize`: a path without empty, `.` and `..` components, by its text alone;
* `Path.ofNames`, `Path.ofLocation`: the absolute path of some names, and of a location.
-/

namespace ExtensionAudit

/-- A path as it is written. -/
abbrev Path := Text

namespace Path

/-- Does the path start at the root? -/
def isAbsolute (p : Path) : Bool := p.head? == some slash

/-- The components between slashes; two slashes in a row have an empty one between them. -/
def components (p : Path) : List Text := p.splitOnP (· == slash)

/-- `p` seen from the directory `dir`. -/
def join (dir p : Path) : Path :=
  if isAbsolute p then p
  else if dir.isEmpty || dir.getLast? == some slash then dir ++ p
  else dir ++ slash :: p

/-- What stands after the last slash. -/
def base (p : Path) : Text := (p.reverse.takeWhile (· != slash)).reverse

/-- What stands before the last slash, without the slashes at its end unless it has nothing else. -/
def parent (p : Path) : Path :=
  let upToSlash := p.reverse.dropWhile (· != slash)
  let bare := upToSlash.dropWhile (· == slash)
  (if bare.isEmpty then upToSlash else bare).reverse

theorem length_parent_le (p : Path) : (parent p).length ≤ (p.reverse.dropWhile (· != slash)).length := by
  have h := List.Sublist.length_le
    (List.dropWhile_sublist (· == slash) (l := p.reverse.dropWhile (· != slash)))
  unfold parent
  simp only [List.length_reverse]
  split
  · exact Nat.le_refl _
  · exact h

/-- The part before the last slash is shorter, unless nothing follows the slash. -/
theorem length_parent_lt {p : Path} (h : base p ≠ []) : (parent p).length < p.length := by
  have hl : (p.reverse.takeWhile (· != slash)).length + (p.reverse.dropWhile (· != slash)).length
      = p.length := by
    rw [← List.length_append, List.takeWhile_append_dropWhile, List.length_reverse]
  have hb : 0 < (p.reverse.takeWhile (· != slash)).length := by
    rw [List.length_pos_iff]
    intro e
    exact h (by rw [base, e]; rfl)
  have := length_parent_le p
  omega

/-- The slashes that a normalised path begins with: one for one and for three or more, and two for two. -/
def leadingSlashes (p : Path) : Path :=
  if !isAbsolute p then []
  else if p.startsWith [slash, slash] && !p.startsWith [slash, slash, slash] then [slash, slash]
  else [slash]

/-- One more component of a normalised path; the components so far stand last first. A parent component
takes back the one before it; at the root it has nothing to take back. -/
def pushComponent (absolute : Bool) (reversed : List Text) (c : Text) : List Text :=
  if c = [] ∨ c = text "." then reversed
  else if c ≠ text ".." then c :: reversed
  else match reversed with
    | [] => if absolute then [] else [c]
    | last :: before => if last = text ".." then c :: reversed else before

/-- The path without empty components, `.` and `..`, as far as the text alone allows. -/
def normalize (p : Path) : Path :=
  let kept := (components p).foldl (pushComponent (isAbsolute p)) []
  let short := leadingSlashes p ++ [slash].intercalate kept.reverse
  if short.isEmpty then text "." else short

/-- The absolute path of some names. -/
def ofNames (names : List Text) : Path := slash :: [slash].intercalate names

/-- The absolute path of a location. -/
def ofLocation (loc : Location) : Path := ofNames (loc.map FileName.text)

/-- The absolute normalised form of a path seen from `cwd`. -/
def absolute (cwd : Location) (p : Path) : Path := normalize (join (ofLocation cwd) p)

/-- The last component of the normalised path. -/
def lastComponent (p : Path) : Text := base (normalize p)

end Path

end ExtensionAudit
