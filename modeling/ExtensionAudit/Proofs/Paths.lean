import Mathlib
import ExtensionAudit.Files.Lookup
import ExtensionAudit.Proofs.Lines

/-!
# Paths below a directory

The path of an entry is the path of its directory, a slash and a name. Taking such a path apart gives back
the two, and looking it up is looking up the directory and then the name.

* `Path.IsTidy`: no slash at the end, unless there is nothing but slashes;
* `Path.base_append`: what stands behind the last slash;
* `Path.parent_join`, `Path.base_join`: taking the path of an entry apart;
* `Path.isTidy_absolute`, `Path.isTidy_join`: the paths that a walk works with are tidy;
* `Path.IsNormal`, `Path.isNormal_ofLocation`: absolute paths that normalising leaves as they are;
* **`Path.isNormal_absolute`**: normalising once is enough;
* `Path.lastComponent_join`: the last component of the path of an entry;
* **`Route.ofPath_join`**: the route to an entry is the route to its directory and one step down;
* `Path.nul_notMem_absolute`: the code point that no path may hold comes into no path.
-/

namespace ExtensionAudit

namespace FileName

variable (n : FileName)

theorem text_ne_nil : n.text ≠ [] := n.valid.1

theorem slash_notMem : slash ∉ n.text := n.valid.2.2.2.1

theorem nul_notMem : nul ∉ n.text := n.valid.2.2.2.2.1

theorem text_injective {a b : FileName} (h : a.text = b.text) : a = b := by
  cases a; cases b; cases h; rfl

@[simp]
theorem ofText?_text : ofText? n.text = some n := dif_pos n.valid

/-- The name that a literal spells. The test runs where the literal stands. -/
def literal (s : String) (h : decide (IsFileName (ExtensionAudit.text s)) = true := by exact Eq.refl true) : FileName :=
  ⟨_, of_decide_eq_true h⟩

/-- The name of the manifest of a package. -/
def manifest : FileName := literal "package.json"

theorem text_of_ofText? {t : Text} {n : FileName} (h : ofText? t = some n) : n.text = t := by
  unfold ofText? at h
  split at h
  · cases h; rfl
  · cases h

end FileName

namespace Path

/-! ## Taking a path apart -/

/-- A path that does not end in a slash, unless it consists of slashes. -/
def IsTidy (p : Path) : Prop := p ≠ [] ∧ (p.getLast? = some slash → ∀ c ∈ p, c = slash)

theorem isAbsolute_name (n : FileName) : isAbsolute n.text = false := by
  have h := n.slash_notMem
  unfold isAbsolute
  cases ht : n.text with
  | nil => rfl
  | cons c t =>
    rw [ht, List.mem_cons, not_or] at h
    simpa using Ne.symm h.1

theorem join_name {p : Path} (hp : p ≠ []) (n : FileName) :
    (∃ q, p = q ++ [slash] ∧ join p n.text = q ++ slash :: n.text) ∨
      (p.getLast? ≠ some slash ∧ join p n.text = p ++ slash :: n.text) := by
  have he : p.isEmpty = false := by simpa using hp
  unfold join
  rw [isAbsolute_name, he]
  by_cases hl : p.getLast? = some slash
  · obtain ⟨q, rfl⟩ := List.getLast?_eq_some_iff.mp hl
    exact Or.inl ⟨q, rfl, by simp⟩
  · exact Or.inr ⟨hl, by simp [hl]⟩

theorem reverse_ne_slash {t : Text} (h : slash ∉ t) : ∀ c ∈ t.reverse, (c != slash) = true := by
  intro c hc
  rw [List.mem_reverse] at hc
  simpa using fun e : c = slash => h (e ▸ hc)

theorem base_append {q t : Path} (hq : q = [] ∨ ∃ r, q = r ++ [slash]) (ht : slash ∉ t) : base (q ++ t) = t := by
  rw [base, List.reverse_append, List.takeWhile_append_of_pos (reverse_ne_slash ht)]
  rcases hq with rfl | ⟨r, rfl⟩
  · rw [List.reverse_nil, List.takeWhile_nil, List.append_nil, List.reverse_reverse]
  · rw [List.reverse_concat, List.takeWhile_cons_of_neg (by simp), List.append_nil, List.reverse_reverse]

theorem base_slash_name (q : Path) (n : FileName) : base (q ++ slash :: n.text) = n.text := by
  rw [← List.singleton_append, ← List.append_assoc]
  exact base_append (Or.inr ⟨q, rfl⟩) n.slash_notMem

theorem dropWhile_slash_name (q : Path) (n : FileName) :
    (q ++ slash :: n.text).reverse.dropWhile (· != slash) = slash :: q.reverse := by
  rw [List.reverse_append, List.reverse_cons, List.append_assoc,
    List.dropWhile_append_of_pos (reverse_ne_slash n.slash_notMem), List.singleton_append,
    List.dropWhile_cons_of_neg (by simp)]

theorem base_join {p : Path} (hp : p ≠ []) (n : FileName) : base (join p n.text) = n.text := by
  rcases join_name hp n with ⟨q, -, hj⟩ | ⟨-, hj⟩
  · rw [hj, base_slash_name]
  · rw [hj, base_slash_name]

theorem parent_join {p : Path} (hp : IsTidy p) (n : FileName) : parent (join p n.text) = p := by
  rcases join_name hp.1 n with ⟨q, rfl, hj⟩ | ⟨hl, hj⟩
  · have hall := hp.2 (by simp)
    have hq : (slash :: q.reverse).dropWhile (· == slash) = [] := by
      rw [List.dropWhile_eq_nil_iff]
      intro c hc
      have := hall c (by simpa [or_comm] using hc)
      simpa using this
    unfold parent
    rw [hj, dropWhile_slash_name]
    simp only [hq, List.isEmpty_nil, if_true, List.reverse_cons, List.reverse_reverse]
  · have hb : (slash :: p.reverse).dropWhile (· == slash) = p.reverse := by
      rw [List.dropWhile_cons_of_pos (by simp)]
      cases hr : p.reverse with
      | nil => rfl
      | cons c r =>
        have hc : p.getLast? = some c := by
          rw [List.getLast?_eq_head?_reverse, hr]; rfl
        have hne : c ≠ slash := fun e => hl (e ▸ hc)
        rw [List.dropWhile_cons_of_neg (by simpa using hne)]
    have he : p.reverse.isEmpty = false := by simpa using hp.1
    unfold parent
    rw [hj, dropWhile_slash_name]
    simp only [hb, he, Bool.false_eq_true, if_false, List.reverse_reverse]

/-! ## Tidy paths -/

theorem getLast?_append_name (q : Path) (n : FileName) : (q ++ n.text).getLast? ≠ some slash := by
  rw [List.getLast?_append_of_ne_nil _ n.text_ne_nil]
  exact fun h => n.slash_notMem (List.mem_of_getLast? h)

theorem getLast?_join (p : Path) (n : FileName) : (join p n.text).getLast? ≠ some slash := by
  unfold join
  rw [isAbsolute_name]
  simp only [Bool.false_eq_true, if_false]
  split
  · exact getLast?_append_name p n
  · rw [List.append_cons]
    exact getLast?_append_name (p ++ [slash]) n

theorem join_ne_nil (p : Path) (n : FileName) : join p n.text ≠ [] := by
  unfold join
  rw [isAbsolute_name]
  simp only [Bool.false_eq_true, if_false]
  split <;> simp [n.text_ne_nil]

theorem isTidy_join (p : Path) (n : FileName) : IsTidy (join p n.text) :=
  ⟨join_ne_nil p n, fun h => absurd h (getLast?_join p n)⟩

theorem slash_notMem_components (p : Path) : ∀ c ∈ components p, slash ∉ c := by
  intro c hc hs
  simpa using (Text.of_mem_splitOnP hc slash hs).1

theorem mem_pushComponent {abs : Bool} {kept : List Text} {c k : Text} (h : k ∈ pushComponent abs kept c) :
    k ∈ kept ∨ (k = c ∧ c ≠ []) := by
  unfold pushComponent at h
  split at h
  · exact Or.inl h
  · next hn =>
    rw [not_or] at hn
    have hcons : k ∈ c :: kept → k ∈ kept ∨ (k = c ∧ c ≠ []) := by
      intro hm
      rcases List.mem_cons.mp hm with rfl | hm
      · exact Or.inr ⟨rfl, hn.1⟩
      · exact Or.inl hm
    split at h
    · exact hcons h
    · split at h
      · split at h
        · exact absurd h List.not_mem_nil
        · exact Or.inr ⟨List.mem_singleton.mp h, hn.1⟩
      · split at h
        · exact hcons h
        · exact Or.inl (List.mem_cons_of_mem _ h)

theorem mem_foldl_pushComponent {abs : Bool} {cs kept : List Text} {k : Text}
    (h : k ∈ cs.foldl (pushComponent abs) kept) : k ∈ kept ∨ (k ∈ cs ∧ k ≠ []) := by
  induction cs generalizing kept with
  | nil => exact Or.inl h
  | cons c cs ih =>
    rcases ih h with hk | ⟨hk, hn⟩
    · rcases mem_pushComponent hk with hk | ⟨rfl, hn⟩
      · exact Or.inl hk
      · exact Or.inr ⟨List.mem_cons_self .., hn⟩
    · exact Or.inr ⟨List.mem_cons_of_mem _ hk, hn⟩

theorem of_mem_kept {p : Path} {k : Text} (h : k ∈ (components p).foldl (pushComponent (isAbsolute p)) []) :
    k ∈ components p ∧ k ≠ [] :=
  (mem_foldl_pushComponent h).resolve_left List.not_mem_nil

theorem getLast?_intercalate (cs : List Text) (c : Text) (hc : c ≠ []) :
    ([slash].intercalate (cs ++ [c])).getLast? = c.getLast? := by
  induction cs with
  | nil => simp
  | cons d cs ih =>
    rw [List.cons_append, List.intercalate_cons_of_ne_nil (by simp)]
    rw [List.getLast?_append_of_ne_nil _ ?_, ih]
    intro h
    rw [h] at ih
    exact hc (List.getLast?_eq_none_iff.mp ih.symm)

theorem mem_leadingSlashes {p : Path} : ∀ c ∈ leadingSlashes p, c = slash := by
  unfold leadingSlashes
  split
  · simp
  · split <;> simp

theorem isTidy_normalize (p : Path) : IsTidy (normalize p) := by
  have hk : ∀ k ∈ (components p).foldl (pushComponent (isAbsolute p)) [], k ≠ [] ∧ slash ∉ k := by
    intro k hk
    obtain ⟨hc, hn⟩ := of_mem_kept hk
    exact ⟨hn, slash_notMem_components p k hc⟩
  unfold normalize
  generalize (components p).foldl (pushComponent (isAbsolute p)) [] = kept at hk
  simp only
  split
  · exact ⟨by decide, by decide⟩
  · next hne =>
    refine ⟨by simpa using hne, ?_⟩
    cases kept with
    | nil =>
      intro _ c hc
      rw [List.reverse_nil, List.intercalate_nil, List.append_nil] at hc
      exact mem_leadingSlashes c hc
    | cons k kept =>
      obtain ⟨hn, hs⟩ := hk k (List.mem_cons_self ..)
      have hlast := getLast?_intercalate kept.reverse k hn
      intro h
      rw [List.reverse_cons, List.getLast?_append_of_ne_nil _ ?_, hlast] at h
      · exact absurd (List.mem_of_getLast? h) hs
      · intro e
        rw [e] at hlast
        exact hn (List.getLast?_eq_none_iff.mp hlast.symm)

theorem isTidy_absolute (cwd : Location) (p : Path) : IsTidy (absolute cwd p) := isTidy_normalize _

/-! ## Normalised paths -/

/-- An absolute path that stays as it is when it is normalised. -/
structure IsNormal (p : Path) : Prop where
  isAbsolute : isAbsolute p = true
  normalize_eq : normalize p = p

theorem IsNormal.absolute_eq {p : Path} (h : IsNormal p) (cwd : Location) : absolute cwd p = p := by
  rw [absolute, join, if_pos h.isAbsolute, h.normalize_eq]

theorem components_name (n : FileName) : components n.text = [n.text] := by
  refine List.splitOnP_eq_singleton fun c hc => ?_
  simpa using fun e : c = slash => n.slash_notMem (e ▸ hc)

theorem ofLocation_singleton (n : FileName) : ofLocation [n] = slash :: n.text := by
  rw [ofLocation, ofNames, List.map_singleton, List.intercalate_singleton]

/-- A component that normalising keeps. -/
def IsKept (c : Text) : Prop := c ≠ [] ∧ c ≠ text "." ∧ c ≠ text ".."

theorem pushComponent_of_isKept {abs : Bool} {kept : List Text} {c : Text} (h : IsKept c) :
    pushComponent abs kept c = c :: kept := by
  unfold pushComponent
  rw [if_neg (not_or.mpr ⟨h.1, h.2.1⟩), if_pos h.2.2]

theorem foldl_pushComponent_of_isKept {abs : Bool} {cs : List Text} (h : ∀ c ∈ cs, IsKept c)
    (kept : List Text) : cs.foldl (pushComponent abs) kept = cs.reverse ++ kept := by
  induction cs generalizing kept with
  | nil => rfl
  | cons c cs ih =>
    rw [List.forall_mem_cons] at h
    rw [List.foldl_cons, pushComponent_of_isKept h.1, ih h.2, List.reverse_cons, List.append_assoc,
      List.singleton_append]

theorem isKept_foldl_pushComponent {cs kept : List Text} (h : ∀ k ∈ kept, IsKept k) :
    ∀ k ∈ cs.foldl (pushComponent true) kept, IsKept k := by
  induction cs generalizing kept with
  | nil => exact h
  | cons c cs ih =>
    refine ih ?_
    unfold pushComponent
    split
    · exact h
    next hc =>
    rw [not_or] at hc
    split
    · next hup => exact List.forall_mem_cons.mpr ⟨⟨hc.1, hc.2, hup⟩, h⟩
    cases kept with
    | nil => simp
    | cons last before =>
      rw [List.forall_mem_cons] at h
      simp only [if_neg h.1.2.2]
      exact h.2

theorem components_slash (p : Path) : components (slash :: p) = [] :: components p :=
  List.splitOnP_append_cons [] p (beq_self_eq_true slash)

theorem foldl_components_slashes {slashes : Path} (h : ∀ c ∈ slashes, c = slash) (abs : Bool) (p : Path)
    (kept : List Text) : (components (slashes ++ p)).foldl (pushComponent abs) kept =
      (components p).foldl (pushComponent abs) kept := by
  induction slashes with
  | nil => rfl
  | cons c slashes ih =>
    rw [List.forall_mem_cons] at h
    rw [h.1, List.cons_append, components_slash, List.foldl_cons, ← ih h.2]
    rfl

theorem components_intercalate {cs : List Text} (hne : cs ≠ []) (h : ∀ c ∈ cs, slash ∉ c) :
    components ([slash].intercalate cs) = cs :=
  List.splitOn_intercalate slash h hne

theorem foldl_components_intercalate {cs : List Text} (h : ∀ c ∈ cs, IsKept c ∧ slash ∉ c) (abs : Bool) :
    (components ([slash].intercalate cs)).foldl (pushComponent abs) [] = cs.reverse := by
  by_cases hne : cs = []
  · subst hne
    rfl
  · rw [components_intercalate hne fun c hc => (h c hc).2, foldl_pushComponent_of_isKept fun c hc => (h c hc).1,
      List.append_nil]

theorem head?_intercalate {cs : List Text} (h : ∀ c ∈ cs, IsKept c ∧ slash ∉ c) :
    ([slash].intercalate cs).head? ≠ some slash := by
  cases cs with
  | nil => simp
  | cons c cs =>
    obtain ⟨hc, hs⟩ := (List.forall_mem_cons.mp h).1
    obtain ⟨d, rest, rfl⟩ := List.exists_cons_of_ne_nil hc.1
    have hd : d ≠ slash := fun e => hs (e ▸ List.mem_cons_self ..)
    cases cs with
    | nil => simpa using hd
    | cons => simpa [List.intercalate_cons_of_ne_nil] using hd

theorem leadingSlashes_append {p q : Path} (ha : isAbsolute p = true) (hq : q.head? ≠ some slash) :
    leadingSlashes (leadingSlashes p ++ q) = leadingSlashes p := by
  have hlead : leadingSlashes p = [slash, slash] ∨ leadingSlashes p = [slash] := by
    unfold leadingSlashes
    rw [ha]
    split
    · next h => cases h
    · split <;> simp
  cases q with
  | nil => rcases hlead with h | h <;> rw [h] <;> rfl
  | cons d q =>
    have hd : slash ≠ d := fun e => hq (by rw [e]; rfl)
    rcases hlead with h | h <;> rw [h] <;> simp [leadingSlashes, isAbsolute, Text.startsWith, hd]

theorem isAbsolute_leadingSlashes {p : Path} (ha : isAbsolute p = true) (q : Path) :
    isAbsolute (leadingSlashes p ++ q) = true := by
  unfold leadingSlashes
  rw [ha]
  simp only [Bool.not_true, Bool.false_eq_true, if_false]
  split <;> rfl

theorem normalize_of_isAbsolute {p : Path} (ha : isAbsolute p = true) : normalize p =
    leadingSlashes p ++ [slash].intercalate ((components p).foldl (pushComponent true) []).reverse := by
  have hne : (leadingSlashes p ++ [slash].intercalate
      ((components p).foldl (pushComponent true) []).reverse).isEmpty = false := by
    rw [Bool.eq_false_iff, ne_eq, List.isEmpty_iff]
    intro e
    have h := isAbsolute_leadingSlashes ha ([slash].intercalate ((components p).foldl (pushComponent true) []).reverse)
    rw [e] at h
    cases h
  simp only [normalize, ha, hne, Bool.false_eq_true, if_false]

/-- **Normalising an absolute path twice** does no more than normalising it once. -/
theorem isNormal_normalize {p : Path} (ha : isAbsolute p = true) : IsNormal (normalize p) := by
  have hkept : ∀ c ∈ ((components p).foldl (pushComponent true) []).reverse, IsKept c ∧ slash ∉ c := by
    intro c hc
    rw [List.mem_reverse] at hc
    refine ⟨isKept_foldl_pushComponent (by simp) c hc, slash_notMem_components p c ?_⟩
    rw [← ha] at hc
    exact (of_mem_kept hc).1
  rw [normalize_of_isAbsolute ha]
  have habs := isAbsolute_leadingSlashes ha ([slash].intercalate ((components p).foldl (pushComponent true) []).reverse)
  refine ⟨habs, ?_⟩
  rw [normalize_of_isAbsolute habs, leadingSlashes_append ha (head?_intercalate hkept),
    foldl_components_slashes mem_leadingSlashes, foldl_components_intercalate hkept, List.reverse_reverse]

theorem isNormal_ofLocation (loc : Location) : IsNormal (ofLocation loc) := by
  have hkept : ∀ c ∈ loc.map FileName.text, IsKept c ∧ slash ∉ c := by
    intro c hc
    obtain ⟨name, -, rfl⟩ := List.mem_map.mp hc
    exact ⟨⟨name.text_ne_nil, name.valid.2.1, name.valid.2.2.1⟩, name.slash_notMem⟩
  have hleading : leadingSlashes (ofLocation loc) = [slash] :=
    leadingSlashes_append (p := [slash]) rfl (head?_intercalate hkept)
  have hfold : (components (ofLocation loc)).foldl (pushComponent true) [] = (loc.map FileName.text).reverse := by
    rw [ofLocation, ofNames, components_slash, List.foldl_cons]
    exact foldl_components_intercalate hkept true
  refine ⟨rfl, ?_⟩
  rw [normalize_of_isAbsolute rfl, hleading, hfold, List.reverse_reverse]
  rfl

theorem isAbsolute_join {dir : Path} (h : isAbsolute dir = true) (p : Path) : isAbsolute (join dir p) = true := by
  obtain ⟨c, rest, rfl⟩ : ∃ c rest, dir = c :: rest := by
    cases dir with
    | nil => cases h
    | cons c rest => exact ⟨c, rest, rfl⟩
  unfold join
  split
  · assumption
  · split <;> exact h

theorem isNormal_absolute (cwd : Location) (p : Path) : IsNormal (absolute cwd p) :=
  isNormal_normalize (isAbsolute_join rfl p)

/-! ## The last component -/

theorem exists_intercalate_concat (cs : List Text) (c : Text) :
    ∃ r, [slash].intercalate (cs ++ [c]) = r ++ c ∧ (r = [] ∨ ∃ q, r = q ++ [slash]) := by
  induction cs with
  | nil => exact ⟨[], by simp, Or.inl rfl⟩
  | cons d cs ih =>
    obtain ⟨r, hr, hend⟩ := ih
    rw [List.cons_append, List.intercalate_cons_of_ne_nil (by simp), hr]
    refine ⟨d ++ [slash] ++ r, by simp, Or.inr ?_⟩
    rcases hend with rfl | ⟨q, rfl⟩
    · exact ⟨d, by simp⟩
    · exact ⟨d ++ [slash] ++ q, by simp⟩

/-- **The last component of the path of an entry** is the name of the entry. -/
theorem lastComponent_join {p : Path} (hp : p ≠ []) (n : FileName) : lastComponent (join p n.text) = n.text := by
  obtain ⟨q, hq⟩ : ∃ q, join p n.text = q ++ slash :: n.text := by
    rcases join_name hp n with ⟨q, -, hj⟩ | ⟨-, hj⟩
    · exact ⟨q, hj⟩
    · exact ⟨p, hj⟩
  have hcomponents : components (q ++ slash :: n.text) = components q ++ [n.text] := by
    rw [← components_name n]
    exact List.splitOnP_append_cons q n.text (beq_self_eq_true slash)
  have hkept : IsKept n.text := ⟨n.valid.1, n.valid.2.1, n.valid.2.2.1⟩
  obtain ⟨r, hr, hend⟩ := exists_intercalate_concat
    ((components q).foldl (pushComponent (isAbsolute (q ++ slash :: n.text))) []).reverse n.text
  have hshort : normalize (q ++ slash :: n.text) = leadingSlashes (q ++ slash :: n.text) ++ (r ++ n.text) := by
    simp only [normalize, hcomponents, List.foldl_append, List.foldl_cons, List.foldl_nil,
      pushComponent_of_isKept hkept, List.reverse_cons, hr]
    rw [if_neg (by simp [n.text_ne_nil])]
  have hslash : leadingSlashes (q ++ slash :: n.text) = [] ∨
      ∃ q', leadingSlashes (q ++ slash :: n.text) = q' ++ [slash] := by
    rcases List.eq_nil_or_concat (leadingSlashes (q ++ slash :: n.text)) with h | ⟨q', c, h⟩
    · exact Or.inl h
    · rw [List.concat_eq_append] at h
      obtain rfl : c = slash := mem_leadingSlashes c (by rw [h]; simp)
      exact Or.inr ⟨q', h⟩
  rw [lastComponent, hq, hshort, ← List.append_assoc]
  refine base_append ?_ n.slash_notMem
  rcases hend with rfl | ⟨q', rfl⟩
  · rwa [List.append_nil]
  · exact Or.inr ⟨_, (List.append_assoc _ q' [slash]).symm⟩

end Path

/-! ## Routes -/

namespace Route

theorem steps_append_slash (p t : Path) :
    (ofPath (p ++ slash :: t)).steps = (ofPath p).steps ++ (ofPath t).steps := by
  have hc : Path.components (p ++ slash :: t) = Path.components p ++ Path.components t :=
    List.splitOnP_append_cons _ _ (beq_self_eq_true _)
  show (Path.components (p ++ slash :: t)).filterMap Step.ofComponent? = _
  rw [hc, List.filterMap_append]
  rfl

theorem steps_name (n : FileName) : (ofPath n.text).steps = [.down n.text] := by
  have hs : Step.ofComponent? n.text = some (.down n.text) := by
    unfold Step.ofComponent?
    rw [if_neg n.valid.1, if_neg n.valid.2.1, if_neg n.valid.2.2.1]
  show (Path.components n.text).filterMap Step.ofComponent? = _
  rw [Path.components_name, List.filterMap_cons_some hs, List.filterMap_nil]

theorem exists_ofComponent? {c : Text} (hc : c ≠ []) : ∃ step, Step.ofComponent? c = some step := by
  unfold Step.ofComponent?
  rw [if_neg hc]
  split
  · exact ⟨_, rfl⟩
  · split <;> exact ⟨_, rfl⟩

theorem steps_ne_nil {p : Path} (hp : p ≠ []) (ha : Path.isAbsolute p = false) : (ofPath p).steps ≠ [] := by
  obtain ⟨c, rest, rfl⟩ := List.exists_cons_of_ne_nil hp
  have hc : ¬ (c == slash) = true := by simpa [Path.isAbsolute] using ha
  obtain ⟨d, ds, hs⟩ : ∃ d ds, Path.components (c :: rest) = (c :: d) :: ds := by
    unfold Path.components
    rw [List.splitOnP_cons_eq_if_modifyHead, if_neg hc]
    obtain ⟨d, ds, hs⟩ := List.exists_cons_of_ne_nil (List.splitOnP_ne_nil (· == slash) rest)
    exact ⟨d, ds, by rw [hs]; rfl⟩
  obtain ⟨step, hstep⟩ := exists_ofComponent? (List.cons_ne_nil c d)
  show (Path.components (c :: rest)).filterMap Step.ofComponent? ≠ []
  rw [hs, List.filterMap_cons_some hstep]
  exact List.cons_ne_nil _ _

/-- **The route to an entry**: the route to its directory and one step down. -/
theorem ofPath_join {p : Path} (hp : p ≠ []) (n : FileName) :
    ofPath (Path.join p n.text) = ⟨Path.isAbsolute p, (ofPath p).steps ++ [.down n.text], false⟩ := by
  have hl : ((Path.join p n.text).getLast? == some slash) = false := by
    simpa using Path.getLast?_join p n
  have ha : Path.isAbsolute (Path.join p n.text) = Path.isAbsolute p := by
    unfold Path.isAbsolute
    rcases Path.join_name hp n with ⟨q, rfl, hj⟩ | ⟨-, hj⟩
    · rw [hj]; cases q <;> rfl
    · rw [hj, List.head?_append_of_ne_nil _ hp]
  have hs : (ofPath (Path.join p n.text)).steps = (ofPath p).steps ++ [.down n.text] := by
    rcases Path.join_name hp n with ⟨q, rfl, hj⟩ | ⟨-, hj⟩
    · have hq : (ofPath (q ++ [slash])).steps = (ofPath q).steps := by
        rw [steps_append_slash q [], show (ofPath []).steps = [] from rfl, List.append_nil]
      rw [hj, steps_append_slash, steps_name, hq]
    · rw [hj, steps_append_slash, steps_name]
  unfold ofPath at hs ⊢
  rw [ha, hl]
  exact congrArg (Route.mk _ · _) hs

end Route

/-! ## Paths without the code point that ends paths -/

namespace Path

theorem nul_notMem_join {dir p : Path} (h : nul ∉ dir) (h' : nul ∉ p) : nul ∉ join dir p := by
  unfold join
  split
  · exact h'
  · split
    · simp [h, h']
    · simp [h, h', show nul ≠ slash by decide]

theorem nul_notMem_intercalate {cs : List Text} (h : ∀ c ∈ cs, nul ∉ c) : nul ∉ [slash].intercalate cs := by
  induction cs with
  | nil => simp
  | cons c cs ih =>
    have hrest := ih fun d hd => h d (List.mem_cons_of_mem _ hd)
    have hc := h c (List.mem_cons_self ..)
    cases cs with
    | nil => simpa using hc
    | cons d cs =>
      rw [List.intercalate_cons_of_ne_nil (by simp)]
      simp [hc, hrest, show nul ≠ slash by decide]

theorem nul_notMem_ofLocation (loc : Location) : nul ∉ ofLocation loc := by
  have hnames : nul ∉ [slash].intercalate (loc.map FileName.text) := by
    refine nul_notMem_intercalate fun c hc => ?_
    obtain ⟨name, -, rfl⟩ := List.mem_map.mp hc
    exact name.nul_notMem
  rw [ofLocation, ofNames, List.mem_cons, not_or]
  exact ⟨by decide, hnames⟩

theorem nul_notMem_normalize {p : Path} (h : nul ∉ p) : nul ∉ normalize p := by
  have hk : ∀ k ∈ (components p).foldl (pushComponent (isAbsolute p)) [], nul ∉ k :=
    fun k hk hn => h (Text.of_mem_splitOnP (of_mem_kept hk).1 nul hn).2
  have hleading : nul ∉ leadingSlashes p := fun hn => absurd (mem_leadingSlashes nul hn) (by decide)
  have hkept := nul_notMem_intercalate fun c hc => hk c (List.mem_reverse.mp hc)
  unfold normalize
  simp only
  split
  · decide
  · exact List.mem_append.not.mpr (not_or.mpr ⟨hleading, hkept⟩)

theorem nul_notMem_absolute (cwd : Location) {p : Path} (h : nul ∉ p) : nul ∉ absolute cwd p :=
  nul_notMem_normalize (nul_notMem_join (nul_notMem_ofLocation cwd) h)

end Path

end ExtensionAudit
