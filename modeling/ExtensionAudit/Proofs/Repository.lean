import Mathlib
import ExtensionAudit.Package.Installed
import ExtensionAudit.Proofs.Paths

/-!
# Names of repositories

A remote package is named after its repository. The name is the last component of the address: slashes at the end do not
count, and the suffix is taken off once. Only a slash divides components, so an address that gives the host and the
repository with a colon between them is one component, and all of it becomes the name.

* `Package.IsLastComponent`, `Package.base_dropTrailing`, `Package.exists_isLastComponent`: the last component of an
  address;
* `Package.IsNamed`, **`Package.isNamed_iff`**: the name that an address gives;
* `Package.IsRepository`, `Package.IsEnding`, `Package.isNamed_append`: what a repository may be called, and what may
  stand behind its name;
* **`Package.targets_remote`**: the package at a remote address.
-/

namespace ExtensionAudit

def colon : CodePoint := CodePoint.ofChar ':'

namespace Package

variable {address last name repository ending : Text}

/-! ## Last components -/

/-- **The last component of an address**: in front of it stands a slash or nothing, and behind it nothing but slashes.
-/
structure IsLastComponent (address last : Text) : Prop where
  ne_nil : last ≠ []
  slash_notMem : slash ∉ last
  exists_eq : ∃ front slashes, address = front ++ last ++ slashes ∧ (front = [] ∨ ∃ q, front = q ++ [slash]) ∧
    ∀ c ∈ slashes, c = slash

theorem dropTrailing_append {t slashes : Text} (ht : t.getLast? ≠ some slash) (h : ∀ c ∈ slashes, c = slash) :
    Text.dropTrailing (t ++ slashes) '/' = t := by
  have hall : ∀ c ∈ slashes.reverse, (c == slash) = true := by
    intro c hc
    rw [h c (List.mem_reverse.mp hc), beq_self_eq_true]
  change ((t ++ slashes).reverse.dropWhile (· == slash)).reverse = t
  rw [List.reverse_append, List.dropWhile_append_of_pos hall]
  rcases List.eq_nil_or_concat t with rfl | ⟨start, c, rfl⟩
  · rfl
  · rw [List.concat_eq_append, List.getLast?_concat, ne_eq, Option.some.injEq] at ht
    rw [List.concat_eq_append, List.reverse_concat, List.dropWhile_cons_of_neg (by simpa using ht),
      ← List.reverse_concat, List.reverse_reverse]

theorem base_dropTrailing (h : IsLastComponent address last) : Path.base (Text.dropTrailing address '/') = last := by
  obtain ⟨front, slashes, rfl, hfront, hslashes⟩ := h.exists_eq
  have hend : (front ++ last).getLast? ≠ some slash := by
    rw [List.getLast?_append_of_ne_nil _ h.ne_nil]
    exact fun e => h.slash_notMem (List.mem_of_getLast? e)
  rw [dropTrailing_append hend hslashes, Path.base_append hfront h.slash_notMem]

theorem exists_isLastComponent (h : ∃ c ∈ address, c ≠ slash) : ∃ last, IsLastComponent address last := by
  obtain ⟨t, ht⟩ : ∃ t, t = address.rdropWhile (· == slash) := ⟨_, rfl⟩
  have hne : t ≠ [] := by
    obtain ⟨c, hc, hslash⟩ := h
    rw [ht, ne_eq, List.rdropWhile_eq_nil_iff]
    exact fun hall => hslash (eq_of_beq (hall c hc))
  have hend : t.getLast hne ≠ slash := by
    subst ht
    simpa using List.rdropWhile_last_not (· == slash) address hne
  refine ⟨t.rtakeWhile (· != slash), ?_, ?_, t.rdropWhile (· != slash), address.rtakeWhile (· == slash), ?_, ?_, ?_⟩
  · rw [ne_eq, List.rtakeWhile_eq_nil_iff]
    exact fun hall => hall hne (by simpa using hend)
  · intro hm
    simpa using List.mem_rtakeWhile_imp hm
  · rw [List.rdropWhile_append_rtakeWhile, ht, List.rdropWhile_append_rtakeWhile]
  · rcases List.eq_nil_or_concat (t.rdropWhile (· != slash)) with hfront | ⟨q, c, hfront⟩
    · exact Or.inl hfront
    · rw [List.concat_eq_append] at hfront
      have hlast := List.rdropWhile_last_not (· != slash) t (by simp [hfront])
      simp only [hfront, List.getLast_concat, bne_iff_ne, ne_eq, not_not] at hlast
      exact Or.inr ⟨q, hlast ▸ hfront⟩
  · intro c hc
    simpa using List.mem_rtakeWhile_imp hc

/-! ## Names -/

/-- **The name that an address gives**: its last component, without the suffix if that stands at its end. -/
def IsNamed (address name : Text) : Prop := ∃ last, IsLastComponent address last ∧
  (last = name ++ repositorySuffix ∨ ¬ repositorySuffix <:+ last ∧ last = name)

theorem dropLast_suffix (name : Text) : (name ++ repositorySuffix).dropLast.dropLast.dropLast.dropLast = name := by
  obtain ⟨a, b, c, d, hsuffix⟩ : ∃ a b c d, repositorySuffix = [a, b, c, d] := ⟨_, _, _, _, rfl⟩
  simp [hsuffix, List.dropLast_append_of_ne_nil]

theorem IsNamed.eq_repositoryName (h : IsNamed address name) : name = repositoryName address := by
  obtain ⟨last, hlast, hname⟩ := h
  rw [repositoryName, base_dropTrailing hlast]
  rcases hname with rfl | ⟨hsuffix, rfl⟩
  · have hends : Text.endsWith (name ++ repositorySuffix) repositorySuffix = true :=
      List.isSuffixOf_iff_suffix.mpr (List.suffix_append _ _)
    rw [if_pos hends, dropLast_suffix]
  · have hends : ¬ Text.endsWith last repositorySuffix = true := fun h => hsuffix (List.isSuffixOf_iff_suffix.mp h)
    rw [if_neg hends]

/-- **An address gives one name**, if it is more than slashes. -/
theorem isNamed_iff (h : ∃ c ∈ address, c ≠ slash) : IsNamed address name ↔ name = repositoryName address := by
  refine ⟨IsNamed.eq_repositoryName, ?_⟩
  rintro rfl
  obtain ⟨last, hlast⟩ := exists_isLastComponent h
  have hnamed : ∃ name, IsNamed address name := by
    by_cases hsuffix : repositorySuffix <:+ last
    · obtain ⟨name, rfl⟩ := hsuffix
      exact ⟨name, _, hlast, Or.inl rfl⟩
    · exact ⟨last, last, hlast, Or.inr ⟨hsuffix, rfl⟩⟩
  obtain ⟨name, hname⟩ := hnamed
  rwa [← hname.eq_repositoryName]

/-- **What a repository may be called**: something without a slash and without the suffix. -/
structure IsRepository (repository : Text) : Prop where
  ne_nil : repository ≠ []
  slash_notMem : slash ∉ repository
  not_suffix : ¬ repositorySuffix <:+ repository

/-- What may stand behind the name of a repository: the suffix or nothing, and any number of slashes. -/
def IsEnding (ending : Text) : Prop := ∃ suffix slashes, ending = suffix ++ slashes ∧
  (suffix = [] ∨ suffix = repositorySuffix) ∧ ∀ c ∈ slashes, c = slash

theorem isNamed_append {front : Text} (hfront : front = [] ∨ ∃ q, front = q ++ [slash]) (h : IsRepository repository)
    (he : IsEnding ending) : IsNamed (front ++ repository ++ ending) repository := by
  obtain ⟨suffix, slashes, rfl, rfl | rfl, hslashes⟩ := he
  · exact ⟨repository, ⟨h.ne_nil, h.slash_notMem, front, slashes, rfl, hfront, hslashes⟩, Or.inr ⟨h.not_suffix, rfl⟩⟩
  · refine ⟨repository ++ repositorySuffix, ⟨List.append_ne_nil_of_left_ne_nil h.ne_nil _, ?_, front, slashes, ?_,
      hfront, hslashes⟩, Or.inl rfl⟩
    · have hsuffix : slash ∉ repositorySuffix := by decide
      exact fun hm => (List.mem_append.mp hm).elim h.slash_notMem hsuffix
    · simp only [List.append_assoc]

theorem IsRepository.of_host {host : Text} (hhost : slash ∉ host) (h : IsRepository repository) :
    IsRepository (host ++ colon :: repository) where
  ne_nil := by simp
  slash_notMem := by
    have hcolon : slash ≠ colon := by decide
    simp [hhost, hcolon, h.slash_notMem]
  not_suffix := by
    intro hs
    have hcolon : colon ∉ repositorySuffix := by decide
    -- the suffix would have to begin at the colon or before it, and holds none
    rcases List.suffix_or_suffix_of_suffix hs (List.suffix_append host (colon :: repository)) with hs | hs
    · rcases List.suffix_cons_iff.mp hs with hs | hs
      · exact hcolon (hs ▸ List.mem_cons_self)
      · exact h.not_suffix hs
    · exact hcolon (hs.subset List.mem_cons_self)

/-! ## Targets -/

theorem exists_ne_slash_of_isRemote (h : isRemote address = true) : ∃ c ∈ address, c ≠ slash := by
  have hschemes : ∀ scheme ∈ remoteSchemes, ∃ c ∈ scheme, c ≠ slash := by decide
  obtain ⟨scheme, hscheme, hstart⟩ := List.any_eq_true.mp h
  obtain ⟨c, hc, hne⟩ := hschemes scheme hscheme
  exact ⟨c, (List.isPrefixOf_iff_prefix.mp hstart).subset hc, hne⟩

theorem targets_of_isRemote (fs : FileSystem) (cwd : Location) (directory : Path) (h : isRemote address = true) :
    targets fs cwd (some address) directory = .ok ([⟨address, { name := repositoryName address }⟩], []) := by
  obtain ⟨c, hc, -⟩ := exists_ne_slash_of_isRemote h
  obtain ⟨first, rest, rfl⟩ := List.exists_cons_of_ne_nil (List.ne_nil_of_mem hc)
  simp only [targets, h, if_true]

/-- **The package at a remote address**, whatever files there are. It is the only one, it has the address as its path
and no other label than its name, which is the one that the address gives. This is the name of the repository if a
slash stands in front of it. If the address is that of a host and a repository with a colon between them, then the
name is both of them with what stands in front of the host. -/
theorem targets_remote (fs : FileSystem) (cwd : Location) (directory : Path) (h : isRemote address = true) :
    ∃ name, targets fs cwd (some address) directory = .ok ([⟨address, { name }⟩], []) ∧
      (∀ other, IsNamed address other ↔ other = name) ∧
      (∀ head repository ending, address = head ++ slash :: repository ++ ending → IsRepository repository →
        IsEnding ending → name = repository) ∧
      ∀ host repository ending, address = text "git@" ++ host ++ colon :: repository ++ ending → slash ∉ host →
        IsRepository repository → IsEnding ending → name = text "git@" ++ host ++ colon :: repository := by
  have hone : ∀ other, IsNamed address other ↔ other = repositoryName address :=
    fun other => isNamed_iff (exists_ne_slash_of_isRemote h)
  refine ⟨repositoryName address, targets_of_isRemote fs cwd directory h, hone, ?_, ?_⟩
  · rintro head repository ending rfl hr he
    have hnamed : IsNamed (head ++ [slash] ++ repository ++ ending) repository :=
      isNamed_append (Or.inr ⟨head, rfl⟩) hr he
    rw [List.append_assoc head] at hnamed
    exact ((hone repository).mp hnamed).symm
  · rintro host repository ending rfl hhost hr he
    have huser : slash ∉ text "git@" := by decide
    have hfront : slash ∉ text "git@" ++ host := fun hm => (List.mem_append.mp hm).elim huser hhost
    -- the whole address is one component
    have hnamed : IsNamed ([] ++ (text "git@" ++ host ++ colon :: repository) ++ ending)
        (text "git@" ++ host ++ colon :: repository) := isNamed_append (Or.inl rfl) (hr.of_host hfront) he
    exact ((hone _).mp hnamed).symm

/-- One repository under two addresses. -/
theorem targets_remote_mirror :
    targets FileSystem.empty [] (some (text "ssh://git@example.test/acme/my-ext.git//")) (text "/ext") =
        .ok ([⟨text "ssh://git@example.test/acme/my-ext.git//", { name := text "my-ext" }⟩], []) ∧
      targets FileSystem.empty [] (some (text "git@example.test:my-ext.git")) (text "/ext") =
        .ok ([⟨text "git@example.test:my-ext.git", { name := text "git@example.test:my-ext" }⟩], []) := by
  have hrepository : IsRepository (text "my-ext") := ⟨by decide, by decide, by decide⟩
  have hending : ∀ slashes : Text, (∀ c ∈ slashes, c = slash) → IsEnding (repositorySuffix ++ slashes) :=
    fun slashes hs => ⟨repositorySuffix, slashes, rfl, Or.inr rfl, hs⟩
  constructor
  · have hremote : isRemote (text "ssh://git@example.test/acme/my-ext.git//") = true := by decide
    obtain ⟨name, ht, -, hname, -⟩ := targets_remote FileSystem.empty [] (text "/ext") hremote
    rw [ht, hname (text "ssh://git@example.test/acme") _ _ rfl hrepository (hending (text "//") (by decide))]
  · have hremote : isRemote (text "git@example.test:my-ext.git") = true := by decide
    obtain ⟨name, ht, -, -, hname⟩ := targets_remote FileSystem.empty [] (text "/ext") hremote
    rw [ht, hname (text "example.test") _ _ rfl (by decide) hrepository (hending [] (by decide))]
    rfl

/-- **A package that is not named after its repository**: its address has a colon where others have a slash. -/
theorem exists_named_with_host : ∃ host repository : Text, slash ∉ host ∧ colon ∉ host ∧ IsRepository repository ∧
    colon ∉ repository ∧ ∃ address, address = text "git@" ++ host ++ colon :: repository ++ repositorySuffix ∧
      isRemote address = true ∧ ∃ name, name ≠ repository ∧
        targets FileSystem.empty [] (some address) (text "/ext") = .ok ([⟨address, { name }⟩], []) := by
  refine ⟨text "example.test", text "ext", by decide, by decide, ⟨by decide, by decide, by decide⟩, by decide,
    text "git@example.test:ext.git", by decide, by decide, text "git@example.test:ext", by decide, ?_⟩
  have hname : repositoryName (text "git@example.test:ext.git") = text "git@example.test:ext" := by decide
  rw [targets_of_isRemote FileSystem.empty [] (text "/ext") (by decide), hname]

end Package

end ExtensionAudit
