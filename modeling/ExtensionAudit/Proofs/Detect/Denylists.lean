import Mathlib
import ExtensionAudit.Proofs.Detect

/-!
# Findings under other denylists

Which call of a line counts does not depend on the denylist: it is the first one, whatever its argument is. A denylist
chooses among these calls. Where each of its commands holds one of another denylist, that one is hit whenever it is.

* `Detect.call?`, `Detect.calls`, **`Detect.execFindings_eq_filter`**: the calls of a content, and those that a
  denylist chooses;
* `Denylist.DominatedBy`, `Denylist.DominatedBy.isHitBy`: a denylist that another one is hit by whenever it is;
* `Denylist.commands_of_add`, `Denylist.dominatedBy_of_add`, `Denylist.dominatedBy_of_add_of_infix`: a command more;
* **`Detect.execFindings_dominated`**: the findings under two denylists.
-/

namespace ExtensionAudit

/-! ## Denylists -/

namespace Denylist

variable {d d' : Denylist}

/-- **Each command of a denylist holds one of another denylist**, which may be a shorter one. -/
def DominatedBy (d d' : Denylist) : Prop := ∀ command ∈ d.commands, ∃ part ∈ d'.commands, part <:+: command

theorem DominatedBy.isHitBy (h : d.DominatedBy d') {argument : Text} (ha : d.isHitBy argument = true) :
    d'.isHitBy argument = true := by
  obtain ⟨command, hc, hin⟩ := isHitBy_iff.mp ha
  obtain ⟨part, hp, hpart⟩ := h command hc
  exact isHitBy_iff.mpr ⟨part, hp, hpart.trans hin⟩

theorem dominatedBy_of_subset (h : d.commands ⊆ d'.commands) : d.DominatedBy d' :=
  fun command hc => ⟨command, h hc, List.infix_rfl⟩

theorem commands_of_add {command : Text} (h : d.add (.text command) = .ok d') :
    d'.commands = if command ∈ d.commands then d.commands else d.commands ++ [command] := by
  rw [add] at h
  split at h
  · cases h
  · obtain rfl := Except.ok.inj h
    rw [insert]
    split <;> rfl

theorem dominatedBy_of_add {command : Text} (h : d.add (.text command) = .ok d') : d.DominatedBy d' := by
  refine dominatedBy_of_subset ?_
  rw [commands_of_add h]
  split
  · exact List.Subset.refl _
  · exact List.subset_append_left _ _

theorem dominatedBy_of_add_of_infix {command part : Text} (h : d.add (.text command) = .ok d')
    (hp : part ∈ d.commands) (hin : part <:+: command) : d'.DominatedBy d := by
  have hmem : ∀ c ∈ d'.commands, c ∈ d.commands ∨ c = command := by
    intro c hc
    rw [commands_of_add h] at hc
    split at hc
    · exact Or.inl hc
    · rwa [List.mem_append, List.mem_singleton] at hc
  intro c hc
  rcases hmem c hc with hc | rfl
  · exact ⟨c, hc, List.infix_rfl⟩
  · exact ⟨part, hp, hin⟩

end Denylist

namespace Detect

/-! ## Calls -/

/-- The first call of a line, as a finding would tell of it. -/
def call? (line : Text) (number : ℕ) : Option Finding :=
  (argument? line).map fun code => ⟨[], number, code, execKind⟩

/-- The calls of a content that count, at most one for each line. -/
def calls (content : Text) : List Finding :=
  ((Text.lines content).zipIdx 1).filterMap fun (line, number) => call? line number

theorem lineFinding?_eq_filter (d : Denylist) (line : Text) (number : ℕ) :
    lineFinding? d line number = (call? line number).filter fun f => d.isHitBy f.code := by
  unfold lineFinding? call?
  cases argument? line with
  | none => rfl
  | some code => rfl

/-- **A denylist chooses among the calls** of a content. -/
theorem execFindings_eq_filter (d : Denylist) (content : Text) :
    execFindings d content = (calls content).filter fun f => d.isHitBy f.code := by
  rw [calls, List.filter_filterMap, execFindings]
  exact congrArg (List.filterMap · _) (funext fun x => lineFinding?_eq_filter d x.1 x.2)

/-! ## Two denylists -/

variable {d d' : Denylist}

theorem execFindings_sublist (h : d.DominatedBy d') (content : Text) :
    (execFindings d content).Sublist (execFindings d' content) := by
  rw [execFindings_eq_filter, execFindings_eq_filter]
  exact List.monotone_filter_right _ fun f hf => h.isHitBy hf

theorem execFindings_eq_of_dominatedBy (h : d.DominatedBy d') (h' : d'.DominatedBy d) (content : Text) :
    execFindings d' content = execFindings d content :=
  (execFindings_sublist h' content).antisymm (execFindings_sublist h content)

/-- **What is found depends on the denylist only up to domination.** A denylist finds all that is found under one that
it dominates, and denylists that dominate each other find the same. So the order of the commands is of no account, a
command more takes no finding away, and one that holds a command which is there already changes nothing. -/
theorem execFindings_dominated (d : Denylist) (content : Text) :
    (∀ d', d.DominatedBy d' → (execFindings d content).Sublist (execFindings d' content)) ∧
      (∀ d', d.DominatedBy d' → d'.DominatedBy d → execFindings d' content = execFindings d content) ∧
      (∀ d', d.commands.Perm d'.commands → execFindings d' content = execFindings d content) ∧
      (∀ command d', d.add (.text command) = .ok d' →
        (execFindings d content).Sublist (execFindings d' content)) ∧
      ∀ command d', d.add (.text command) = .ok d' → (∃ part ∈ d.commands, part <:+: command) →
        execFindings d' content = execFindings d content := by
  refine ⟨fun d' h => execFindings_sublist h content, fun d' h h' => execFindings_eq_of_dominatedBy h h' content, ?_,
    fun command d' h => execFindings_sublist (Denylist.dominatedBy_of_add h) content, ?_⟩
  · intro d' h
    exact execFindings_eq_of_dominatedBy (Denylist.dominatedBy_of_subset h.subset)
      (Denylist.dominatedBy_of_subset h.symm.subset) content
  · rintro command d' h ⟨part, hp, hin⟩
    exact execFindings_eq_of_dominatedBy (Denylist.dominatedBy_of_add h)
      (Denylist.dominatedBy_of_add_of_infix h hp hin) content

/-- A denylist of one short command. -/
def shells : Denylist := Denylist.empty.insert (text "sh") (by decide)

/-- A denylist of two commands that hold that one. -/
def longShells : Denylist := (Denylist.empty.insert (text "ssh") (by decide)).insert (text "bash") (by decide)

theorem dominatedBy_longShells : longShells.DominatedBy shells := by
  unfold Denylist.DominatedBy
  decide

/-- The longer commands find one call of two, the shorter one finds both, and a longer one beside it nothing more. -/
theorem execFindings_dominated_shells :
    (execFindings longShells (text "exec(ssh)\nexec(push)")).Sublist
        (execFindings shells (text "exec(ssh)\nexec(push)")) ∧
      ∃ both, shells.add (.text (text "ssh")) = .ok both ∧
        execFindings both (text "exec(ssh)\nexec(push)") = execFindings shells (text "exec(ssh)\nexec(push)") := by
  have hpart : ∃ part ∈ shells.commands, part <:+: text "ssh" := ⟨text "sh", by decide, by decide⟩
  exact ⟨(execFindings_dominated _ _).1 _ dominatedBy_longShells, _, rfl,
    (execFindings_dominated _ _).2.2.2.2 _ _ rfl hpart⟩

end Detect

end ExtensionAudit
