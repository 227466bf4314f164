import Mathlib
import ExtensionAudit.Json.Writer

/-!
# Documents with long integers

Under a limit on the digits of integers a document is written whole, or it is cut off in front of an integer.

* `Json.integers`: the integers in a value, in order;
* **`Json.cut_eq_none_iff`**: when a document is written whole;
* **`Json.prefix_write_of_cut`**: what is written of it otherwise;
* `Json.dump_eq`, `Json.exists_dump_eq`: how the writing ends.
-/

namespace ExtensionAudit.Json

mutual

/-- The integers in a value, in order. -/
def integers : Json → List ℤ
  | .null | .bool _ | .real _ | .string _ => []
  | .integer n => [n]
  | .array items => itemIntegers items
  | .object members => memberIntegers members

def itemIntegers : List Json → List ℤ
  | [] => []
  | item :: items => integers item ++ itemIntegers items

def memberIntegers : List (Text × Json) → List ℤ
  | [] => []
  | (_, value) :: members => integers value ++ memberIntegers members

end

variable {limit : Option ℕ}

/-! ## When documents are whole -/

mutual

/-- **A value is written whole** if and only if each of its integers has no more digits than the limit allows. -/
theorem cut_eq_none_iff (level : ℕ) : (v : Json) → (cut limit level v = none ↔
    ∀ n ∈ integers v, allowsDigits limit (Text.ofNat n.natAbs).length = true)
  | .null | .bool _ | .real _ | .string _ | .array [] | .object [] => by
    simp [cut, integers, itemIntegers, memberIntegers]
  | .integer n => by simp [cut, integers]
  | .array (item :: items) => by
    rw [cut, integers, itemIntegers, List.forall_mem_append, ← cut_eq_none_iff (level + 1) item,
      ← cutItems_eq_none_iff (level + 1) items]
    cases cut limit (level + 1) item <;> simp
  | .object ((name, value) :: members) => by
    rw [cut, integers, memberIntegers, List.forall_mem_append, ← cut_eq_none_iff (level + 1) value,
      ← cutMembers_eq_none_iff (level + 1) members]
    cases cut limit (level + 1) value <;> simp

theorem cutItems_eq_none_iff (level : ℕ) : (items : List Json) → (cutItems limit level items = none ↔
    ∀ n ∈ itemIntegers items, allowsDigits limit (Text.ofNat n.natAbs).length = true)
  | [] => by simp [cutItems, itemIntegers]
  | item :: items => by
    rw [cutItems, itemIntegers, List.forall_mem_append, ← cut_eq_none_iff level item,
      ← cutItems_eq_none_iff level items]
    cases cut limit level item <;> simp

theorem cutMembers_eq_none_iff (level : ℕ) : (members : List (Text × Json)) →
    (cutMembers limit level members = none ↔
      ∀ n ∈ memberIntegers members, allowsDigits limit (Text.ofNat n.natAbs).length = true)
  | [] => by simp [cutMembers, memberIntegers]
  | (name, value) :: members => by
    rw [cutMembers, memberIntegers, List.forall_mem_append, ← cut_eq_none_iff level value,
      ← cutMembers_eq_none_iff level members]
    cases cut limit level value <;> simp

end

/-! ## What is written of the others -/

/-- The bracket or comma that is lost with a number does not matter. -/
theorem heldBack_prefix {level : ℕ} {item : Json} {t : Text} (separator : Text) (hc : cut limit level item = some t)
    (h : t <+: write level item) : heldBack separator item ++ t <+: separator ++ write level item := by
  cases item with
  | integer n =>
    simp only [cut, Option.ite_none_left_eq_some] at hc
    obtain ⟨-, ⟨⟩⟩ := hc
    exact List.nil_prefix
  | _ => exact List.prefix_append_right_inj _ |>.mpr h

mutual

/-- **A value that is not written whole is written up to some place.** -/
theorem prefix_write_of_cut (level : ℕ) : (v : Json) → (t : Text) → cut limit level v = some t → t <+: write level v
  | .null, _, h | .bool _, _, h | .real _, _, h | .string _, _, h | .array [], _, h | .object [], _, h => by
    simp [cut] at h
  | .integer n, t, h => by
    simp only [cut, Option.ite_none_left_eq_some] at h
    obtain ⟨-, ⟨⟩⟩ := h
    exact List.nil_prefix
  | .array (item :: items), t, h => by
    rw [cut] at h
    rw [write]
    simp only [List.append_assoc]
    cases hc : cut limit (level + 1) item with
    | some s =>
      rw [hc] at h
      obtain rfl := Option.some.inj h
      have hitem := heldBack_prefix (CodePoint.ofChar '[' :: indentation (level + 1)) hc
        (prefix_write_of_cut (level + 1) item s hc)
      exact hitem.trans (by simp)
    | none =>
      rw [hc] at h
      obtain ⟨s, hs, rfl⟩ := Option.map_eq_some_iff.mp h
      have hitems := prefix_writeItems_of_cut (level + 1) items s hs
      simpa using hitems.trans (List.prefix_append _ _)
  | .object ((name, value) :: members), t, h => by
    rw [cut] at h
    rw [write]
    simp only [List.append_assoc]
    cases hc : cut limit (level + 1) value with
    | some s =>
      rw [hc] at h
      obtain rfl := Option.some.inj h
      simpa using (prefix_write_of_cut (level + 1) value s hc).trans (List.prefix_append _ _)
    | none =>
      rw [hc] at h
      obtain ⟨s, hs, rfl⟩ := Option.map_eq_some_iff.mp h
      simpa using (prefix_writeMembers_of_cut (level + 1) members s hs).trans (List.prefix_append _ _)

theorem prefix_writeItems_of_cut (level : ℕ) : (items : List Json) → (t : Text) → cutItems limit level items = some t →
    t <+: writeItems level items
  | [], _, h => by simp [cutItems] at h
  | item :: items, t, h => by
    rw [cutItems] at h
    rw [writeItems]
    cases hc : cut limit level item with
    | some s =>
      rw [hc] at h
      obtain rfl := Option.some.inj h
      have hitem := heldBack_prefix (CodePoint.ofChar ',' :: indentation level) hc
        (prefix_write_of_cut level item s hc)
      exact hitem.trans (List.prefix_append _ _)
    | none =>
      rw [hc] at h
      obtain ⟨s, hs, rfl⟩ := Option.map_eq_some_iff.mp h
      simpa using prefix_writeItems_of_cut level items s hs

theorem prefix_writeMembers_of_cut (level : ℕ) : (members : List (Text × Json)) → (t : Text) →
    cutMembers limit level members = some t → t <+: writeMembers level members
  | [], _, h => by simp [cutMembers] at h
  | (name, value) :: members, t, h => by
    rw [cutMembers] at h
    rw [writeMembers]
    cases hc : cut limit level value with
    | some s =>
      rw [hc] at h
      obtain rfl := Option.some.inj h
      simpa using (prefix_write_of_cut level value s hc).trans (List.prefix_append _ _)
    | none =>
      rw [hc] at h
      obtain ⟨s, hs, rfl⟩ := Option.map_eq_some_iff.mp h
      simpa using prefix_writeMembers_of_cut level members s hs

end

/-! ## Writing a document -/

variable {v : Json}

theorem itemIntegers_eq (items : List Json) : itemIntegers items = items.flatMap integers := by
  induction items with
  | nil => rfl
  | cons item items ih => rw [itemIntegers, ih, List.flatMap_cons]

theorem dump_eq (h : ∀ n ∈ integers v, allowsDigits limit (Text.ofNat n.natAbs).length = true) :
    v.dump limit = (v.pretty, .ok ()) := by
  rw [dump, (cut_eq_none_iff 0 v).mpr h]

theorem eq_pretty_of_dump {t : Text} (h : v.dump limit = (t, .ok ())) : t = v.pretty := by
  unfold dump at h
  split at h
  · cases h
    rfl
  · cases h

theorem exists_dump_eq (h : ¬ ∀ n ∈ integers v, allowsDigits limit (Text.ofNat n.natAbs).length = true) :
    ∃ t, t <+: v.pretty ∧ v.dump limit = (t, .error (.tooManyDigits (limit.getD 0))) := by
  cases hc : cut limit 0 v with
  | none => exact absurd ((cut_eq_none_iff 0 v).mp hc) h
  | some t => exact ⟨t, prefix_write_of_cut 0 v t hc, by rw [dump, hc]⟩

end ExtensionAudit.Json
