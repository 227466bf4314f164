/-!
# Tables in insertion order

A table is a list of keys with values. Every function here keeps the keys in the order of their first
appearance, and a table built by them has each key once.

* `Table.get?`, `Table.keys`, `Table.alter`, `Table.put`, `Table.ofPairs`.
-/

namespace ExtensionAudit

/-- Keys with values, in order of first appearance. -/
abbrev Table (κ ν : Type) := List (κ × ν)

namespace Table

variable {κ ν : Type} [DecidableEq κ]

def get? : Table κ ν → κ → Option ν
  | [], _ => none
  | entry :: rest, key => if entry.1 = key then some entry.2 else get? rest key

def keys (table : Table κ ν) : List κ := table.map (·.1)

/-- Change the value of a key, or give a value to a new one at the end. -/
def alter (key : κ) (f : Option ν → ν) : Table κ ν → Table κ ν
  | [] => [(key, f none)]
  | entry :: rest =>
    if entry.1 = key then (key, f (some entry.2)) :: rest else entry :: alter key f rest

/-- Set the value of a key. A key that is there keeps its place. -/
def put (key : κ) (value : ν) (table : Table κ ν) : Table κ ν := table.alter key fun _ => value

/-- The table of some pairs: a key's last value at the key's first place. -/
def ofPairs (pairs : List (κ × ν)) : Table κ ν := pairs.foldl (fun table p => table.put p.1 p.2) []

theorem keys_alter (key : κ) (f : Option ν → ν) (table : Table κ ν) :
    (table.alter key f).keys = if key ∈ table.keys then table.keys else table.keys ++ [key] := by
  induction table with
  | nil => simp [alter, keys]
  | cons entry rest ih =>
    simp only [keys] at ih
    by_cases h : entry.1 = key
    · simp [alter, keys, h]
    · by_cases hm : key ∈ rest.map (·.1)
      · simp [alter, keys, h, ih, hm]
      · simp [alter, keys, h, ih, hm, Ne.symm h]

/-- Altering a key changes its value alone. -/
theorem get?_alter (key key' : κ) (f : Option ν → ν) (table : Table κ ν) :
    (table.alter key f).get? key' =
      if key = key' then some (f (table.get? key)) else table.get? key' := by
  induction table with
  | nil => simp [alter, get?]
  | cons entry rest ih =>
    by_cases h : entry.1 = key
    · by_cases hk : key = key' <;> simp [alter, get?, h, hk]
    · by_cases hk : key = key'
      · subst hk
        simp [alter, get?, h, ih]
      · simp only [alter, if_neg h, get?, ih, if_neg hk]

/-- Choosing entries by their keys keeps the values of the keys that are chosen. -/
theorem get?_filter_keys (p : κ → Bool) (table : Table κ ν) (key : κ) :
    get? (table.filter fun e => p e.1) key = if p key then table.get? key else none := by
  induction table with
  | nil => simp [get?]
  | cons entry rest ih =>
    by_cases hk : entry.1 = key
    · subst hk
      by_cases hp : p entry.1 = true <;> simp [get?, hp, ih]
    · by_cases hp : p entry.1 = true <;> simp [get?, hp, hk, ih]

/-- Changing all values keeps the keys. -/
theorem get?_map (f : κ → ν → ν) (table : Table κ ν) (key : κ) :
    get? (table.map fun e => (e.1, f e.1 e.2)) key = (table.get? key).map (f key) := by
  induction table with
  | nil => rfl
  | cons entry rest ih =>
    by_cases hk : entry.1 = key
    · subst hk
      simp [get?]
    · simp [get?, hk, ih]

theorem mem_keys_of_get?_eq_some {table : Table κ ν} {key : κ} {value : ν}
    (h : table.get? key = some value) : key ∈ table.keys := by
  induction table with
  | nil => simp [get?] at h
  | cons entry rest ih =>
    rw [get?] at h
    split at h
    · next hk => simp [keys, hk]
    · exact List.mem_cons_of_mem _ (ih h)

theorem exists_get? {table : Table κ ν} {key : κ} (h : key ∈ table.keys) :
    ∃ value, table.get? key = some value := by
  induction table with
  | nil => simp [keys] at h
  | cons entry rest ih =>
    rw [get?]
    split
    · exact ⟨_, rfl⟩
    · next hk =>
      rw [keys, List.map_cons, List.mem_cons] at h
      exact ih (h.resolve_left fun e => hk e.symm)

/-- Altering a key leaves the entries with other keys as they are. -/
theorem filter_alter {p : κ → Bool} {key : κ} (hp : p key = false) (f : Option ν → ν)
    (table : Table κ ν) : (table.alter key f).filter (fun e => p e.1) = table.filter fun e => p e.1 := by
  induction table with
  | nil => simp [alter, hp]
  | cons entry rest ih =>
    rw [alter]
    split
    · next h => rw [List.filter_cons_of_neg (by simp [hp]), List.filter_cons_of_neg (by simp [h, hp])]
    · rw [List.filter_cons, List.filter_cons, ih]

theorem nodup_keys_alter {table : Table κ ν} (h : table.keys.Nodup) (key : κ) (f : Option ν → ν) :
    (table.alter key f).keys.Nodup := by
  rw [keys_alter]
  split
  · exact h
  · next hk =>
    refine List.nodup_append.mpr ⟨h, by simp, ?_⟩
    intro a ha b hb he
    rw [List.mem_singleton] at hb
    exact hk (hb ▸ he ▸ ha)

theorem put_of_notMem {table : Table κ ν} {key : κ} (h : key ∉ table.keys) (value : ν) :
    table.put key value = table ++ [(key, value)] := by
  induction table with
  | nil => rfl
  | cons entry rest ih =>
    rw [keys, List.map_cons, List.mem_cons, not_or] at h
    rw [put, alter, if_neg (Ne.symm h.1), List.cons_append]
    exact congrArg _ (ih h.2)

theorem foldl_put_eq (pairs : List (κ × ν)) (table : Table κ ν) (h : (keys (table ++ pairs)).Nodup) :
    pairs.foldl (fun table p => table.put p.1 p.2) table = table ++ pairs := by
  induction pairs generalizing table with
  | nil => simp
  | cons p pairs ih =>
    have hkey : p.1 ∉ table.keys := by
      intro hmem
      rw [keys, List.map_append, List.map_cons, List.nodup_append] at h
      exact h.2.2 _ hmem _ (List.mem_cons_self ..) rfl
    rw [List.foldl_cons, put_of_notMem hkey, ih _ (by rwa [List.append_assoc]), List.append_assoc]
    rfl

/-- The table of pairs with different keys is the list of the pairs. -/
theorem ofPairs_eq {pairs : List (κ × ν)} (h : (pairs.map (·.1)).Nodup) : ofPairs pairs = pairs :=
  foldl_put_eq pairs [] h

end Table

end ExtensionAudit
