import Mathlib
import ExtensionAudit.Json.Reader
import ExtensionAudit.Table

/-!
# The members of an object, as they are written

A document may give a name more than once. The object that is read from it has the last value of each name.

* `Table.last?`, **`Table.get?_ofPairs`**: the last value of a key;
* `Json.readPairs`, **`Json.readMembers_eq`**: the members of an object, in the order in which they are written;
* `Json.pairsWithin`, **`Json.parseWithin_eq_object_iff`**: the documents that are objects;
* `Json.parseWithin_byteOrderMark`: no document begins with a byte order mark.
-/

namespace ExtensionAudit

namespace Table

variable {κ ν : Type} [DecidableEq κ]

/-- The last value that some pairs give for a key. -/
def last? (pairs : List (κ × ν)) (key : κ) : Option ν := ((pairs.filter fun p => p.1 = key).getLast?).map (·.2)

/-- **The value of a key in the table of some pairs** is the last one that they give for it. -/
theorem get?_ofPairs (pairs : List (κ × ν)) (key : κ) : (ofPairs pairs).get? key = last? pairs key := by
  induction pairs using List.reverseRecOn with
  | nil => rfl
  | append_singleton pairs p ih =>
    rw [ofPairs, List.foldl_concat, put, get?_alter, ← ofPairs, ih, last?, last?, List.filter_append]
    by_cases h : p.1 = key
    · rw [if_pos h, List.filter_cons_of_pos (by simpa using h), List.filter_nil, List.getLast?_concat]
      rfl
    · rw [if_neg h, List.filter_cons_of_neg (by simpa using h), List.filter_nil, List.append_nil]

end Table

namespace Json

variable {limit : Option ℕ} {t rest : Text} {v : Json}

/-! ## Values that are no objects -/

/-- Is the value an object? -/
def isObject : Json → Bool
  | .object _ => true
  | _ => false

theorem isObject_of_readMagnitude {negative : Bool} (h : readMagnitude limit negative t = some (v, rest)) :
    isObject v = false := by
  obtain ⟨⟨whole, afterWhole⟩, -, h⟩ := Option.bind_eq_some_iff.mp h
  simp only at h
  split at h
  · split at h
    · cases h; rfl
    · cases h
  · cases h; rfl

theorem isObject_of_readScalar (h : readScalar limit t = some (v, rest)) : isObject v = false := by
  rw [readScalar] at h
  split at h
  · next name value hn =>
    have hall : ∀ n ∈ names, isObject n.2 = false := by decide
    cases h
    exact hall _ (List.mem_of_find?_eq_some hn)
  · split at h
    · exact isObject_of_readMagnitude h
    · exact isObject_of_readMagnitude h

theorem isObject_of_readItems {fuel : ℕ} {reversed : List Json} (h : readItems limit fuel reversed t = some (v, rest)) :
    isObject v = false := by
  induction fuel generalizing reversed t with
  | zero => cases h
  | succ fuel ih =>
    rw [readItems] at h
    split at h
    · cases h
    split at h
    · cases h
    · exact ih h
    · cases h; rfl

/-! ## Members in order -/

/-- The members of an object from the next one on, as they are written, and what follows them. -/
def readPairs (limit : Option ℕ) : ℕ → Text → Option (List (Text × Json) × Text)
  | 0, _ => none
  | fuel + 1, t =>
    match readName t with
    | none => none
    | some (name, rest) =>
      match readValue limit fuel rest with
      | none => none
      | some (value, rest) =>
        match readSeparator '}' rest with
        | none => none
        | some (true, rest) => (readPairs limit fuel rest).map fun (pairs, rest) => ((name, value) :: pairs, rest)
        | some (false, rest) => some ([(name, value)], rest)

/-- **The object that is read** is the table of its members as they are written. -/
theorem readMembers_eq (fuel : ℕ) (reversed : List (Text × Json)) (t : Text) : readMembers limit fuel reversed t =
    (readPairs limit fuel t).map fun (pairs, rest) => (.object (Table.ofPairs (reversed.reverse ++ pairs)), rest) := by
  induction fuel generalizing reversed t with
  | zero => rfl
  | succ fuel ih =>
    rw [readMembers, readPairs]
    cases readName t with
    | none => rfl
    | some named =>
      obtain ⟨name, afterName⟩ := named
      simp only
      cases readValue limit fuel afterName with
      | none => rfl
      | some valued =>
        obtain ⟨value, afterValue⟩ := valued
        simp only
        rcases readSeparator '}' afterValue with _ | ⟨_ | _, afterSeparator⟩
        · rfl
        · simp only [Option.map_some, List.reverse_cons]
        · simp only [ih, Option.map_map, Function.comp_def, List.reverse_cons, List.append_assoc, List.singleton_append]

/-- What follows an opening brace, as members. Braces with nothing but blanks between them hold none. -/
def readBraced (limit : Option ℕ) (fuel : ℕ) (t : Text) : Option (List (Text × Json) × Text) :=
  if (skipBlanks t).beginsWithChar '}' then some ([], (skipBlanks t).drop 1) else readPairs limit fuel t

/-- The members of a document that is an object, as they are written. -/
def pairsWithin (limit : Option ℕ) (t : Text) : Option (List (Text × Json)) :=
  match skipBlanks t with
  | [] => none
  | c :: rest =>
    if c = CodePoint.ofChar '\x7b' then
      match readBraced limit t.length rest with
      | some (pairs, rest) => if (skipBlanks rest).isEmpty then some pairs else none
      | none => none
    else none

theorem readValue_succ_of_skipBlanks (limit : Option ℕ) (fuel : ℕ) {c : CodePoint} {tail : Text}
    (ht : skipBlanks t = c :: tail) :
    (c = CodePoint.ofChar '\x7b' → readValue limit (fuel + 1) t =
      (readBraced limit fuel tail).map fun (pairs, rest) => (.object (Table.ofPairs pairs), rest)) ∧
    (c ≠ CodePoint.ofChar '\x7b' → ∀ v rest, readValue limit (fuel + 1) t = some (v, rest) → isObject v = false) := by
  rw [readValue, ht]
  constructor
  · rintro rfl
    simp only [if_neg (show CodePoint.ofChar '\x7b' ≠ quote by decide),
      if_neg (show CodePoint.ofChar '\x7b' ≠ CodePoint.ofChar '[' by decide), if_true, readBraced, readMembers_eq]
    split <;> rfl
  · intro hc v rest h
    simp only [if_neg hc] at h
    split at h
    · obtain ⟨s, -, h⟩ := Option.map_eq_some_iff.mp h
      cases h; rfl
    split at h
    · split at h
      · cases h; rfl
      · exact isObject_of_readItems h
    · exact isObject_of_readScalar h

/-- **The documents that are objects.** An object is the table of its members as they are written. -/
theorem parseWithin_eq_object_iff {members : Table Text Json} : parseWithin limit t = some (.object members) ↔
    ∃ pairs, pairsWithin limit t = some pairs ∧ members = Table.ofPairs pairs := by
  rw [parseWithin, pairsWithin]
  cases ht : skipBlanks t with
  | nil => simp [readValue, ht]
  | cons c tail =>
    obtain ⟨hbrace, hother⟩ := readValue_succ_of_skipBlanks limit t.length ht
    by_cases hc : c = CodePoint.ofChar '\x7b'
    · rw [hbrace hc]
      simp only [if_pos hc]
      cases readBraced limit t.length tail with
      | none => simp
      | some braced =>
        simp only [Option.map_some]
        split
        · simp [eq_comm]
        · simp
    · simp only [if_neg hc]
      constructor
      · intro h
        split at h
        · next v rest hv =>
          split at h
          · cases h
            cases hother hc _ _ hv
          · cases h
        · cases h
      · rintro ⟨_, h, -⟩
        cases h

/-! ## Byte order marks -/

/-- The code point that may stand in front of a text to tell its encoding. -/
def byteOrderMark : CodePoint := CodePoint.ofChar (Char.ofNat 0xFEFF)

/-- **A byte order mark begins no document.** -/
theorem parseWithin_byteOrderMark (t : Text) : parseWithin limit (byteOrderMark :: t) = none := by
  have hblanks : skipBlanks (byteOrderMark :: t) = byteOrderMark :: t := List.dropWhile_cons_of_neg (by decide)
  have hnames : names.find? (fun n => Text.startsWith (byteOrderMark :: t) n.1) = none := by
    rw [List.find?_eq_none]
    intro n hn hstarts
    have hall : ∀ n ∈ names, ∃ c ∈ n.1.head?, c ≠ byteOrderMark := by decide
    obtain ⟨c, hc, hne⟩ := hall n hn
    obtain ⟨tail, hname⟩ := List.head?_eq_some_iff.mp hc
    obtain ⟨more, hmore⟩ := List.isPrefixOf_iff_prefix.mp hstarts
    rw [hname] at hmore
    exact hne (List.cons_eq_cons.mp hmore).1
  have hmagnitude : readMagnitude limit false (byteOrderMark :: t) = none := rfl
  have hscalar : readScalar limit (byteOrderMark :: t) = none := by
    rw [readScalar, hnames]
    exact hmagnitude
  have hvalue : readValue limit ((byteOrderMark :: t).length + 1) (byteOrderMark :: t) = none := by
    rw [readValue, hblanks]
    exact hscalar
  rw [parseWithin, hvalue]

end Json

end ExtensionAudit
