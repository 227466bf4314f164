import Mathlib
import ExtensionAudit.Proofs.Json.Numbers
import ExtensionAudit.Proofs.Json.Strings

/-!
# Reading what was written

A value is read as it was written. Its numbers must be integers with no more digits than the reader allows, its strings
must not hold surrogate pairs, and the members of an object must have different names.

* `Json.IsFaithful`: values that can be read back;
* `Json.ReadsBack`: the reader gets a value from its text, wherever the text stands;
* `Json.readItems_write`, `Json.readMembers_write`: items and members;
* **`Json.readsBack_of_isFaithful`**, **`Json.parseWithin_pretty`**: values and documents.
-/

namespace ExtensionAudit.Json

/-- The value can be read as it is written: its numbers are integers with no more digits than the limit allows, no
string in it holds a surrogate pair, and no two members of an object have one name. -/
inductive IsFaithful (limit : Option ℕ) : Json → Prop where
  | null : IsFaithful limit .null
  | bool (b : Bool) : IsFaithful limit (.bool b)
  | integer {n : ℤ} (h : allowsDigits limit (Text.ofNat n.natAbs).length = true) : IsFaithful limit (.integer n)
  | string {s : Text} (h : s.IsUnpaired) : IsFaithful limit (.string s)
  | array {items : List Json} (h : ∀ item ∈ items, IsFaithful limit item) : IsFaithful limit (.array items)
  | object {members : List (Text × Json)} (hnodup : (members.map Prod.fst).Nodup)
      (hnames : ∀ m ∈ members, m.1.IsUnpaired) (h : ∀ m ∈ members, IsFaithful limit m.2) :
      IsFaithful limit (.object members)

section Reading

variable {level : ℕ} {c : CodePoint}

/-! ## Blanks -/

theorem skipBlanks_append {blanks : Text} (h : ∀ c ∈ blanks, isBlank c = true) (t : Text) :
    skipBlanks (blanks ++ t) = skipBlanks t :=
  List.dropWhile_append_of_pos h

theorem skipBlanks_cons (h : isBlank c = false) (t : Text) : skipBlanks (c :: t) = c :: t :=
  List.dropWhile_cons_of_neg (by rw [h]; simp)

theorem isBlank_of_mem_indentation (h : c ∈ indentation level) : isBlank c = true := by
  rcases List.mem_cons.mp h with rfl | h
  · decide
  · rw [List.eq_of_mem_replicate h]
    decide

theorem skipBlanks_indentation (level : ℕ) (t : Text) : skipBlanks (indentation level ++ t) = skipBlanks t :=
  skipBlanks_append (fun _ => isBlank_of_mem_indentation) t

theorem readValue_append {blanks : Text} (h : ∀ c ∈ blanks, isBlank c = true) (limit : Option ℕ) (fuel : ℕ) (t : Text) :
    readValue limit fuel (blanks ++ t) = readValue limit fuel t := by
  cases fuel with
  | zero => rw [readValue, readValue]
  | succ fuel => rw [readValue, readValue, skipBlanks_append h]

theorem readValue_space (limit : Option ℕ) (fuel : ℕ) (t : Text) :
    readValue limit fuel (CodePoint.ofChar ' ' :: t) = readValue limit fuel t :=
  @readValue_append [CodePoint.ofChar ' '] (by decide) limit fuel t

/-! ## How values begin -/

/-- Neither a blank nor a quote nor a bracket. -/
structure StartsScalar (c : CodePoint) : Prop where
  isBlank_eq : isBlank c = false
  ne_quote : c ≠ quote
  ne_opening : c ≠ CodePoint.ofChar '['
  ne_closing : c ≠ CodePoint.ofChar ']'
  ne_brace : c ≠ CodePoint.ofChar '{'

theorem startsScalar_of_isDigit (h : isDigit c = true) : StartsScalar c := by
  have hrange := isDigit_iff.mp h
  refine ⟨?_, ?_, ?_, ?_, ?_⟩
  · simp only [isBlank, Bool.or_eq_false_iff, beq_eq_false_iff_ne]
    omega
  all_goals
    rintro rfl
    exact absurd h (by decide)

theorem startsScalar_ofChar {x : Char} (h : isBlank (CodePoint.ofChar x) = false ∧ CodePoint.ofChar x ≠ quote ∧
    CodePoint.ofChar x ≠ CodePoint.ofChar '[' ∧ CodePoint.ofChar x ≠ CodePoint.ofChar ']' ∧
    CodePoint.ofChar x ≠ CodePoint.ofChar '{') : StartsScalar (CodePoint.ofChar x) :=
  ⟨h.1, h.2.1, h.2.2.1, h.2.2.2.1, h.2.2.2.2⟩

theorem exists_ofInt (n : ℤ) : ∃ c tail, Text.ofInt n = c :: tail ∧ StartsScalar c := by
  cases n with
  | ofNat n =>
    obtain ⟨c, tail, hn, hd⟩ := exists_ofNat n
    exact ⟨c, tail, hn, startsScalar_of_isDigit hd⟩
  | negSucc n => exact ⟨_, _, rfl, startsScalar_ofChar (by decide)⟩

theorem exists_write (level : ℕ) (v : Json) :
    ∃ c tail, write level v = c :: tail ∧ isBlank c = false ∧ c ≠ CodePoint.ofChar ']' := by
  cases v with
  | null => exact ⟨CodePoint.ofChar 'n', _, rfl, by decide, by decide⟩
  | bool b =>
    cases b with
    | true => exact ⟨CodePoint.ofChar 't', _, rfl, by decide, by decide⟩
    | false => exact ⟨CodePoint.ofChar 'f', _, rfl, by decide, by decide⟩
  | integer n =>
    obtain ⟨c, tail, hn, hc⟩ := exists_ofInt n
    exact ⟨c, tail, hn, hc.isBlank_eq, hc.ne_closing⟩
  | real r =>
    obtain ⟨hr, hne⟩ := isNumeral_realText r
    obtain ⟨c, tail, hc⟩ := List.exists_cons_of_ne_nil hne
    have hnames : ∀ c ∈ text ".e+-InfityNa", isBlank c = false ∧ c ≠ CodePoint.ofChar ']' := by decide
    rcases (isNumeral_cons.mp (hc ▸ hr)).1 with hd | hmem
    · have hstart := startsScalar_of_isDigit hd
      exact ⟨c, tail, hc, hstart.isBlank_eq, hstart.ne_closing⟩
    · exact ⟨c, tail, hc, hnames c hmem⟩
  | string s => exact ⟨quote, _, rfl, by decide, by decide⟩
  | array items => cases items <;> exact ⟨CodePoint.ofChar '[', _, rfl, by decide, by decide⟩
  | object members => cases members <;> exact ⟨CodePoint.ofChar '{', _, rfl, by decide, by decide⟩

end Reading

/-! ## Values -/

/-- The reader gets the value from its text, wherever the text stands. -/
def ReadsBack (limit : Option ℕ) (v : Json) : Prop :=
  ∀ (level fuel : ℕ) (rest : Text), (write level v).length ≤ fuel → Delimits rest →
    readValue limit fuel (write level v ++ rest) = some (v, rest)

section Values

variable {limit : Option ℕ} {fuel level outer : ℕ} {rest : Text} {v : Json} {c : CodePoint}

theorem delimits_nil : Delimits [] := by
  rintro c ⟨⟩

theorem delimits_cons (h : EndsNumber c) (t : Text) : Delimits (c :: t) := by
  rintro d ⟨⟩
  exact h

theorem delimits_indentation (level : ℕ) (t : Text) : Delimits (indentation level ++ t) := delimits_cons (by decide) _

theorem readsBack_of_readScalar (h : ∀ level, ∃ c tail, write level v = c :: tail ∧ StartsScalar c)
    (hread : ∀ level rest, Delimits rest → readScalar limit (write level v ++ rest) = some (v, rest)) :
    ReadsBack limit v := by
  intro level fuel rest hfuel hrest
  have hscalar := hread level rest hrest
  obtain ⟨c, tail, ht, hc⟩ := h level
  rw [ht] at hfuel hscalar ⊢
  cases fuel with
  | zero => simp at hfuel
  | succ fuel =>
    rw [List.cons_append] at hscalar ⊢
    rw [readValue, skipBlanks_cons hc.isBlank_eq]
    simp only [if_neg hc.ne_quote, if_neg hc.ne_opening, if_neg hc.ne_brace]
    exact hscalar

theorem readsBack_null : ReadsBack limit .null :=
  readsBack_of_readScalar (fun _ => ⟨CodePoint.ofChar 'n', _, rfl, startsScalar_ofChar (by decide)⟩) fun _ _ _ => rfl

theorem readsBack_bool (b : Bool) : ReadsBack limit (.bool b) := by
  refine readsBack_of_readScalar (fun level => ?_) fun level rest _ => ?_
  · cases b with
    | true => exact ⟨CodePoint.ofChar 't', _, rfl, startsScalar_ofChar (by decide)⟩
    | false => exact ⟨CodePoint.ofChar 'f', _, rfl, startsScalar_ofChar (by decide)⟩
  · cases b <;> rfl

theorem readsBack_integer {n : ℤ} (h : allowsDigits limit (Text.ofNat n.natAbs).length = true) :
    ReadsBack limit (.integer n) :=
  readsBack_of_readScalar (fun _ => exists_ofInt n) fun _ _ hrest => readScalar_ofInt n h hrest

theorem readsBack_string {s : Text} (h : s.IsUnpaired) : ReadsBack limit (.string s) := by
  intro level fuel rest hfuel _
  have hwrite : write level (.string s) = quote :: s.flatMap escapedPoint ++ [quote] := by rw [write, escaped]
  rw [hwrite] at hfuel ⊢
  cases fuel with
  | zero => simp at hfuel
  | succ fuel =>
    rw [List.append_assoc, List.singleton_append, List.cons_append, readValue, skipBlanks_cons (by decide)]
    simp only [if_true, readString_escaped h, Option.map_some]

/-! ## Items -/

theorem readSeparator_comma (closing : Char) (t : Text) :
    readSeparator closing (CodePoint.ofChar ',' :: t) = some (true, t) := by
  rw [readSeparator, skipBlanks_cons (by decide)]
  exact if_pos rfl

theorem readSeparator_closing {closing : Char} (hblank : isBlank (CodePoint.ofChar closing) = false)
    (hne : CodePoint.ofChar closing ≠ CodePoint.ofChar ',') (level : ℕ) (t : Text) :
    readSeparator closing (indentation level ++ CodePoint.ofChar closing :: t) = some (false, t) := by
  rw [readSeparator, skipBlanks_indentation, skipBlanks_cons hblank]
  simp only [if_neg hne, if_true]

/-- **The items of an array are read up to its end**, if each of them is. -/
theorem readItems_write {item : Json} {items : List Json} (h : ∀ x ∈ item :: items, ReadsBack limit x)
    (reversed : List Json) (hfuel : (write level item).length + (writeItems level items).length < fuel) :
    readItems limit fuel reversed (indentation level ++ (write level item ++ (writeItems level items ++
      (indentation outer ++ CodePoint.ofChar ']' :: rest)))) =
      some (.array (reversed.reverse ++ item :: items), rest) := by
  induction items generalizing item reversed fuel with
  | nil =>
    obtain ⟨fuel, rfl⟩ := Nat.exists_eq_succ_of_ne_zero (Nat.ne_of_gt (Nat.zero_lt_of_lt hfuel))
    have hitem := h item (List.mem_cons_self ..) level fuel _ (by omega)
      (delimits_indentation outer (CodePoint.ofChar ']' :: rest))
    rw [writeItems, List.nil_append, readItems, readValue_append (fun _ => isBlank_of_mem_indentation), hitem]
    simp only [readSeparator_closing (show isBlank (CodePoint.ofChar ']') = false by decide) (by decide),
      List.reverse_cons]
  | cons next items ih =>
    obtain ⟨fuel, rfl⟩ := Nat.exists_eq_succ_of_ne_zero (Nat.ne_of_gt (Nat.zero_lt_of_lt hfuel))
    rw [writeItems] at hfuel ⊢
    simp only [List.length_cons, List.length_append] at hfuel
    have hitem := h item (List.mem_cons_self ..) level fuel
    have hnext : (write level next).length + (writeItems level items).length < fuel := by omega
    have hrest := ih (fun x hx => h x (List.mem_cons_of_mem _ hx)) (item :: reversed) hnext
    rw [readItems, readValue_append (fun _ => isBlank_of_mem_indentation)]
    simp only [List.cons_append, List.append_assoc]
    rw [hitem _ (by omega) (delimits_cons (by decide) _)]
    simp only [readSeparator_comma]
    rw [hrest, List.reverse_cons, List.append_assoc, List.singleton_append]

theorem readsBack_array {items : List Json} (h : ∀ x ∈ items, ReadsBack limit x) : ReadsBack limit (.array items) := by
  intro level fuel rest hfuel _
  cases fuel with
  | zero =>
    obtain ⟨c, tail, hc, -⟩ := exists_write level (.array items)
    rw [hc] at hfuel
    simp at hfuel
  | succ fuel =>
    cases items with
    | nil => rfl
    | cons item items =>
      -- the first item is not taken for the end of the array
      obtain ⟨c, tail, hc, hblank, hne⟩ := exists_write (level + 1) item
      have hopen : ∀ more, Text.beginsWithChar
          (skipBlanks (indentation (level + 1) ++ (write (level + 1) item ++ more))) ']' = false := by
        intro more
        rw [skipBlanks_indentation, hc, List.cons_append, skipBlanks_cons hblank, Text.beginsWithChar, List.head?_cons]
        exact beq_eq_false_iff_ne.mpr fun e => hne (Option.some.inj e)
      rw [write] at hfuel ⊢
      simp only [List.length_cons, List.length_append] at hfuel
      simp only [List.cons_append, List.append_assoc, List.nil_append]
      rw [readValue, skipBlanks_cons (by decide)]
      simp only [if_neg (show CodePoint.ofChar '[' ≠ quote by decide), if_true, hopen, Bool.false_eq_true, if_false]
      exact readItems_write h [] (by omega)

/-! ## Members -/

theorem readName_escaped {name : Text} (h : name.IsUnpaired) (level : ℕ) (t : Text) :
    readName (indentation level ++ (escaped name ++ (text ": " ++ t))) = some (name, CodePoint.ofChar ' ' :: t) := by
  have hcolon : text ": " ++ t = CodePoint.ofChar ':' :: CodePoint.ofChar ' ' :: t := rfl
  rw [readName, skipBlanks_indentation, escaped, hcolon, List.append_assoc, List.singleton_append, List.cons_append,
    skipBlanks_cons (by decide)]
  simp only [if_true, readString_escaped h, Option.bind_eq_bind, Option.bind_some]
  rw [skipBlanks_cons (by decide)]
  simp only [if_true]

/-- **The members of an object are read up to its end**, if their values are. -/
theorem readMembers_write {name : Text} {value : Json} {members : List (Text × Json)}
    (hnames : ∀ m ∈ (name, value) :: members, m.1.IsUnpaired)
    (h : ∀ m ∈ (name, value) :: members, ReadsBack limit m.2) (reversed : List (Text × Json))
    (hfuel : (write level value).length + (writeMembers level members).length < fuel) :
    readMembers limit fuel reversed (indentation level ++ (escaped name ++ (text ": " ++ (write level value ++
      (writeMembers level members ++ (indentation outer ++ CodePoint.ofChar '}' :: rest)))))) =
      some (.object (Table.ofPairs (reversed.reverse ++ (name, value) :: members)), rest) := by
  induction members generalizing name value reversed fuel with
  | nil =>
    obtain ⟨fuel, rfl⟩ := Nat.exists_eq_succ_of_ne_zero (Nat.ne_of_gt (Nat.zero_lt_of_lt hfuel))
    have hlength : (write level value).length ≤ fuel := by omega
    have hvalue : readValue limit fuel (write level value ++ _) = _ :=
      h (name, value) (List.mem_cons_self ..) level fuel _ hlength
        (delimits_indentation outer (CodePoint.ofChar '}' :: rest))
    rw [writeMembers, List.nil_append, readMembers, readName_escaped (hnames (name, value) (List.mem_cons_self ..))]
    simp only [readValue_space, hvalue, List.reverse_cons,
      readSeparator_closing (show isBlank (CodePoint.ofChar '}') = false by decide) (by decide)]
  | cons next members ih =>
    obtain ⟨fuel, rfl⟩ := Nat.exists_eq_succ_of_ne_zero (Nat.ne_of_gt (Nat.zero_lt_of_lt hfuel))
    obtain ⟨nextName, nextValue⟩ := next
    rw [writeMembers] at hfuel ⊢
    simp only [List.length_cons, List.length_append] at hfuel
    have hlength : (write level value).length ≤ fuel := by omega
    have hvalue : ∀ rest, Delimits rest → readValue limit fuel (write level value ++ rest) = some (value, rest) :=
      fun rest => h (name, value) (List.mem_cons_self ..) level fuel rest hlength
    have hnext : (write level nextValue).length + (writeMembers level members).length < fuel := by omega
    have hrest := ih (fun m hm => hnames m (List.mem_cons_of_mem _ hm)) (fun m hm => h m (List.mem_cons_of_mem _ hm))
      ((name, value) :: reversed) hnext
    rw [readMembers, readName_escaped (hnames (name, value) (List.mem_cons_self ..))]
    simp only [List.cons_append, List.append_assoc, readValue_space]
    rw [hvalue _ (delimits_cons (by decide) _)]
    simp only [readSeparator_comma]
    rw [hrest, List.reverse_cons, List.append_assoc, List.singleton_append]

theorem readsBack_object {members : List (Text × Json)} (hnodup : (members.map Prod.fst).Nodup)
    (hnames : ∀ m ∈ members, m.1.IsUnpaired) (h : ∀ m ∈ members, ReadsBack limit m.2) :
    ReadsBack limit (.object members) := by
  intro level fuel rest hfuel _
  cases fuel with
  | zero =>
    obtain ⟨c, tail, hc, -⟩ := exists_write level (.object members)
    rw [hc] at hfuel
    simp at hfuel
  | succ fuel =>
    cases members with
    | nil => rfl
    | cons m members =>
      obtain ⟨name, value⟩ := m
      -- a quote follows the brace, so the object is not empty
      have hopen : ∀ more, Text.beginsWithChar
          (skipBlanks (indentation (level + 1) ++ (escaped name ++ more))) '}' = false := by
        intro more
        rw [skipBlanks_indentation, escaped, List.cons_append, List.cons_append, skipBlanks_cons (by decide)]
        rfl
      rw [write] at hfuel ⊢
      simp only [List.length_cons, List.length_append] at hfuel
      simp only [List.cons_append, List.append_assoc, List.nil_append]
      rw [readValue, skipBlanks_cons (by decide)]
      simp only [if_neg (show CodePoint.ofChar '{' ≠ quote by decide),
        if_neg (show CodePoint.ofChar '{' ≠ CodePoint.ofChar '[' by decide), if_true, hopen, Bool.false_eq_true,
        if_false]
      rw [readMembers_write hnames h [] (by omega), List.reverse_nil, List.nil_append, Table.ofPairs_eq hnodup]

/-- **A value is read as it was written.** -/
theorem readsBack_of_isFaithful (h : IsFaithful limit v) : ReadsBack limit v := by
  induction h with
  | null => exact readsBack_null
  | bool b => exact readsBack_bool b
  | integer h => exact readsBack_integer h
  | string h => exact readsBack_string h
  | array _ ih => exact readsBack_array ih
  | object hnodup hnames _ ih => exact readsBack_object hnodup hnames ih

/-- **A document is read as it was written.** -/
theorem parseWithin_pretty (h : IsFaithful limit v) : parseWithin limit v.pretty = some v := by
  have hread := readsBack_of_isFaithful h 0 ((write 0 v).length + 1) [] (Nat.le_succ _) delimits_nil
  rw [List.append_nil] at hread
  rw [parseWithin, pretty, hread]
  rfl

end Values

end ExtensionAudit.Json
