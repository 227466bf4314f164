import Mathlib
import ExtensionAudit.Proofs.Detect.Denylists
import ExtensionAudit.Proofs.Groups

/-!
# Denylists and their histories

A denylist is made of some offers, and more offers may follow at any time, of which some are refused. Whatever its
history is, it holds the commands that have been offered, each where it was offered first. None of them is empty, so
no argument without a code point is suspicious.

* `Denylist.Offer.refusal?`, `Denylist.Offer.command?`: what becomes of an offer, whatever the denylist holds;
* `Denylist.Records`, **`Denylist.Records.offer`**: the offers that a denylist records, and one more;
* `Denylist.offerAll`, `Denylist.Records.offerAll`: offers one after the other;
* `Denylist.foldlM_add`, `Denylist.create_eq`: a new denylist is the empty one after its first offers, unless one is
  refused;
* **`Denylist.create_offerAll`**: denylists over their histories.
-/

namespace ExtensionAudit

namespace Denylist

variable {d : Denylist} {offers : List Offer} {o : Offer} {refusal : Refusal}

/-! ## Offers -/

/-- Why an offer is refused, whatever the denylist holds. -/
def Offer.refusal? : Offer → Option Refusal
  | .other => some .notText
  | .text [] => some .empty
  | .text (_ :: _) => none

/-- The command that an offer brings. -/
def Offer.command? : Offer → Option Text
  | .other => none
  | .text [] => none
  | .text (c :: rest) => some (c :: rest)

theorem Offer.refusal?_eq_notText_iff : o.refusal? = some .notText ↔ o = .other := by
  rcases o with (_ | ⟨c, rest⟩) | _ <;> simp [refusal?]

theorem Offer.refusal?_eq_empty_iff : o.refusal? = some .empty ↔ o = .text [] := by
  rcases o with (_ | ⟨c, rest⟩) | _ <;> simp [refusal?]

theorem Offer.ne_nil_of_command? {command : Text} (h : o.command? = some command) : command ≠ [] := by
  rcases o with (_ | ⟨c, rest⟩) | _ <;> cases h
  exact List.cons_ne_nil c rest

theorem offer_of_refusal? (h : o.refusal? = some refusal) : d.offer o = (d, some refusal) := by
  rcases o with (_ | ⟨c, rest⟩) | _ <;> cases h <;> rfl

theorem offer_snd (d : Denylist) (o : Offer) : (d.offer o).2 = o.refusal? := by
  rcases o with (_ | ⟨c, rest⟩) | _ <;> rfl

theorem add_eq (d : Denylist) (o : Offer) :
    d.add o = (o.refusal?.elim (.ok (d.offer o).1) .error : Except Refusal Denylist) := by
  rcases o with (_ | ⟨c, rest⟩) | _ <;> rfl

/-! ## What a denylist records -/

/-- **The denylist holds the commands of some offers**, each where it was offered first. -/
def Records (d : Denylist) (offers : List Offer) : Prop := d.commands = (offers.filterMap Offer.command?).eraseDups

theorem records_empty : empty.Records [] := rfl

/-- **One offer more.** -/
theorem Records.offer (h : d.Records offers) (o : Offer) : (d.offer o).1.Records (offers ++ [o]) := by
  unfold Records
  rw [List.filterMap_append]
  match o with
  | .other => rwa [List.filterMap_cons_none rfl, List.filterMap_nil, List.append_nil]
  | .text [] => rwa [List.filterMap_cons_none rfl, List.filterMap_nil, List.append_nil]
  | .text (c :: rest) =>
    have hadd : d.add (.text (c :: rest)) = .ok (d.offer (.text (c :: rest))).1 := rfl
    have hbrought : [Offer.text (c :: rest)].filterMap Offer.command? = [c :: rest] := rfl
    rw [commands_of_add hadd, hbrought, eraseDups_concat, h]
    simp only [List.mem_eraseDups]

/-- The denylist after some offers, one after the other, whether they are refused or not. -/
def offerAll (d : Denylist) (offers : List Offer) : Denylist := offers.foldl (fun d o => (d.offer o).1) d

/-- **Any number of offers more.** -/
theorem Records.offerAll (h : d.Records offers) (calls : List Offer) :
    (d.offerAll calls).Records (offers ++ calls) := by
  induction calls using List.reverseRecOn with
  | nil => rwa [List.append_nil]
  | append_singleton calls o ih =>
    rw [← List.append_assoc, Denylist.offerAll, List.foldl_concat]
    exact ih.offer o

theorem Records.nodup (h : d.Records offers) : d.commands.Nodup := by
  rw [h]
  exact nodup_eraseDups _

theorem Records.nil_notMem (h : d.Records offers) : [] ∉ d.commands := by
  rw [h, List.mem_eraseDups, List.mem_filterMap]
  rintro ⟨o, -, ho⟩
  exact Offer.ne_nil_of_command? ho rfl

/-! ## New denylists -/

theorem foldlM_add (d : Denylist) (offers : List Offer) : offers.foldlM add d =
    ((offers.findSome? Offer.refusal?).elim (.ok (d.offerAll offers)) .error : Except Refusal Denylist) := by
  induction offers generalizing d with
  | nil => rfl
  | cons o offers ih =>
    rw [List.foldlM_cons, add_eq, List.findSome?_cons]
    cases o.refusal? with
    | some refusal => rfl
    | none => exact ih (d.offer o).1

/-- What a new denylist is offered: what is given, or else the standard names. -/
def firstOffers (given : Option (List Offer)) : List Offer :=
  given.getD (standardNames.map fun name => .text (text name))

theorem standard_eq : standard = empty.offerAll (firstOffers none) := by
  rw [firstOffers, Option.getD_none, offerAll, List.foldl_map, standard]
  congr 1
  funext d name
  cases text name <;> rfl

/-- **A new denylist** is the empty one after its first offers, unless one of them is refused. -/
theorem create_eq (given : Option (List Offer)) : create given =
    (((firstOffers given).findSome? Offer.refusal?).elim (.ok (empty.offerAll (firstOffers given))) .error :
      Except Refusal Denylist) := by
  cases given with
  | some offers => exact foldlM_add empty offers
  | none =>
    have hnone : (firstOffers none).findSome? Offer.refusal? = none := by decide
    rw [hnone, Option.elim_none, ← standard_eq]
    rfl

/-! ## Empty arguments -/

theorem Records.not_infix_nil (h : d.Records offers) : ¬ ∃ command ∈ d.commands, command <:+: [] := by
  rintro ⟨command, hc, hin⟩
  exact h.nil_notMem (List.infix_nil.mp hin ▸ hc)

theorem Records.isHitBy_nil (h : d.Records offers) : d.isHitBy [] = false := by
  rw [Bool.eq_false_iff, ne_eq, isHitBy_iff]
  exact h.not_infix_nil

theorem Records.code_ne_nil (h : d.Records offers) {content : Text} {f : Finding}
    (hf : f ∈ Detect.execFindings d content) : f.code ≠ [] := by
  obtain ⟨n, line, -, hfinding⟩ := Detect.mem_execFindings.mp hf
  obtain ⟨code, -, hhit, rfl⟩ := Detect.lineFinding?_eq_some_iff.mp hfinding
  rintro rfl
  exact h.not_infix_nil hhit

theorem Records.line_ne (h : d.Records offers) {content line : Text} {n : ℕ}
    (hline : (Text.lines content)[n]? = some line) (hcall : Detect.argument? line = some []) {f : Finding}
    (hf : f ∈ Detect.execFindings d content) : f.line ≠ n + 1 := by
  obtain ⟨m, line', hline', hfinding⟩ := Detect.mem_execFindings.mp hf
  obtain ⟨code, hcode, hhit, rfl⟩ := Detect.lineFinding?_eq_some_iff.mp hfinding
  intro hnumber
  obtain rfl : m = n := by simpa using hnumber
  obtain rfl : line = line' := Option.some.inj (hline.symm.trans hline')
  obtain rfl : [] = code := Option.some.inj (hcall.symm.trans hcode)
  exact h.not_infix_nil hhit

/-- **Denylists over their histories.** A denylist can be made exactly if none of its first offers is refused, and
else the first refusal is the reason. After any further offers, be they refused or not, it holds the commands that
have been offered so far, each where it was offered first, none twice and none empty. An offer is refused exactly if
it is no text or an empty one, and then it changes nothing. So an empty argument is never hit: no finding has one, and
where the call of a line has one there is no finding. -/
theorem create_offerAll (given : Option (List Offer)) :
    ((∃ d, create given = .ok d) ↔ ∀ o ∈ firstOffers given, o.refusal? = none) ∧
      (∀ refusal, create given = .error refusal ↔ (firstOffers given).findSome? Offer.refusal? = some refusal) ∧
      ∀ d, create given = .ok d → ∀ calls : List Offer,
        (d.offerAll calls).commands = ((firstOffers given ++ calls).filterMap Offer.command?).eraseDups ∧
        (d.offerAll calls).commands.Nodup ∧ [] ∉ (d.offerAll calls).commands ∧
        (∀ o, (((d.offerAll calls).offer o).2 = some .notText ↔ o = .other) ∧
          (((d.offerAll calls).offer o).2 = some .empty ↔ o = .text []) ∧
          (((d.offerAll calls).offer o).2 ≠ none → ((d.offerAll calls).offer o).1 = d.offerAll calls)) ∧
        (d.offerAll calls).isHitBy [] = false ∧
        ∀ content, ∀ f ∈ Detect.execFindings (d.offerAll calls) content, f.code ≠ [] ∧
          ∀ (n : ℕ) line, (Text.lines content)[n]? = some line → Detect.argument? line = some [] → f.line ≠ n + 1 := by
  rw [create_eq, ← List.findSome?_eq_none_iff]
  cases hfirst : (firstOffers given).findSome? Offer.refusal? with
  | some first =>
    refine ⟨?_, fun refusal => ?_, fun d hd => ?_⟩
    · simp only [Option.elim_some, reduceCtorEq, exists_false]
    · rw [Option.elim_some, Except.error.injEq, Option.some.injEq]
    · rw [Option.elim_some] at hd
      cases hd
  | none =>
    refine ⟨iff_of_true ⟨_, rfl⟩ rfl, fun refusal => ?_, fun d hd calls => ?_⟩
    · simp only [Option.elim_none, reduceCtorEq]
    rw [Option.elim_none] at hd
    cases hd
    have hrecords : ((empty.offerAll (firstOffers given)).offerAll calls).Records (firstOffers given ++ calls) :=
      (records_empty.offerAll (firstOffers given)).offerAll calls
    refine ⟨hrecords, hrecords.nodup, hrecords.nil_notMem, fun o => ?_, hrecords.isHitBy_nil,
      fun content f hf => ⟨hrecords.code_ne_nil hf, fun n line hline hcall => hrecords.line_ne hline hcall hf⟩⟩
    rw [offer_snd]
    refine ⟨Offer.refusal?_eq_notText_iff, Offer.refusal?_eq_empty_iff, fun hne => ?_⟩
    obtain ⟨refusal, ho⟩ := Option.ne_none_iff_exists'.mp hne
    rw [offer_of_refusal? ho]

/-- A history with offers that are refused and commands that come again. -/
theorem create_offerAll_mixed : ∃ d, create (some [.text (text "rm"), .text (text "ssh"), .text (text "rm")]) = .ok d ∧
    (d.offerAll [.other, .text (text "nmap"), .text [], .text (text "ssh")]).commands =
      [text "rm", text "ssh", text "nmap"] ∧
    (d.offerAll [.other, .text (text "nmap")]).offer (.text []) =
      (d.offerAll [.other, .text (text "nmap")], some .empty) := by
  obtain ⟨-, -, hcreate⟩ := create_offerAll (some [.text (text "rm"), .text (text "ssh"), .text (text "rm")])
  refine ⟨_, rfl, ?_, ?_⟩
  · rw [(hcreate _ rfl _).1]
    decide
  · obtain ⟨-, -, -, hoffer, -⟩ := hcreate _ rfl [.other, .text (text "nmap")]
    obtain ⟨-, hempty, hkept⟩ := hoffer (.text [])
    have hrefusal := hempty.mpr rfl
    exact Prod.ext (hkept (by rw [hrefusal]; exact Option.some_ne_none _)) hrefusal

end Denylist

end ExtensionAudit
