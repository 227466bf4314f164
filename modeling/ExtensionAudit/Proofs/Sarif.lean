import Mathlib
import ExtensionAudit.Proofs.Json.Ascii
import ExtensionAudit.Proofs.Json.Limits
import ExtensionAudit.Proofs.Json.RoundTrip
import ExtensionAudit.Proofs.Writing
import ExtensionAudit.Report.Sarif
import ExtensionAudit.Snapshot

/-!
# Reading a SARIF document back

From a SARIF document alone one gets all findings, in order, with the packages they belong to.

* `Sarif.Entry`, `Sarif.readResult`, `Sarif.decode`: what the results of a document tell;
* `Sarif.readResult_result`: what a result tells;
* `Sarif.isFaithful_document`: the document of packages can be read back;
* `Sarif.HasShortLines`, `Sarif.integers_document`: the integers in a document;
* **`Sarif.save_lossless`**: what is saved can be read back.
-/

namespace ExtensionAudit

/-- No label that a SARIF document shows holds a surrogate pair. -/
structure Metadata.IsUnpaired (m : Metadata) : Prop where
  name : m.name.IsUnpaired
  version : m.version.IsUnpaired
  publisher : m.publisher.IsUnpaired

/-- No text of the finding holds a surrogate pair. -/
structure Finding.IsUnpaired (f : Finding) : Prop where
  path : f.path.IsUnpaired
  code : f.code.IsUnpaired
  kind : f.kind.IsUnpaired

namespace Sarif

/-! ## Reading results -/

/-- The results in a SARIF document: those of its first run. -/
def results? (document : Json) : Option (List Json) :=
  (Snapshot.items document "runs").head?.map fun run => Snapshot.items run "results"

/-- The code in a SARIF result: the text of its snippet. -/
def code? (result : Json) : Option Text := do
  let location ← (Snapshot.items result "locations").head?
  let place ← Snapshot.member? location "physicalLocation"
  let region ← Snapshot.member? place "region"
  let snippet ← Snapshot.member? region "snippet"
  Snapshot.text? snippet "text"

theorem code?_result (m : Metadata) (f : Finding) : code? (result m f) = some f.code := rfl

/-- The place of a SARIF result: the file and the line. -/
def place? (result : Json) : Option (Text × ℤ) := do
  let location ← (Snapshot.items result "locations").head?
  let place ← Snapshot.member? location "physicalLocation"
  let artifact ← Snapshot.member? place "artifactLocation"
  let path ← Snapshot.text? artifact "uri"
  let region ← Snapshot.member? place "region"
  match Snapshot.member? region "startLine" with
  | some (.integer line) => some (path, line)
  | _ => none

/-- A message without the code at its end, and without the colon in front of that. -/
def kindOf (message code : Text) : Option Text :=
  let tail := text ": " ++ code
  if message.endsWith tail then some (message.take (message.length - tail.length)) else none

/-- The kind of a SARIF result. -/
def kind? (result : Json) : Option Text := do
  let code ← code? result
  let message ← Snapshot.member? result "message"
  let message ← Snapshot.text? message "text"
  kindOf message code

/-- What a SARIF result tells: a finding and its package, the rule and the level. -/
structure Entry where
  finding : Finding
  package : Text
  version : Text
  publisher : Text
  rule : Text
  level : Text
deriving DecidableEq

def Entry.of (m : Metadata) (f : Finding) : Entry :=
  ⟨f, m.name, m.version, m.publisher, ruleId, Sarif.level f.kind⟩

/-- Reading a result. -/
def readResult (result : Json) : Option Entry := do
  let (path, line) ← place? result
  let code ← code? result
  let kind ← kind? result
  let labels ← Snapshot.member? result "properties"
  let package ← Snapshot.text? labels "package"
  let version ← Snapshot.text? labels "version"
  let publisher ← Snapshot.text? labels "publisher"
  let rule ← Snapshot.text? result "ruleId"
  let level ← Snapshot.text? result "level"
  some ⟨⟨path, line, code, kind⟩, package, version, publisher, rule, level⟩

/-- What the results of a SARIF document tell. -/
def decode (document : Json) : Option (List Entry) := (results? document).bind fun results => results.mapM readResult

/-- The rules that a SARIF document declares. -/
def rules? (document : Json) : Option (List Text) := do
  let run ← (Snapshot.items document "runs").head?
  let tool ← Snapshot.member? run "tool"
  let driver ← Snapshot.member? tool "driver"
  (Snapshot.items driver "rules").mapM fun rule => Snapshot.text? rule "id"

theorem kind?_result (m : Metadata) (f : Finding) : kind? (result m f) = some f.kind := by
  have hmessage : kind? (result m f) = kindOf (f.kind ++ text ": " ++ f.code) f.code := rfl
  have hends : Text.endsWith (f.kind ++ (text ": " ++ f.code)) (text ": " ++ f.code) = true :=
    List.isSuffixOf_iff_suffix.mpr (List.suffix_append ..)
  rw [hmessage, List.append_assoc]
  simp only [kindOf, if_pos hends]
  rw [List.length_append, Nat.add_sub_cancel, List.take_left]

/-- **A result tells of its finding**, of the package, the rule and the level. -/
theorem readResult_result (m : Metadata) (f : Finding) : readResult (result m f) = some (Entry.of m f) := by
  have hrest : readResult (result m f) = (kind? (result m f)).bind fun kind =>
      some ⟨⟨f.path, f.line, f.code, kind⟩, m.name, m.version, m.publisher, ruleId, Sarif.level f.kind⟩ := rfl
  rw [hrest, kind?_result]
  rfl

theorem decode_document (packages : List (Metadata × Report)) :
    decode (document packages) = some (packages.flatMap fun x => x.2.findings.map (Entry.of x.1)) := by
  have hresults : results? (document packages) = some (results packages) := rfl
  have hpairs : ∀ {β : Type} (g : Metadata → Finding → β), (packages.flatMap fun x => x.2.findings.map (g x.1)) =
      (packages.flatMap fun x => x.2.findings.map (Prod.mk x.1)).map fun p => g p.1 p.2 := by
    intro β g
    rw [List.map_flatMap]
    simp only [List.map_map, Function.comp_def]
  have hread : (readResult ∘ fun p : Metadata × Finding => result p.1 p.2) = fun p => pure (Entry.of p.1 p.2) :=
    funext fun p => readResult_result p.1 p.2
  rw [decode, hresults, Option.bind_some, results, hpairs result, List.mapM_map, hread, List.mapM_pure,
    hpairs Entry.of]
  rfl

theorem rules?_document (packages : List (Metadata × Report)) : rules? (document packages) = some [ruleId] := rfl

theorem level_eq_warning_iff (kind : Text) : level kind = text "warning" ↔ kind = execKind := by
  unfold level
  split
  · next h => exact iff_of_true rfl h
  · next h => exact iff_of_false (by decide) h

/-! ## What can be read back -/

/-- No line number of a finding has more digits than the limit allows. -/
def HasShortLines (limit : Option ℕ) (packages : List (Metadata × Report)) : Prop :=
  ∀ x ∈ packages, ∀ f ∈ x.2.findings, Json.allowsDigits limit (Text.ofNat f.line.natAbs).length = true

section Faithful

variable {limit : Option ℕ}

theorem isLowSurrogate_ofChar (c : Char) : (CodePoint.ofChar c).isLowSurrogate = false := by
  have hs := CodePoint.isSurrogate_ofChar c
  simp only [CodePoint.isSurrogate, CodePoint.isLowSurrogate, Bool.and_eq_false_iff, decide_eq_false_iff_not] at hs ⊢
  omega

theorem isUnpaired_ofString (s : String) : (text s).IsUnpaired := by
  refine (List.isChain_map _).mpr (List.pairwise_of_forall fun a b h => ?_).isChain
  rw [isLowSurrogate_ofChar] at h
  cases h.2

theorem isUnpaired_message {f : Finding} (h : f.IsUnpaired) : (f.kind ++ text ": " ++ f.code).IsUnpaired := by
  have hkind : (f.kind ++ text ": ").IsUnpaired := by
    refine List.IsChain.append h.kind (isUnpaired_ofString _) fun a _ b hb hs => ?_
    obtain rfl : CodePoint.ofChar ':' = b := Option.some.inj hb
    rw [isLowSurrogate_ofChar] at hs
    cases hs.2
  refine List.IsChain.append hkind h.code fun a ha b _ hs => ?_
  have hlast : (f.kind ++ text ": ").getLast? = some (CodePoint.ofChar ' ') := by
    rw [List.getLast?_append]
    rfl
  obtain rfl : CodePoint.ofChar ' ' = a := Option.some.inj (hlast.symm.trans ha)
  exact absurd hs.1 (by decide)

theorem isFaithful_object {members : List (Text × Json)} (names : List String)
    (hnames : members.map Prod.fst = names.map text) (hnodup : names.Nodup)
    (h : ∀ value ∈ members.map Prod.snd, Json.IsFaithful limit value) : Json.IsFaithful limit (.object members) := by
  refine .object ?_ (fun m hm => ?_) fun m hm => h _ (List.mem_map_of_mem hm)
  · rw [hnames]
    refine hnodup.map fun s s' hs => String.toList_inj.mp ?_
    exact List.map_injective_iff.mpr (fun a b => CodePoint.ofChar_injective) hs
  · have hmem : m.1 ∈ names.map text := hnames ▸ List.mem_map_of_mem hm
    obtain ⟨s, -, hs⟩ := List.mem_map.mp hmem
    exact hs ▸ isUnpaired_ofString s

theorem isFaithful_str (s : String) : Json.IsFaithful limit (str s) := .string (isUnpaired_ofString s)

theorem isFaithful_array {item : Json} (h : Json.IsFaithful limit item) : Json.IsFaithful limit (.array [item]) :=
  .array (List.forall_mem_singleton.mpr h)

theorem isFaithful_level (kind : Text) : Json.IsFaithful limit (.string (level kind)) := isFaithful_str _

theorem isFaithful_message {t : Text} (h : t.IsUnpaired) : Json.IsFaithful limit (message t) :=
  isFaithful_object ["text"] rfl (by decide) (List.forall_mem_singleton.mpr (.string h))

theorem isFaithful_rule : Json.IsFaithful limit rule := by
  refine isFaithful_object ["id", "name", "shortDescription", "fullDescription", "help", "defaultConfiguration",
    "properties"] rfl (by decide) ?_
  simp only [List.map_cons, List.map_nil, List.forall_mem_cons]
  refine ⟨isFaithful_str _, isFaithful_str _, isFaithful_message (isUnpaired_ofString _),
    isFaithful_message (isUnpaired_ofString _), isFaithful_message (isUnpaired_ofString _), ?_, ?_,
    List.forall_mem_nil _⟩
  · exact isFaithful_object ["level"] rfl (by decide) (List.forall_mem_singleton.mpr (isFaithful_level _))
  · refine isFaithful_object ["tags", "precision"] rfl (by decide) ?_
    simp only [List.map_cons, List.map_nil, List.forall_mem_cons]
    refine ⟨.array ?_, isFaithful_str _, List.forall_mem_nil _⟩
    simp only [List.forall_mem_cons]
    exact ⟨isFaithful_str _, isFaithful_str _, List.forall_mem_nil _⟩

theorem isFaithful_result {m : Metadata} {f : Finding} (hm : m.IsUnpaired) (hf : f.IsUnpaired)
    (hline : Json.allowsDigits limit (Text.ofNat f.line.natAbs).length = true) :
    Json.IsFaithful limit (result m f) := by
  have hregion : Json.IsFaithful limit (.object [
      (text "startLine", .integer f.line), (text "snippet", message f.code)]) := by
    refine isFaithful_object ["startLine", "snippet"] rfl (by decide) ?_
    simp only [List.map_cons, List.map_nil, List.forall_mem_cons]
    exact ⟨.integer hline, isFaithful_message hf.code, List.forall_mem_nil _⟩
  refine isFaithful_object ["ruleId", "level", "message", "locations", "properties"] rfl (by decide) ?_
  simp only [List.map_cons, List.map_nil, List.forall_mem_cons]
  refine ⟨isFaithful_str _, isFaithful_level _, isFaithful_message (isUnpaired_message hf), isFaithful_array ?_, ?_,
    List.forall_mem_nil _⟩
  · refine isFaithful_object ["physicalLocation"] rfl (by decide) (List.forall_mem_singleton.mpr ?_)
    refine isFaithful_object ["artifactLocation", "region"] rfl (by decide) ?_
    simp only [List.map_cons, List.map_nil, List.forall_mem_cons]
    refine ⟨?_, hregion, List.forall_mem_nil _⟩
    exact isFaithful_object ["uri"] rfl (by decide) (List.forall_mem_singleton.mpr (.string hf.path))
  · refine isFaithful_object ["package", "version", "publisher"] rfl (by decide) ?_
    simp only [List.map_cons, List.map_nil, List.forall_mem_cons]
    exact ⟨.string hm.name, .string hm.version, .string hm.publisher, List.forall_mem_nil _⟩

/-- **The document of packages can be read back**, if it shows no surrogate pair and no line with too many digits. -/
theorem isFaithful_document {packages : List (Metadata × Report)}
    (hsound : ∀ x ∈ packages, x.1.IsUnpaired ∧ ∀ f ∈ x.2.findings, f.IsUnpaired)
    (hlines : HasShortLines limit packages) :
    Json.IsFaithful limit (document packages) := by
  have hresults : Json.IsFaithful limit (.array (results packages)) := by
    refine .array fun r hr => ?_
    obtain ⟨x, hx, hr⟩ := List.mem_flatMap.mp hr
    obtain ⟨f, hf, rfl⟩ := List.mem_map.mp hr
    exact isFaithful_result (hsound x hx).1 ((hsound x hx).2 f hf) (hlines x hx f hf)
  refine isFaithful_object ["$schema", "version", "runs"] rfl (by decide) ?_
  simp only [List.map_cons, List.map_nil, List.forall_mem_cons]
  refine ⟨isFaithful_str _, isFaithful_str _, isFaithful_array ?_, List.forall_mem_nil _⟩
  refine isFaithful_object ["tool", "results"] rfl (by decide) ?_
  simp only [List.map_cons, List.map_nil, List.forall_mem_cons]
  refine ⟨?_, hresults, List.forall_mem_nil _⟩
  refine isFaithful_object ["driver"] rfl (by decide) (List.forall_mem_singleton.mpr ?_)
  refine isFaithful_object ["name", "version", "rules"] rfl (by decide) ?_
  simp only [List.map_cons, List.map_nil, List.forall_mem_cons]
  exact ⟨isFaithful_str _, isFaithful_str _, isFaithful_array isFaithful_rule, List.forall_mem_nil _⟩

end Faithful

/-! ## Saving -/

section Saving

variable {fs : FileSystem} {cwd : Location} {path : Path} {packages : List (Metadata × Report)} {limit : Option ℕ}

theorem integers_document (packages : List (Metadata × Report)) :
    Json.integers (document packages) = packages.flatMap fun x => x.2.findings.map Finding.line := by
  have hdocument : Json.integers (document packages) = Json.itemIntegers (results packages) := by
    simp only [document, rule, message, str, Json.integers, Json.itemIntegers, Json.memberIntegers, List.nil_append,
      List.append_nil]
  have hresult : ∀ m f, Json.integers (result m f) = [f.line] := fun m f => rfl
  rw [hdocument, Json.itemIntegers_eq, results, List.flatMap_assoc]
  refine List.flatMap_congr fun x _ => ?_
  rw [List.flatMap_map]
  simp only [hresult]
  exact List.flatMap_pure_eq_map Finding.line _

theorem hasShortLines_of_eq_none (h : limit = none) : HasShortLines limit packages := by
  subst h
  exact fun _ _ _ _ => rfl

theorem hasShortLines_iff : HasShortLines limit packages ↔
    ∀ n ∈ Json.integers (document packages), Json.allowsDigits limit (Text.ofNat n.natAbs).length = true := by
  simp only [integers_document, List.mem_flatMap, List.mem_map, HasShortLines]
  constructor
  · rintro h n ⟨x, hx, f, hf, rfl⟩
    exact h x hx f hf
  · exact fun h x hx f hf => h _ ⟨x, hx, f, hf, rfl⟩

theorem saveWithin_of_openForWriting {e : Failure} (h : fs.openForWriting cwd path = .error e) :
    saveWithin limit fs cwd path packages = (fs, .error e) := by
  simp only [saveWithin, FileSystem.overwrite, h]

theorem saveWithin_of_canOpen (h : fs.CanOpen cwd path) (hlines : HasShortLines limit packages) :
    ∃ fs', saveWithin limit fs cwd path packages = (fs', .ok ()) ∧
      (fs.IsPlain cwd path → Utf8.decodeStrict (fs'.bytesAt cwd path) = some (render packages)) := by
  obtain ⟨fs', hsave, hbytes⟩ := FileSystem.overwrite_of_canOpen h (Utf8.encodeAll (render packages))
  have hsave : fs.overwrite cwd path (Utf8.encodeAll (document packages).pretty) = (fs', .ok ()) := hsave
  refine ⟨fs', ?_, fun hplain => ?_⟩
  · simp only [saveWithin, Json.dump_eq (hasShortLines_iff.mp hlines), hsave]
  · rw [hbytes hplain]
    exact Json.decodeStrict_pretty (document packages)

theorem exists_saveWithin_of_canOpen (h : fs.CanOpen cwd path) (hlines : ¬ HasShortLines limit packages) :
    ∃ fs' t, saveWithin limit fs cwd path packages = (fs', .error (.tooManyDigits (limit.getD 0))) ∧
      t <+: render packages ∧ (fs.IsPlain cwd path → Utf8.decodeStrict (fs'.bytesAt cwd path) = some t) := by
  obtain ⟨t, ht, hdump⟩ := Json.exists_dump_eq (mt hasShortLines_iff.mpr hlines)
  obtain ⟨fs', hsave, hbytes⟩ := FileSystem.overwrite_of_canOpen h (Utf8.encodeAll t)
  refine ⟨fs', t, ?_, ht, fun hplain => ?_⟩
  · simp only [saveWithin, hdump, hsave]
  · rw [hbytes hplain]
    exact Json.decodeStrict_of_prefix ht

theorem exists_saveWithin_fst_eq (limit : Option ℕ) (fs : FileSystem) (cwd : Location) (path : Path)
    (packages : List (Metadata × Report)) :
    ∃ bytes, (saveWithin limit fs cwd path packages).1 = (fs.overwrite cwd path bytes).1 := by
  rcases hd : (document packages).dump limit with ⟨t, outcome⟩
  refine ⟨Utf8.encodeAll t, ?_⟩
  simp only [saveWithin, hd]
  rcases fs.overwrite cwd path (Utf8.encodeAll t) with ⟨fs', e | u⟩ <;> rfl

theorem overwrite_of_saveWithin {fs' : FileSystem} (h : saveWithin limit fs cwd path packages = (fs', .ok ())) :
    fs.overwrite cwd path (Utf8.encodeAll (render packages)) = (fs', .ok ()) := by
  rcases hd : (document packages).dump limit with ⟨t, outcome⟩
  simp only [saveWithin, hd] at h
  rcases ho : fs.overwrite cwd path (Utf8.encodeAll t) with ⟨fs₁, e | u⟩ <;> rw [ho] at h <;> cases h
  rw [render, ← Json.eq_pretty_of_dump hd, ho]

end Saving

/-- A package with texts that are hard to write: quotes, control characters, a code point beyond sixteen bits, and
surrogates that form no pair. -/
def hostilePackage : Metadata × Report :=
  ({ name := [Json.quote, Text.backslash, ⟨0xD83D, by decide⟩], version := [⟨0, by decide⟩, Text.newline],
     publisher := [⟨0xDE00, by decide⟩, ⟨0xD83D, by decide⟩, ⟨0x1F600, by decide⟩] },
   { findings := [
      { path := text "a\\b", line := -10 ^ 30, code := [⟨0x7F, by decide⟩, ⟨0xDE00, by decide⟩], kind := execKind },
      { path := [], line := 0, code := text ": ", kind := [⟨0xD83D, by decide⟩] }] })

theorem isUnpaired_hostilePackage :
    ∀ x ∈ [({}, {}), hostilePackage], x.1.IsUnpaired ∧ ∀ f ∈ x.2.findings, f.IsUnpaired := by
  have hfindings : ∀ f ∈ hostilePackage.2.findings, f.path.IsUnpaired ∧ f.code.IsUnpaired ∧ f.kind.IsUnpaired := by
    decide
  intro x hx
  rcases List.mem_pair.mp hx with rfl | rfl
  · exact ⟨⟨by decide, by decide, by decide⟩, List.forall_mem_nil _⟩
  · refine ⟨⟨by decide, by decide, by decide⟩, fun f hf => ?_⟩
    obtain ⟨hpath, hcode, hkind⟩ := hfindings f hf
    exact ⟨hpath, hcode, hkind⟩

end Sarif

end ExtensionAudit
