import Mathlib
import ExtensionAudit.Proofs.Scan.Report
import ExtensionAudit.Proofs.Writing

/-!
# The text of a log

The bytes of a log are those of a text, from the moment when it is started afresh: its heading, and then one block
for each result of the analyses so far.

* `AuditLog.Holds`, `AuditLog.Holds.decodeStrict_eq`: the text that a log holds;
* `LogOnly`, **`logOnly_analyze`**: an analysis writes nothing else;
* `AuditLog.holds_reset`, **`adds_analyze`**, `holds_analyze`: the text of a new log, and what an analysis adds.
-/

namespace ExtensionAudit

variable {log : Path} {ps : List Package} {w w' : World} {t t' : Text} {a : Analysis}

namespace AuditLog

/-- **The log holds a text**, and it is neither a pipe nor a device. -/
structure Holds (w : World) (log : Path) (t : Text) : Prop where
  isPlain : w.files.IsPlain w.cwd log
  bytesAt_eq : w.files.bytesAt w.cwd log = Utf8.encodeAll t
  isEncodable : t.isEncodable = true

theorem Holds.decodeStrict_eq (h : Holds w log t) : Utf8.decodeStrict (w.files.bytesAt w.cwd log) = some t := by
  rw [h.bytesAt_eq, Utf8.decodeStrict_encodeAll h.isEncodable]

theorem Holds.adds (h : Holds w log t) (ha : Adds log w w' (Utf8.encodeAll t')) (he : t'.isEncodable = true) :
    Holds w' log (t ++ t') :=
  ⟨ha.isPlain, by rw [ha.bytesAt_eq, h.bytesAt_eq, Utf8.encodeAll_append],
   Text.isEncodable_append.mpr ⟨h.isEncodable, he⟩⟩

theorem Holds.of_stat_eq (h : Holds w log t) (hs : w'.files.stat w'.cwd log = w.files.stat w.cwd log) :
    Holds w' log t := by
  refine ⟨fun node hn => h.isPlain node (hs ▸ hn), ?_, h.isEncodable⟩
  rw [FileSystem.bytesAt, hs]
  exact h.bytesAt_eq

theorem holds_reset (h : reset w log = (w', .ok ())) (hp : w'.files.IsPlain w'.cwd log) :
    Holds w' log Report.header := by
  obtain ⟨loc, hl, hn⟩ := node?_reset h hp
  exact ⟨hp, FileSystem.bytesAt_of_stat (FileSystem.stat_of_locate hl hn), by decide⟩

end AuditLog

theorem isEncodable_flatMap {α : Type} {f : α → Text} {xs : List α} (h : ∀ x ∈ xs, (f x).isEncodable = true) :
    Text.isEncodable (xs.flatMap f) = true := by
  rw [Text.isEncodable_iff]
  intro c hc
  obtain ⟨x, hx, hc⟩ := List.mem_flatMap.mp hc
  exact Text.isEncodable_iff.mp (h x hx) c hc

/-! ## The files -/

/-- **Only the log is written** between two worlds. -/
structure LogOnly (log : Path) (w w' : World) : Prop where
  sameHost : w.SameHost w'
  appended : FileSystem.Appended w.cwd log w.files w'.files

namespace LogOnly

variable {w₁ : World}

theorem refl (log : Path) (w : World) : LogOnly log w w := ⟨.refl w, .refl⟩

theorem trans (h : LogOnly log w w₁) (h' : LogOnly log w₁ w') : LogOnly log w w' := by
  have happended := h'.appended
  rw [h.sameHost.cwd_eq] at happended
  exact ⟨h.sameHost.trans h'.sameHost, h.appended.trans happended⟩

theorem note (h : LogOnly log w w') (n : Notice) : LogOnly log w (w'.note n) :=
  ⟨h.sameHost.trans ⟨rfl, rfl, rfl, rfl⟩, h.appended⟩

theorem canOpen (h : LogOnly log w w') (ho : w.files.CanOpen w.cwd log) : w'.files.CanOpen w'.cwd log := by
  rw [h.sameHost.cwd_eq]
  exact h.appended.canOpen ho

end LogOnly

theorem logOnly_scan {p : Package} {result : Except Failure Report} (hs : p.scan w = (w', result)) :
    LogOnly log w w' := by
  have hf := p.files_scan w
  have hhost := p.sameHost_scan w
  rw [hs] at hf hhost
  exact ⟨hhost, by rw [hf]; exact .refl⟩

theorem AuditLog.sameHost_record (w : World) (log : Path) (m : Metadata) (r : Report) :
    w.SameHost (record w log m r).1 := by
  obtain ⟨journal, hr⟩ := exists_record_fst_eq w log m r
  rw [hr]
  exact ⟨rfl, rfl, rfl, rfl⟩

theorem logOnly_record {m : Metadata} {r : Report} {result : Except Failure Text}
    (h : AuditLog.record w log m r = (w', result)) : LogOnly log w w' := by
  obtain ⟨journal, hr⟩ := AuditLog.exists_record_fst_eq w log m r
  rw [h] at hr
  rw [show w' = _ from hr]
  exact ⟨⟨rfl, rfl, rfl, rfl⟩, FileSystem.Appended.refl.append _⟩

theorem Analyzed.logOnly {results : List (Package × Report)} (h : Analyzed log w ps w' results) :
    LogOnly log w w' := by
  induction h with
  | nil => exact .refl log _
  | leftOut hs _ _ _ ih => exact ((logOnly_scan hs).note _).trans ih
  | recorded hs hr _ ih => exact ((logOnly_scan hs).trans (logOnly_record hr)).trans ih

theorem Fails.logOnly {p : Package} {e : Failure} (h : Fails log p w w' e) : LogOnly log w w' := by
  cases h with
  | scan hs _ => exact logOnly_scan hs
  | record hs hr => exact (logOnly_scan hs).trans (logOnly_record hr)

/-! ## The text of the log -/

/-- **How an analysis ends**, with its results: those of all packages, or of the ones before that at which it fails. -/
theorem analyzed_of_analyze (h : analyze log ps w = (w', a)) :
    (a.failure = none ∧ ∃ w₁, w' = w₁.note .analysisDone ∧ Analyzed log w ps w₁ a.results) ∨
      ∃ done p rest w₁ e, a.failure = some e ∧ ps = done ++ p :: rest ∧ Analyzed log w done w₁ a.results ∧
        Fails log p w₁ w' e := by
  rcases analyze_cases log ps w with
    ⟨w₁, results, hd, ha⟩ | ⟨done, p, rest, w₁, w₂, results, e, hps, hd, hf, ha⟩
  · obtain ⟨rfl, rfl⟩ := Prod.mk.inj (h.symm.trans ha)
    rw [Analysis.results_prepend, List.append_nil]
    exact Or.inl ⟨Analysis.failure_prepend _ _, w₁, rfl, hd⟩
  · obtain ⟨rfl, rfl⟩ := Prod.mk.inj (h.symm.trans ha)
    rw [Analysis.results_prepend, List.append_nil]
    exact Or.inr ⟨done, p, rest, w₁, e, Analysis.failure_prepend _ _, hps, hd, hf⟩

/-- **An analysis writes the log and nothing else.** -/
theorem logOnly_analyze (h : analyze log ps w = (w', a)) : LogOnly log w w' := by
  rcases analyzed_of_analyze h with ⟨-, w₁, rfl, hd⟩ | ⟨done, p, rest, w₁, e, -, -, hd, hf⟩
  · exact hd.logOnly.note _
  · exact hd.logOnly.trans hf.logOnly

theorem isGenuine_of_analyze (h : analyze log ps w = (w', a)) : ∀ x ∈ a.results, x.2.IsGenuine := by
  rcases analyzed_of_analyze h with ⟨-, w₁, -, hd⟩ | ⟨done, p, rest, w₁, e, -, -, hd, -⟩
  · exact hd.isGenuine
  · exact hd.isGenuine

/-- **An analysis adds the blocks of its results**, also if it ends early. -/
theorem adds_analyze (hp : w.files.IsPlain w.cwd log) (h : analyze log ps w = (w', a)) :
    Adds log w w' (Utf8.encodeAll (a.results.flatMap blockOf)) ∧ ∀ x ∈ a.results, (blockOf x).isEncodable = true := by
  rcases analyzed_of_analyze h with ⟨-, w₁, rfl, hd⟩ | ⟨done, p, rest, w₁, e, -, -, hd, hf⟩
  · obtain ⟨hadds, he⟩ := hd.adds hp
    exact ⟨⟨hadds.cwd_eq, hadds.isPlain, hadds.bytesAt_eq⟩, he⟩
  · obtain ⟨hadds, he⟩ := hd.adds hp
    have hadds' := hadds.trans (hf.adds hadds.isPlain)
    rw [List.append_nil] at hadds'
    exact ⟨hadds', he⟩

theorem AuditLog.Holds.analyze (hl : AuditLog.Holds w log t) (h : analyze log ps w = (w', a)) :
    AuditLog.Holds w' log (t ++ a.results.flatMap blockOf) := by
  obtain ⟨hadds, he⟩ := adds_analyze hl.isPlain h
  exact hl.adds hadds (isEncodable_flatMap he)

theorem holds_analyze {w₁ : World} {notices : List Notice} (hreset : AuditLog.reset w log = (w₁, .ok ()))
    (hp : w₁.files.IsPlain w₁.cwd log) (ha : analyze log ps (w₁.noteAll notices) = (w', a)) :
    AuditLog.Holds w' log (Report.header ++ a.results.flatMap blockOf) := by
  have hnoted : AuditLog.Holds (w₁.noteAll notices) log Report.header :=
    (AuditLog.holds_reset hreset hp).of_stat_eq rfl
  exact hnoted.analyze ha

end ExtensionAudit
