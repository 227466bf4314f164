import Mathlib
import ExtensionAudit.Proofs.Completion
import ExtensionAudit.Proofs.Log.Only
import ExtensionAudit.Proofs.Walk.Coverage

/-!
# Packages are analysed independently of each other

While packages are analysed one after the other, the log grows. If no entry of a package leads to the log, and there is
no time limit, its report is the one that it would have had at the start. So the results of an analysis are put together
from what each package contributes on its own.

* `Scanner.examine_congr`: what is read depends on the files that are read;
* `Aside`: nothing but the log has changed, and the settings are what they were;
* `Package.Apart`, **`Aside.report?_eq`**: the report of a package that does not lead to the log;
* `Analyzed.results_eq`, `analyze_eq_contributions`: the results of an analysis, and when it comes to its end;
* **`analyze_independent`**: analyses of two lists, and of one list in any order.
-/

namespace ExtensionAudit

open Scanner

/-! ## What is read -/

/-- **What is read depends on the files that are read.** -/
theorem Scanner.examine_congr {s : Scanner} {fs fs' : FileSystem} {cwd : Location} {files : List Path}
    (hl : s.timeLimit ≤ 0) (h : ∀ p ∈ files, fs'.stat cwd p = fs.stat cwd p) (clock clock' : Clock) :
    (s.examine fs' cwd clock' files).1 = (s.examine fs cwd clock files).1 := by
  have hresult : ∀ p ∈ files, s.fileResult fs' cwd p = s.fileResult fs cwd p := by
    intro p hp
    simp only [fileResult, FileSystem.content, h p hp]
  simp only [examine, Clock.reach_unlimited hl, List.take_length]
  rw [List.map_congr_left fun p hp => by rw [hresult p hp]]

/-! ## The world while packages are analysed -/

variable {log : Path} {target : Location} {p : Package} {ps : List Package} {w w₁ w' : World}

theorem FileSystem.canOpen_iff {fs : FileSystem} {cwd : Location} {node : Node} (hl : fs.locate cwd log = .ok target)
    (hn : fs.node? target = some node) : fs.CanOpen cwd log ↔ IsWritable node := by
  refine ⟨?_, canOpen_of_locate hl hn⟩
  rintro ⟨fs', loc, ho⟩
  obtain ⟨hopening, hl'⟩ := opening_of_openForWriting ho
  cases hl'.symm.trans (hopening.extends.keeps.locate hl)
  cases hopening with
  | found hn' hw =>
    cases hn.symm.trans hn'
    exact hw
  | made hd hv =>
    rw [hv] at hn
    cases hn

/-- **Nothing but the log has changed**, and the settings are what they were. -/
structure Aside (log : Path) (w w' : World) : Prop where
  sameHost : w.SameHost w'
  onlyLogs : OnlyLogs [log] w w'

namespace Aside

theorem refl (log : Path) (w : World) : Aside log w w :=
  ⟨.refl w, (OnlyLogs.of_files_eq rfl rfl).mono (List.nil_subset _)⟩

theorem trans (h : Aside log w w₁) (h' : Aside log w₁ w') : Aside log w w' :=
  ⟨h.sameHost.trans h'.sameHost, (h.onlyLogs.trans h'.onlyLogs).mono (by simp)⟩

theorem note (h : Aside log w w') (n : Notice) : Aside log w (w'.note n) :=
  ⟨h.sameHost.trans ⟨rfl, rfl, rfl, rfl⟩, h.onlyLogs.cwd_eq, h.onlyLogs.node?_eq_or⟩

theorem canOpen_iff (h : Aside log w w') (hl : w.files.locate w.cwd log = .ok target) :
    w'.files.CanOpen w'.cwd log ↔ w.files.CanOpen w.cwd log := by
  obtain ⟨node, hn, -⟩ := FileSystem.isSolid_of_locate hl
  have hl' := h.onlyLogs.locate_log hl
  rcases h.onlyLogs.node?_log hl with he | ⟨content, bytes, hold, hnew⟩
  · rw [FileSystem.canOpen_iff hl' (he.trans hn), FileSystem.canOpen_iff hl hn]
  · rw [FileSystem.canOpen_iff hl' hnew, FileSystem.canOpen_iff hl hold]
    exact iff_of_true (Or.inl ⟨_, rfl⟩) (Or.inl ⟨_, rfl⟩)

end Aside

theorem aside_scan {result : Except Failure Report} (hs : p.scan w = (w', result)) : Aside log w w' := by
  have hf := p.files_scan w
  have hhost := p.sameHost_scan w
  rw [hs] at hf hhost
  exact ⟨hhost, (OnlyLogs.of_files_eq hf hhost.cwd_eq).mono (List.nil_subset _)⟩

theorem aside_record {m : Metadata} {r : Report} {result : Except Failure Text}
    (h : AuditLog.record w log m r = (w', result)) : Aside log w w' := by
  have honly := onlyLogs_record w log m r
  have hhost := AuditLog.sameHost_record w log m r
  rw [h] at honly hhost
  exact ⟨hhost, honly⟩

theorem Analyzed.aside {results : List (Package × Report)} (h : Analyzed log w ps w' results) : Aside log w w' := by
  induction h with
  | nil => exact .refl log _
  | leftOut hs _ _ _ ih => exact ((aside_scan hs).note _).trans ih
  | recorded hs hr _ ih => exact ((aside_scan hs).trans (aside_record hr)).trans ih

/-! ## The report of one package -/

namespace Package

/-- The report of the package, unless its root cannot be listed. -/
def report? (p : Package) (w : World) : Option Report := (p.scan w).2.toOption

/-- **The package has nothing to do with a file**: it is an installed one, and no entry that a walk of it meets leads
to the file. -/
structure Apart (p : Package) (w : World) (target : Location) : Prop where
  isRemote_eq : Package.isRemote p.path = false
  nul_notMem : nul ∉ p.path
  locate_ne : ∀ vs, w.files.walk w.levels w.cwd p.path = .ok vs → ∀ v ∈ vs, w.files.locate w.cwd v.path ≠ .ok target

theorem report?_eq_none (hr : Package.isRemote p.path = false) (hz : nul ∉ p.path) (h : p.isListable w = false) :
    p.report? w = none := by
  obtain ⟨w₁, e, hs, -⟩ := exists_scan_unlistable hr hz h
  rw [report?, hs]
  rfl

theorem report?_of_isTooDeep (hr : Package.isRemote p.path = false) (hl : p.isListable w = true)
    (h : p.isTooDeep w = true) : p.report? w = none := by
  rcases scan_cases_of_isListable hr hl with ⟨-, w₁, hs⟩ | ⟨hd, -⟩ | ⟨hd, -⟩
  · rw [report?, hs]
    rfl
  · cases h.symm.trans hd
  · cases h.symm.trans hd

theorem report?_eq_some {vs : List Visit} (hr : Package.isRemote p.path = false) (hz : w.isTimeless = false)
    (hw : w.files.walk w.levels w.cwd p.path = .ok vs) : p.report? w = some (report vs
      ((prepare w p.path (some p.metadata) Denylist.standard).1.examine w.files w.cwd w.clock (Visit.files vs)).1) := by
  obtain ⟨w₁, hs⟩ := exists_report hr hw hz
  rw [report?, hs]
  rfl

end Package

section Unlimited

variable (h : Aside log w w') (hl : w.files.locate w.cwd log = .ok target)
include h hl

theorem Aside.isListable_eq (p : Package) : p.isListable w' = p.isListable w := by
  rw [Package.isListable, Package.isListable, h.sameHost.cwd_eq]
  exact (h.onlyLogs.sameShape hl).sameBranches.canList_eq

theorem Aside.isTooDeep_eq (p : Package) : p.isTooDeep w' = p.isTooDeep w := by
  rw [Package.isTooDeep, Package.isTooDeep, h.sameHost.cwd_eq, h.sameHost.levels_eq,
    (h.onlyLogs.sameShape hl).visitsOf_eq]

theorem Aside.stat_eq {vs : List Visit} (hp : p.Apart w target) (hw : w.files.walk w.levels w.cwd p.path = .ok vs)
    {q : Path} (hq : q ∈ Visit.files vs) : w'.files.stat w.cwd q = w.files.stat w.cwd q := by
  obtain ⟨loc, ha, -⟩ := FileSystem.exists_arrives_of_mem_files hw hq
  by_cases hs : q.IsShort
  · obtain ⟨v, hv, hf⟩ := List.mem_filterMap.mp hq
    have hne := hp.locate_ne vs hw v hv
    cases v <;> cases hf
    have hloc := ha.locate_eq hs
    exact h.onlyLogs.stat_eq hl hloc fun he => hne (he ▸ hloc)
  · -- such a file is not read, now or before
    obtain ⟨_, _, hleads⟩ := ha
    have hlong := fun fs : FileSystem => @FileSystem.locate_of_not_isShort fs w.cwd q hleads.nul_notMem hs
    rw [FileSystem.stat_eq_error_iff.mpr (hlong _), FileSystem.stat_eq_error_iff.mpr (hlong _)]

variable (hlimit : (Settings.timeLimit.read w.environment).1 ≤ 0)
include hlimit

/-- **The report of a package that has nothing to do with the log** is what it was before the log grew. -/
theorem Aside.report?_eq (hp : p.Apart w target) : p.report? w' = p.report? w := by
  have hz : w.isTimeless = false := Clock.isBeyond_of_nonpos hlimit _
  have hz' : w'.isTimeless = false := by
    rw [World.isTimeless, h.sameHost.environment_eq]
    exact Clock.isBeyond_of_nonpos hlimit _
  have hr := hp.isRemote_eq
  cases hlist : p.isListable w with
  | false =>
    rw [Package.report?_eq_none hr hp.nul_notMem hlist,
      Package.report?_eq_none hr hp.nul_notMem ((h.isListable_eq hl p).trans hlist)]
  | true =>
    have hlist' := (h.isListable_eq hl p).trans hlist
    cases hdeep : p.isTooDeep w with
    | true =>
      rw [Package.report?_of_isTooDeep hr hlist hdeep,
        Package.report?_of_isTooDeep hr hlist' ((h.isTooDeep_eq hl p).trans hdeep)]
    | false =>
      have hwalk := Package.walk_of_isListable hlist
      have hwalk' := Package.walk_of_isListable hlist'
      rw [hdeep, if_neg Bool.false_ne_true] at hwalk
      rw [h.isTooDeep_eq hl p, hdeep, if_neg Bool.false_ne_true, h.sameHost.cwd_eq, h.sameHost.levels_eq,
        (h.onlyLogs.sameShape hl).visitsOf_eq, ← h.sameHost.cwd_eq, ← h.sameHost.levels_eq] at hwalk'
      have hscanner : (prepare w' p.path (some p.metadata) Denylist.standard).1 =
          (prepare w p.path (some p.metadata) Denylist.standard).1 := by
        simp only [prepare, h.sameHost.environment_eq]
      rw [Package.report?_eq_some hr hz hwalk, Package.report?_eq_some hr hz' hwalk', hscanner, h.sameHost.cwd_eq,
        h.sameHost.levels_eq, examine_congr hlimit fun q hq => h.stat_eq hl hp hwalk hq]

end Unlimited

/-! ## The whole analysis -/

/-- What a package contributes to the results. -/
def Package.contribution? (w : World) (p : Package) : Option (Package × Report) :=
  (p.report? w).map fun r => (p, r)

/-- **Nothing about the package ends an analysis**: it is not too deep, and its block can be written if there is one. -/
structure Package.IsRecordable (log : Path) (w : World) (p : Package) : Prop where
  isTooDeep_eq : p.isListable w = true → p.isTooDeep w = false
  of_report : ∀ r, p.report? w = some r → w.files.CanOpen w.cwd log ∧ (r.block p.metadata).isEncodable = true

theorem canOpen_of_record {m : Metadata} {r : Report} {block : Text}
    (h : AuditLog.record w log m r = (w', .ok block)) :
    w.files.CanOpen w.cwd log ∧ (r.block m).isEncodable = true := by
  have hopen : w.files.CanOpen w.cwd log := by
    rcases ho : w.files.openForWriting w.cwd log with e | ⟨fs, loc⟩
    · simp [AuditLog.record, AuditLog.append, FileSystem.append, ho] at h
    · exact ⟨fs, loc, ho⟩
  refine ⟨hopen, ?_⟩
  have hsnd := AuditLog.record_snd_of_canOpen hopen m r
  rw [h] at hsnd
  by_contra he
  rw [if_neg he] at hsnd
  cases hsnd

section Analysis

variable (hl : w.files.locate w.cwd log = .ok target) (hlimit : (Settings.timeLimit.read w.environment).1 ≤ 0)
include hl hlimit

/-- **Packages that were gone through contributed on their own**, and their blocks could be written. -/
theorem Analyzed.results_eq {results : List (Package × Report)} (h : Analyzed log w₁ ps w' results)
    (ha : Aside log w w₁) (hps : ∀ p ∈ ps, p.Apart w target) :
    results = ps.filterMap (Package.contribution? w) ∧ ∀ p ∈ ps, p.IsRecordable log w := by
  induction h with
  | nil => exact ⟨rfl, List.forall_mem_nil _⟩
  | leftOut hs he _ _ ih =>
    obtain ⟨hp, hrest⟩ := List.forall_mem_cons.mp hps
    obtain ⟨hresults, hrecordable⟩ := ih (ha.trans ((aside_scan hs).note _)) hrest
    have hreport := ha.report?_eq hl hlimit hp
    rw [Package.report?, hs] at hreport
    refine ⟨?_, List.forall_mem_cons.mpr ⟨⟨fun hlist => ?_, fun r hr => ?_⟩, hrecordable⟩⟩
    · rw [List.filterMap_cons, Package.contribution?, ← hreport]
      exact hresults
    · cases he.symm.trans (Package.isFileError_of_isListable hp.isRemote_eq ((ha.isListable_eq hl _).trans hlist) hs)
    · rw [← hreport] at hr
      cases hr
  | @recorded p _ _ w₂ _ _ _ r _ hs hr _ ih =>
    obtain ⟨hp, hrest⟩ := List.forall_mem_cons.mp hps
    have ha' := ha.trans (aside_scan hs)
    obtain ⟨hresults, hrecordable⟩ := ih (ha'.trans (aside_record hr)) hrest
    have hreport := ha.report?_eq hl hlimit hp
    rw [Package.report?, hs] at hreport
    refine ⟨?_, List.forall_mem_cons.mpr ⟨⟨fun hlist => ?_, fun r' hr' => ?_⟩, hrecordable⟩⟩
    · rw [List.filterMap_cons, Package.contribution?, ← hreport, hresults]
      rfl
    · rw [← ha.isTooDeep_eq hl]
      rcases Package.scan_cases_of_isListable hp.isRemote_eq ((ha.isListable_eq hl _).trans hlist) with
        ⟨-, _, hs'⟩ | ⟨hd, -⟩ | ⟨hd, -⟩
      · cases hs.symm.trans hs'
      · exact hd
      · exact hd
    · rw [← hreport] at hr'
      cases hr'
      obtain ⟨hopen, he⟩ := canOpen_of_record hr
      exact ⟨(ha'.canOpen_iff hl).mp hopen, he⟩

theorem Fails.not_isRecordable {e : Failure} (h : Fails log p w₁ w' e) (ha : Aside log w w₁)
    (hp : p.Apart w target) : ¬ p.IsRecordable log w := by
  intro hrecordable
  cases h with
  | scan hs he =>
    -- without a time limit an installed package fails at a file or is too deep
    cases hlist : p.isListable w₁ with
    | false =>
      obtain ⟨w₂, e', hs', he'⟩ := Package.exists_scan_unlistable hp.isRemote_eq hp.nul_notMem hlist
      cases hs.symm.trans hs'
      rw [he] at he'
      cases he'
    | true =>
      have hd := hrecordable.isTooDeep_eq ((ha.isListable_eq hl p).symm.trans hlist)
      rcases Package.scan_cases_of_isListable hp.isRemote_eq hlist with ⟨hd', -⟩ | ⟨-, hz, -⟩ | ⟨-, -, w₂, r, hs'⟩
      · cases ((ha.isTooDeep_eq hl p).trans hd).symm.trans hd'
      · rw [World.isTimeless, ha.sameHost.environment_eq, Clock.isBeyond_of_nonpos hlimit] at hz
        cases hz
      · cases hs.symm.trans hs'
  | @record w₂ _ r _ hs hr =>
    have hreport := ha.report?_eq hl hlimit hp
    rw [Package.report?, hs] at hreport
    obtain ⟨hopen, he⟩ := hrecordable.of_report r hreport.symm
    have hsnd := AuditLog.record_snd_of_canOpen (((ha.trans (aside_scan hs)).canOpen_iff hl).mpr hopen) p.metadata r
    rw [hr, if_pos he] at hsnd
    cases hsnd

/-- **When an analysis comes to its end**, and what its results are then. -/
theorem analyze_eq_contributions (hps : ∀ p ∈ ps, p.Apart w target) :
    ((analyze log ps w).2.failure = none ↔ ∀ p ∈ ps, p.IsRecordable log w) ∧
      ((analyze log ps w).2.failure = none →
        (analyze log ps w).2.results = ps.filterMap (Package.contribution? w)) := by
  rcases ha : analyze log ps w with ⟨w', a⟩
  rcases analyzed_of_analyze ha with ⟨hf, w₁, -, hd⟩ | ⟨done, p, rest, w₁, e, hf, rfl, hd, hfails⟩
  · obtain ⟨hresults, hrecordable⟩ := hd.results_eq hl hlimit (.refl log w) hps
    exact ⟨iff_of_true hf hrecordable, fun _ => hresults⟩
  · have hp := hps p (List.mem_append_right _ (List.mem_cons_self ..))
    have hne : a.failure ≠ none := by simp [hf]
    refine ⟨iff_of_false hne fun hall => ?_, fun hnone => absurd hnone hne⟩
    exact hfails.not_isRecordable hl hlimit hd.aside hp (hall p (List.mem_append_right _ (List.mem_cons_self ..)))

/-- **Packages are analysed independently of each other**, if they have nothing to do with the log. The analysis of two
lists comes to its end exactly if those of each of them do, and then its results, its warnings and its blocks are theirs
one after the other. In another order there are the same results, warnings and blocks in that order. -/
theorem analyze_independent {xs ys : List Package} {w₂ w₃ : World} {a b c : Analysis} {openable : Bool}
    {content : Bytes} (hn : w.files.node? target = some (.file openable content))
    (hps : ∀ p ∈ xs ++ ys, p.Apart w target) (ha : analyze log (xs ++ ys) w = (w₁, a))
    (hb : analyze log xs w = (w₂, b)) (hc : analyze log ys w = (w₃, c)) :
    (a.failure = none ↔ b.failure = none ∧ c.failure = none) ∧
      (a.failure = none →
        a.results = b.results ++ c.results ∧ a.warned = b.warned ++ c.warned ∧
        w₂.files.bytesAt w.cwd log = content ++ Utf8.encodeAll (b.results.flatMap blockOf) ∧
        w₃.files.bytesAt w.cwd log = content ++ Utf8.encodeAll (c.results.flatMap blockOf) ∧
        w₁.files.bytesAt w.cwd log = content ++ Utf8.encodeAll (b.results.flatMap blockOf) ++
          Utf8.encodeAll (c.results.flatMap blockOf) ∧
        ∀ zs w₄ d, zs.Perm (xs ++ ys) → analyze log zs w = (w₄, d) →
          d.failure = none ∧ d.results.Perm a.results ∧ d.warned.Perm a.warned ∧
          w₄.files.bytesAt w.cwd log = content ++ Utf8.encodeAll (d.results.flatMap blockOf)) := by
  have hst := FileSystem.stat_of_locate hl hn
  -- what each analysis of such packages makes of them
  have key : ∀ {zs w' d}, (∀ p ∈ zs, p.Apart w target) → analyze log zs w = (w', d) →
      (d.failure = none ↔ ∀ p ∈ zs, p.IsRecordable log w) ∧
      (d.failure = none → d.results = zs.filterMap (Package.contribution? w)) ∧
      d.warned = (d.results.filter fun x => x.2.isMalicious).map (fun x => x.1.metadata.name) ∧
      w'.files.bytesAt w.cwd log = content ++ Utf8.encodeAll (d.results.flatMap blockOf) := by
    intro zs w' d hzs hd
    obtain ⟨hfailure, hresults⟩ := analyze_eq_contributions hl hlimit hzs
    rw [hd] at hfailure hresults
    refine ⟨hfailure, hresults, warned_eq_of_analyze hd, ?_⟩
    rw [(adds_analyze (FileSystem.isPlain_of_stat hst) hd).1.bytesAt_cwd, FileSystem.bytesAt_of_stat hst]
  obtain ⟨hxs, hys⟩ := List.forall_mem_append.mp hps
  obtain ⟨hfa, hra, hwa, hla⟩ := key hps ha
  obtain ⟨hfb, hrb, hwb, hlb⟩ := key hxs hb
  obtain ⟨hfc, hrc, hwc, hlc⟩ := key hys hc
  have hiff : a.failure = none ↔ b.failure = none ∧ c.failure = none := by
    rw [hfa, hfb, hfc, List.forall_mem_append]
  refine ⟨hiff, fun hf => ?_⟩
  have hresults : a.results = b.results ++ c.results := by
    rw [hra hf, hrb (hiff.mp hf).1, hrc (hiff.mp hf).2, List.filterMap_append]
  refine ⟨hresults, ?_, hlb, hlc, ?_, fun zs w₄ d hperm hd => ?_⟩
  · rw [hwa, hwb, hwc, hresults, List.filter_append, List.map_append]
  · rw [hla, hresults, List.flatMap_append, Utf8.encodeAll_append, List.append_assoc]
  · obtain ⟨hfd, hrd, hwd, hld⟩ := key (fun p hp => hps p (hperm.subset hp)) hd
    have hfd' : d.failure = none := hfd.mpr fun p hp => hfa.mp hf p (hperm.subset hp)
    have hperm' : d.results.Perm a.results := by
      rw [hrd hfd', hra hf]
      exact hperm.filterMap _
    refine ⟨hfd', hperm', ?_, hld⟩
    rw [hwd, hwa]
    exact (hperm'.filter _).map _

end Analysis

/-- A world with a log and with two packages, each of which holds a link to the other one. -/
def mutualWorld : World :=
  { goneWorld with
    files := FileSystem.empty.plantAll [] [
      ⟨[.literal "left", .literal "index"], .file true (Utf8.encodeAll (text "exec(rm)"))⟩,
      ⟨[.literal "left", .literal "other"], .link (text "../right")⟩,
      ⟨[.literal "right", .literal "other"], .link (text "/left")⟩,
      ⟨[.literal "diary"], .file true [65]⟩]
    environment := [(text "SCAN_TIME_LIMIT", text "0")]
    levels := 2 }

/-- Those packages. -/
def leftPackage : Package := ⟨text "/left", { name := text "left" }⟩

def rightPackage : Package := ⟨text "/right", { name := text "right" }⟩

set_option maxRecDepth 20000 in
theorem walk_left : mutualWorld.files.walk mutualWorld.levels mutualWorld.cwd leftPackage.path = .ok [
    .entered (text "/left") [.literal "left"], .file (text "/left/index"),
    .entered (text "/left/other") [.literal "right"], .revisited (text "/left/other/other")] := by cbv

set_option maxRecDepth 20000 in
theorem walk_right : mutualWorld.files.walk mutualWorld.levels mutualWorld.cwd rightPackage.path = .ok [
    .entered (text "/right") [.literal "right"], .entered (text "/right/other") [.literal "left"],
    .file (text "/right/other/index"), .revisited (text "/right/other/other")] := by cbv

theorem apart_of_walk {vs : List Visit} (hr : Package.isRemote p.path = false) (hz : nul ∉ p.path)
    (hw : w.files.walk w.levels w.cwd p.path = .ok vs)
    (h : vs.all (fun v => (w.files.locate w.cwd v.path).toOption != some target) = true) : p.Apart w target := by
  refine ⟨hr, hz, fun vs' hw' v hv hl => ?_⟩
  cases hw.symm.trans hw'
  have hne := List.all_eq_true.mp h v hv
  rw [hl] at hne
  simp [Except.toOption] at hne

set_option maxRecDepth 20000 in
theorem apart_mutual : ∀ p ∈ [leftPackage] ++ [rightPackage], p.Apart mutualWorld [.literal "diary"] := by
  rw [List.forall_mem_append, List.forall_mem_singleton, List.forall_mem_singleton]
  exact ⟨apart_of_walk (by decide) (by decide) walk_left (by cbv),
    apart_of_walk (by decide) (by decide) walk_right (by cbv)⟩

set_option maxRecDepth 20000 in
theorem locate_mutual : mutualWorld.files.locate mutualWorld.cwd (text "/diary") = .ok [.literal "diary"] := by cbv

set_option maxRecDepth 20000 in
theorem node?_mutual : mutualWorld.files.node? [.literal "diary"] = some (.file true [65]) := by cbv

set_option maxRecDepth 20000 in
theorem find?_mutual : ([leftPackage] ++ [rightPackage]).find? (Package.isObstacle mutualWorld) = none := by cbv

/-- The two packages are analysed, and the results are those of each alone. -/
theorem analyze_independent_mutual : ∃ w₁ w₂ w₃ a b c,
    analyze (text "/diary") ([leftPackage] ++ [rightPackage]) mutualWorld = (w₁, a) ∧
    analyze (text "/diary") [leftPackage] mutualWorld = (w₂, b) ∧
    analyze (text "/diary") [rightPackage] mutualWorld = (w₃, c) ∧ a.failure = none ∧
    a.results = b.results ++ c.results ∧
    w₁.files.bytesAt mutualWorld.cwd (text "/diary") = [65] ++ Utf8.encodeAll (b.results.flatMap blockOf) ++
      Utf8.encodeAll (c.results.flatMap blockOf) := by
  have hlimit : (Settings.timeLimit.read mutualWorld.environment).1 ≤ 0 := by decide +kernel
  obtain ⟨-, h⟩ := analyze_independent locate_mutual hlimit node?_mutual apart_mutual rfl rfl rfl
  have hopen : mutualWorld.files.CanOpen mutualWorld.cwd (text "/diary") :=
    FileSystem.canOpen_of_locate locate_mutual node?_mutual (Or.inl ⟨_, rfl⟩)
  obtain ⟨-, hend, -⟩ := progress_analyze
    (fun p hp => ⟨(apart_mutual p hp).isRemote_eq, (apart_mutual p hp).nul_notMem⟩) hopen
  have hfailure := hend find?_mutual
  obtain ⟨hresults, -, -, -, hlog, -⟩ := h hfailure
  exact ⟨_, _, _, _, _, _, rfl, rfl, rfl, hfailure, hresults, hlog⟩

end ExtensionAudit
