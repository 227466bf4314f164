import Mathlib
import ExtensionAudit.Proofs.Writing

/-!
# Histories of logs

Logs are started afresh and appended to, under whatever paths lead to them, and each of these actions may fail. What a
file holds in the end is told by the actions that succeeded at it, and an action that fails changes no file.

* `FileSystem.AddsDirectories`, `FileSystem.addsDirectories_makeDirectories`: what making directories changes;
* `FileSystem.Opening.contentAt_eq`: what opening a file changes;
* `AuditLog.Action`, `AuditLog.Action.Performed`, **`AuditLog.Action.performed`**: what one action does;
* `AuditLog.performAll`, `AuditLog.history`: actions, and the files at which they succeed;
* `AuditLog.content_performAll`, `AuditLog.replay_of_forall_not`: what a file holds after them;
* **`AuditLog.content_history`**: the same, told by the last reset.
-/

namespace ExtensionAudit

namespace FileSystem

variable {fs fs' : FileSystem} {cwd loc : Location} {p : Path} {t : Text}

/-! ## Making directories -/

/-- New directories are made, and nothing else is changed. -/
def AddsDirectories (fs fs' : FileSystem) : Prop :=
  ∀ loc, fs'.node? loc = fs.node? loc ∨ fs.node? loc = none ∧ fs'.node? loc = some (.directory .listing)

theorem AddsDirectories.refl (fs : FileSystem) : fs.AddsDirectories fs := fun _ => Or.inl rfl

theorem AddsDirectories.trans {fs'' : FileSystem} (h : fs.AddsDirectories fs') (h' : fs'.AddsDirectories fs'') :
    fs.AddsDirectories fs'' := by
  intro loc
  rcases h' loc with he' | ⟨hn', hd'⟩
  · rw [he']
    exact h loc
  · rcases h loc with he | ⟨-, hd⟩
    · exact Or.inr ⟨he ▸ hn', hd'⟩
    · rw [hn'] at hd
      cases hd

theorem AddsDirectories.extends (h : fs.AddsDirectories fs') : fs.Extends fs' := by
  intro loc node hn
  rcases h loc with he | ⟨hnone, -⟩
  · rw [he, hn]
  · rw [hn] at hnone
    cases hnone

theorem AddsDirectories.contentAt_eq (h : fs.AddsDirectories fs') (loc : Location) :
    fs'.contentAt loc = fs.contentAt loc := by
  rcases h loc with he | ⟨hn, hd⟩
  · rw [contentAt, contentAt, he]
  · rw [contentAt, contentAt, hn, hd]
    rfl

theorem addsDirectories_makeDirectory (fs : FileSystem) (cwd : Location) (p : Path) :
    fs.AddsDirectories (fs.makeDirectory cwd p).1 := by
  unfold makeDirectory
  simp only
  split
  · exact .refl fs
  · exact .refl fs
  · next dir name hr =>
    obtain ⟨hd, hv⟩ := vacant_of_followLinks (followLinks_of_resolve hr).2.2.2
    intro loc
    rw [node?_create hd hv]
    split
    · next he => exact Or.inr ⟨he ▸ hv, rfl⟩
    · exact Or.inl rfl

/-- **Making directories changes no entry**, also if it fails halfway. -/
theorem addsDirectories_makeDirectories (fs : FileSystem) (cwd : Location) (p : Path) :
    fs.AddsDirectories (fs.makeDirectories cwd p).1 := by
  fun_induction makeDirectories fs cwd p with
  | case1 p up _ fs₁ path hm _ ih =>
    rw [hm] at ih
    exact ih
  | case2 p up _ fs₁ path hm _ ih =>
    rw [hm] at ih
    exact ih.trans (addsDirectories_makeDirectory fs₁ cwd p)
  | case3 p up _ fs₁ e _ hm ih =>
    rw [hm] at ih
    exact ih
  | case4 p up _ fs₁ hm _ ih =>
    rw [hm] at ih
    exact ih
  | case5 p up _ fs₁ hm _ ih =>
    rw [hm] at ih
    exact ih.trans (addsDirectories_makeDirectory fs₁ cwd p)
  | case6 p up _ => exact addsDirectories_makeDirectory fs cwd p

/-! ## Opening and writing -/

theorem Opening.contentAt_eq (h : fs.Opening fs' loc) (loc' : Location) : fs'.contentAt loc' = fs.contentAt loc' := by
  cases h with
  | found => rfl
  | made hd hv =>
    rw [contentAt, contentAt, node?_create hd hv]
    split
    · next he =>
      rw [← he, hv]
      rfl
    · rfl

theorem content_setContent {openable : Bool} {content bytes : Bytes}
    (h : (fs.setContent loc bytes).node? loc = some (.file openable content)) : content = bytes := by
  obtain ⟨node, hn, hs⟩ := (sameShape_setContent fs loc bytes).kept loc _ h
  cases node with
  | file old oldContent =>
    rw [node?_setContent hn, if_pos rfl] at h
    cases h
    rfl
  | _ => cases hs

end FileSystem

/-! ## One action -/

namespace AuditLog

open FileSystem

/-- What is done to a log. -/
inductive Action where
  | reset (log : Path)
  | append (log : Path) (t : Text)

namespace Action

/-- The path of the log. -/
def log : Action → Path
  | reset log => log
  | append log _ => log

def perform (w : World) : Action → World × Except Failure Unit
  | reset log => AuditLog.reset w log
  | append log t => AuditLog.append w log t

/-- What the file holds after the action, if it held some bytes before. -/
def result (bytes : Bytes) : Action → Bytes
  | reset _ => Utf8.encodeAll Report.header
  | append _ t => bytes ++ Utf8.encodeAll t

/-- The file at which the action succeeds, whatever path leads to it. -/
def target? (w : World) (a : Action) : Option Location :=
  match a.perform w with
  | (_, .error _) => none
  | (w', .ok ()) => (w'.files.locate w'.cwd a.log).toOption

end Action

variable {w : World} {a : Action} {loc : Location}

namespace Action

/-- **What an action does**: it fails and leaves all entries as they are, or it succeeds at a file and leaves all others
as they are. -/
inductive Performed (a : Action) (w : World) : World × Except Failure Unit → Option Location → Prop where
  | failed {w' : World} {e : Failure} (he : w.files.Extends w'.files)
      (hc : ∀ loc, w'.files.contentAt loc = w.files.contentAt loc) : Performed a w (w', .error e) none
  | written {w' : World} {loc : Location} (hk : w.files.Keeps w'.files)
      (hl : w'.files.locate w'.cwd a.log = .ok loc)
      (hc : ∀ loc' ≠ loc, w'.files.contentAt loc' = w.files.contentAt loc')
      (hw : ∀ openable content, w'.files.node? loc = some (.file openable content) →
        content = a.result (w.files.contentAt loc)) : Performed a w (w', .ok ()) (some loc)

theorem performed_of_opening {fs fs' : FileSystem} {w' : World} {bytes : Bytes} (hd : w.files.AddsDirectories fs)
    (ho : fs.Opening fs' loc) (hw : w'.files = fs'.setContent loc bytes)
    (hl : w'.files.locate w'.cwd a.log = .ok loc) (hb : bytes = a.result (w.files.contentAt loc)) :
    a.Performed w (w', .ok ()) (some loc) := by
  refine .written ?_ hl ?_ ?_
  · rw [hw]
    exact (hd.extends.trans ho.extends).keeps.trans (keeps_setContent fs' loc bytes)
  · intro loc' hne
    rw [hw, contentAt, node?_setContent_of_ne hne, ← contentAt, ho.contentAt_eq, hd.contentAt_eq]
  · intro openable content hn
    rw [hw] at hn
    exact (content_setContent hn).trans hb

theorem performed_reset (w : World) (path : Path) :
    (reset path).Performed w ((reset path).perform w) ((reset path).target? w) := by
  have hd : w.files.AddsDirectories (makeParent w.files w.cwd path).1 := by
    unfold makeParent
    split
    · exact .refl w.files
    · exact addsDirectories_makeDirectories w.files w.cwd (Path.parent path)
  rcases hm : makeParent w.files w.cwd path with ⟨fs, e | u⟩
  · rw [hm] at hd
    simp only [target?, perform, AuditLog.reset, hm]
    exact .failed hd.extends hd.contentAt_eq
  rw [hm] at hd
  rcases ho : fs.openForWriting w.cwd path with e | ⟨fs', loc⟩
  · simp only [target?, perform, AuditLog.reset, hm, overwrite, ho]
    exact .failed hd.extends hd.contentAt_eq
  · obtain ⟨hopening, hl⟩ := opening_of_openForWriting ho
    have hl' := (keeps_setContent fs' loc (Utf8.encodeAll Report.header)).locate hl
    simp only [target?, perform, AuditLog.reset, hm, overwrite, ho, log, World.note, hl', Except.toOption]
    exact performed_of_opening hd hopening rfl hl' rfl

theorem performed_append (w : World) (path : Path) (t : Text) :
    (append path t).Performed w ((append path t).perform w) ((append path t).target? w) := by
  rcases ho : w.files.openForWriting w.cwd path with e | ⟨fs, loc⟩
  · simp only [target?, perform, AuditLog.append, FileSystem.append, ho]
    exact .failed (.refl w.files) fun _ => rfl
  obtain ⟨hopening, hl⟩ := opening_of_openForWriting ho
  cases ht : Utf8.encode t with
  | error run =>
    -- the file may have been made, but nothing is written
    simp only [target?, perform, AuditLog.append, FileSystem.append, ho, ht]
    exact .failed hopening.extends hopening.contentAt_eq
  | ok bytes =>
    obtain rfl : Utf8.encodeAll t = bytes := by
      unfold Utf8.encode at ht
      split at ht
      · exact Except.ok.inj ht
      · cases ht
    have hl' := (keeps_setContent fs loc (fs.contentAt loc ++ Utf8.encodeAll t)).locate hl
    simp only [target?, perform, AuditLog.append, FileSystem.append, ho, ht, log, hl', Except.toOption]
    refine performed_of_opening (.refl w.files) hopening rfl hl' ?_
    rw [hopening.contentAt_eq]
    rfl

/-- **What one action does**, whatever the world. -/
theorem performed (w : World) (a : Action) : a.Performed w (a.perform w) (a.target? w) := by
  cases a with
  | reset path => exact performed_reset w path
  | append path t => exact performed_append w path t

theorem Performed.keeps {w' : World} {outcome : Except Failure Unit} {target : Option Location}
    (h : a.Performed w (w', outcome) target) : w.files.Keeps w'.files := by
  cases h with
  | failed he => exact he.keeps
  | written hk => exact hk

theorem Performed.contentAt_of_ne {w' : World} {outcome : Except Failure Unit} {target : Option Location}
    (h : a.Performed w (w', outcome) target) (hne : target ≠ some loc) :
    w'.files.contentAt loc = w.files.contentAt loc := by
  cases h with
  | failed _ hc => exact hc loc
  | written _ _ hc => exact hc loc fun e => hne (congrArg some e.symm)

end Action

/-! ## Histories -/

/-- The world after some actions, succeeding or failing, on the logs of any paths. -/
def performAll (w : World) (actions : List Action) : World := actions.foldl (fun w a => (a.perform w).1) w

/-- Actions, each with the file at which it succeeded. -/
def history : World → List Action → List (Action × Option Location)
  | _, [] => []
  | w, a :: rest => (a, a.target? w) :: history (a.perform w).1 rest

/-- The text that an action adds to a file at which it succeeds. -/
def appendedTo (loc : Location) : Action × Option Location → Text
  | (.append _ t, some target) => if target = loc then t else []
  | _ => []

/-- The action started the file afresh. -/
def IsResetOf (loc : Location) (x : Action × Option Location) : Prop :=
  x.2 = some loc ∧ ∃ log, x.1 = .reset log

theorem keeps_performAll (w : World) (actions : List Action) : w.files.Keeps (performAll w actions).files := by
  induction actions generalizing w with
  | nil => exact .refl w.files
  | cons a actions ih => exact (a.performed w).keeps.trans (ih (a.perform w).1)

/-- What a file holds after the actions of a history, if it held some bytes before. -/
def replay (loc : Location) (bytes : Bytes) (xs : List (Action × Option Location)) : Bytes :=
  xs.foldl (fun bytes x => if x.2 = some loc then x.1.result bytes else bytes) bytes

theorem contentAt_perform {fs : FileSystem} {openable : Bool} {content : Bytes}
    (hk : (a.perform w).1.files.Keeps fs) (hn : fs.node? loc = some (.file openable content)) :
    (a.perform w).1.files.contentAt loc =
      if a.target? w = some loc then a.result (w.files.contentAt loc) else w.files.contentAt loc := by
  have ha := a.performed w
  split
  · next ht =>
    rw [ht] at ha
    rcases hp : a.perform w with ⟨w', outcome⟩
    rw [hp] at ha hk
    cases ha with
    | written _ hl _ hw =>
      obtain ⟨node, hnode, -⟩ := isSolid_of_locate hl
      obtain ⟨node', hn', hshape⟩ := hk loc node hnode
      rw [hn] at hn'
      cases hn'
      cases node with
      | file openable content =>
        rw [contentAt_of_node? hnode]
        exact hw openable content hnode
      | _ => cases hshape
  · next ht => exact ha.contentAt_of_ne ht

/-- **What a regular file holds after some actions.** -/
theorem content_performAll {actions : List Action} {openable : Bool} {content : Bytes}
    (h : (performAll w actions).files.node? loc = some (.file openable content)) :
    content = replay loc (w.files.contentAt loc) (history w actions) := by
  induction actions generalizing w with
  | nil => exact (contentAt_of_node? h).symm
  | cons a actions ih =>
    rw [ih h, contentAt_perform (keeps_performAll _ actions) h]
    rfl

theorem replay_of_forall_not {xs : List (Action × Option Location)} (h : ∀ x ∈ xs, ¬ IsResetOf loc x)
    (bytes : Bytes) : replay loc bytes xs = bytes ++ Utf8.encodeAll (xs.flatMap (appendedTo loc)) := by
  induction xs generalizing bytes with
  | nil => exact (List.append_nil bytes).symm
  | cons x xs ih =>
    obtain ⟨hx, hxs⟩ := List.forall_mem_cons.mp h
    have hstep : (if x.2 = some loc then x.1.result bytes else bytes) =
        bytes ++ Utf8.encodeAll (appendedTo loc x) := by
      obtain ⟨a, target⟩ := x
      cases a with
      | reset log =>
        rw [if_neg fun he => hx ⟨he, log, rfl⟩]
        exact (List.append_nil bytes).symm
      | append log t =>
        cases target with
        | none => exact (List.append_nil bytes).symm
        | some target =>
          by_cases he : target = loc
          · simp [appendedTo, he, Action.result]
          · simp [appendedTo, he, Utf8.encodeAll]
    rw [replay, List.foldl_cons, hstep, ← replay, ih hxs, List.flatMap_cons, Utf8.encodeAll_append, List.append_assoc]

theorem replay_reset (bytes : Bytes) (before after : List (Action × Option Location)) (log : Path) :
    replay loc bytes (before ++ (.reset log, some loc) :: after) = replay loc (Utf8.encodeAll Report.header) after := by
  rw [replay, List.foldl_append, List.foldl_cons, if_pos rfl]
  rfl

/-- **What a file holds after a history**: the heading and what was appended since the last reset, or, if there was
none, what it held before and all that was appended. Only actions that succeed at the file count, under whatever path.
An action that fails leaves every entry as it is. -/
theorem content_history (w : World) (actions : List Action) :
    (∀ loc openable content, (performAll w actions).files.node? loc = some (.file openable content) →
      (∀ before log after, history w actions = before ++ (.reset log, some loc) :: after →
        (∀ x ∈ after, ¬ IsResetOf loc x) →
          content = Utf8.encodeAll (Report.header ++ after.flatMap (appendedTo loc))) ∧
      ((∀ x ∈ history w actions, ¬ IsResetOf loc x) →
        content = w.files.contentAt loc ++ Utf8.encodeAll ((history w actions).flatMap (appendedTo loc)))) ∧
    ∀ before a after, actions = before ++ a :: after →
      ((a.perform (performAll w before)).2 = .ok () → ∃ loc, a.target? (performAll w before) = some loc) ∧
      ∀ e, (a.perform (performAll w before)).2 = .error e → a.target? (performAll w before) = none ∧
        (performAll w before).files.Extends (a.perform (performAll w before)).1.files := by
  constructor
  · intro loc openable content hn
    have hc := content_performAll hn
    refine ⟨fun before log after hh hafter => ?_, fun hall => ?_⟩
    · rw [hc, hh, replay_reset, replay_of_forall_not hafter, Utf8.encodeAll_append]
    · rw [hc, replay_of_forall_not hall]
  · rintro before a after -
    have ha := a.performed (performAll w before)
    generalize a.target? (performAll w before) = target at ha ⊢
    generalize a.perform (performAll w before) = outcome at ha ⊢
    cases ha with
    | failed he => exact ⟨by simp, fun _ _ => ⟨rfl, he⟩⟩
    | written => exact ⟨fun _ => ⟨_, rfl⟩, by simp⟩

/-- A world with one log, to which a link leads too. -/
def aliasWorld : World where
  files := FileSystem.empty.plantAll [] [
    ⟨[.literal "logs", .literal "trail"], .file true (Utf8.encodeAll (text "old"))⟩,
    ⟨[.literal "alias"], .link (text "logs/trail")⟩]
  cwd := [.literal "logs"]
  environment := []
  levels := 0
  clock := []
  horizon := none
  remote := fun _ => ⟨[], none⟩
  fetched := []
  journal := []

/-- The log is appended to and started afresh under several paths. Two of the actions fail. -/
def aliasActions : List Action := [
  .append (text "/alias") (text "lost"), .reset (text "trail"), .append (text "/alias") (text "kept"),
  .append (text "/none/trail") (text "nowhere"), .append (text "../alias") [⟨0xDFFF, by decide⟩],
  .append (text "/logs/../alias") (text " too")]

/-- The file of that log. -/
def trailFile : Location := [.literal "logs", .literal "trail"]

set_option maxRecDepth 20000 in
theorem history_alias : history aliasWorld aliasActions = [
    (.append (text "/alias") (text "lost"), some trailFile)] ++ (.reset (text "trail"), some trailFile) :: [
    (.append (text "/alias") (text "kept"), some trailFile), (.append (text "/none/trail") (text "nowhere"), none),
    (.append (text "../alias") [⟨0xDFFF, by decide⟩], none),
    (.append (text "/logs/../alias") (text " too"), some trailFile)] := by cbv

set_option maxRecDepth 20000 in
theorem isFile_alias : ((performAll aliasWorld aliasActions).files.node? trailFile).any Node.isFile = true := by cbv

/-- The log holds the heading and the two texts that were appended to it after its reset. -/
theorem content_history_alias : ∃ openable, (performAll aliasWorld aliasActions).files.node? trailFile =
    some (.file openable (Utf8.encodeAll (Report.header ++ text "kept too"))) := by
  obtain ⟨node, hn, hfile⟩ := (Option.any_eq_true _ _).mp isFile_alias
  cases node with
  | file openable content =>
    have hafter := ((content_history aliasWorld aliasActions).1 _ _ _ hn).1 _ _ _ history_alias
    obtain rfl := hafter (by simp [IsResetOf])
    exact ⟨openable, hn⟩
  | _ => cases hfile

end AuditLog

end ExtensionAudit
