import Mathlib
import ExtensionAudit.Proofs.Frame
import ExtensionAudit.Proofs.Writing

/-!
# Nothing changed but logs

Logs are appended to. Every other entry stays as it is, and no directory is made.

* `FileSystem.Grows`: what happens to a log;
* `OnlyLogs`: nothing changed but logs, and those grew;
* `OnlyLogs.keeps`, `OnlyLogs.gone`, `OnlyLogs.trans`: what that leaves alone, and how it goes on;
* **`onlyLogs_append`**, `onlyLogs_record`: it holds of an append;
* `OnlyLogs.sameShape`, `OnlyLogs.stat_eq`: one log that is there, and every other file.
-/

namespace ExtensionAudit

open FileSystem

namespace FileSystem

variable {fs fs' : FileSystem} {loc : Location}

/-- A file has more behind what it held. It may have been missing. -/
inductive Grows : Option Node → Option Node → Prop where
  | found (content bytes : Bytes) : Grows (some (.file true content)) (some (.file true (content ++ bytes)))
  | made (bytes : Bytes) : Grows none (some (.file true bytes))

theorem Grows.trans {old mid new : Option Node} (h : Grows old mid) (h' : Grows mid new) : Grows old new := by
  cases h with
  | found content bytes =>
    cases h' with
    | found _ bytes' =>
      rw [List.append_assoc]
      exact .found content (bytes ++ bytes')
  | made bytes =>
    cases h' with
    | found _ bytes' => exact .made (bytes ++ bytes')

theorem Opening.grows (h : fs.Opening fs' loc) :
    fs'.node? loc = fs.node? loc ∨ Grows (fs.node? loc) (fs'.node? loc) := by
  cases h with
  | found => exact Or.inl rfl
  | made hd hv =>
    rw [node?_made hd hv, hv]
    exact Or.inr (.made [])

theorem grows_setContent {node : Node} (hn : fs.node? loc = some node) (hw : IsWritable node) (bytes : Bytes) :
    (fs.setContent loc (fs.contentAt loc ++ bytes)).node? loc = fs.node? loc ∨
      Grows (fs.node? loc) ((fs.setContent loc (fs.contentAt loc ++ bytes)).node? loc) := by
  rcases hw with ⟨content, rfl⟩ | rfl | rfl
  · rw [node?_setContent hn, if_pos rfl, hn, contentAt_of_node? hn]
    exact Or.inr (.found content bytes)
  · exact Or.inl (by simp only [setContent, hn])
  · exact Or.inl (by simp only [setContent, hn])

end FileSystem

variable {w w' : World} {log : Path} {logs logs' : List Path}

/-- **Nothing changed but logs.** Each entry is as it was, or it is a file at the end of one of the paths and grew. -/
structure OnlyLogs (logs : List Path) (w w' : World) : Prop where
  cwd_eq : w'.cwd = w.cwd
  node?_eq_or : ∀ loc, w'.files.node? loc = w.files.node? loc ∨
    ∃ log ∈ logs, w'.files.locate w'.cwd log = .ok loc ∧ Grows (w.files.node? loc) (w'.files.node? loc)

namespace OnlyLogs

theorem of_files_eq (hf : w'.files = w.files) (hc : w'.cwd = w.cwd) : OnlyLogs [] w w' :=
  ⟨hc, fun loc => Or.inl (by rw [hf])⟩

theorem keeps (h : OnlyLogs logs w w') : w.files.Keeps w'.files := by
  intro loc node hn
  rcases h.node?_eq_or loc with he | ⟨log, -, -, hg⟩
  · exact ⟨node, he.trans hn, rfl⟩
  · rw [hn] at hg
    generalize w'.files.node? loc = new at hg ⊢
    cases hg with
    | found content bytes => exact ⟨_, rfl, rfl⟩

theorem mono (h : OnlyLogs logs w w') (hs : logs ⊆ logs') : OnlyLogs logs' w w' :=
  ⟨h.cwd_eq, fun loc => (h.node?_eq_or loc).imp_right fun ⟨log, hm, hlog⟩ => ⟨log, hs hm, hlog⟩⟩

theorem trans {w'' : World} (h : OnlyLogs logs w w') (h' : OnlyLogs logs' w' w'') :
    OnlyLogs (logs ++ logs') w w'' := by
  refine ⟨h'.cwd_eq.trans h.cwd_eq, fun loc => ?_⟩
  rcases h'.node?_eq_or loc with he' | ⟨log', hm', hl', hg'⟩ <;>
    rcases h.node?_eq_or loc with he | ⟨log, hm, hl, hg⟩
  · exact Or.inl (he'.trans he)
  · refine Or.inr ⟨log, List.mem_append_left _ hm, ?_, he' ▸ hg⟩
    rw [h'.cwd_eq]
    exact h'.keeps.locate hl
  · exact Or.inr ⟨log', List.mem_append_right _ hm', hl', he ▸ hg'⟩
  · exact Or.inr ⟨log', List.mem_append_right _ hm', hl', hg.trans hg'⟩

theorem gone {name : FileName} (h : OnlyLogs logs w w') (hn : w.files.node? [name] = none) :
    w'.files.isDirectory [name] = false ∧ ∀ rest ≠ [], w'.files.node? (name :: rest) = none := by
  have hd : w'.files.isDirectory [name] = false := by
    have hnode := h.node?_eq_or [name]
    rw [hn] at hnode
    rw [isDirectory]
    generalize w'.files.node? [name] = node at hnode ⊢
    rcases hnode with rfl | ⟨-, -, -, hg⟩
    · rfl
    · cases hg
      rfl
  refine ⟨hd, fun rest hrest => ?_⟩
  obtain ⟨a, rest, rfl⟩ := List.exists_cons_of_ne_nil hrest
  cases hnode : w'.files.node? (name :: a :: rest) with
  | none => rfl
  | some node =>
    -- the entry next below would make it a directory
    have hbelow : w'.files.node? ([name] ++ [a]) ≠ none := fun hnone =>
      absurd (node?_append_eq_none hnone rest) (by simp [hnode])
    obtain ⟨node', hnode'⟩ := Option.ne_none_iff_exists'.mp hbelow
    rw [isDirectory_of_node? hnode'] at hd
    cases hd

end OnlyLogs

theorem onlyLogs_of_entry {loc : Location} (hc : w'.cwd = w.cwd) (hl : w'.files.locate w'.cwd log = .ok loc)
    (hne : ∀ loc' ≠ loc, w'.files.node? loc' = w.files.node? loc')
    (hg : w'.files.node? loc = w.files.node? loc ∨ Grows (w.files.node? loc) (w'.files.node? loc)) :
    OnlyLogs [log] w w' := by
  refine ⟨hc, fun loc' => ?_⟩
  by_cases he : loc' = loc
  · subst he
    exact hg.imp_right fun hg => ⟨log, List.mem_singleton_self log, hl, hg⟩
  · exact Or.inl (hne loc' he)

/-- **An append changes nothing but its log.** -/
theorem onlyLogs_append (w : World) (log : Path) (t : Text) : OnlyLogs [log] w (AuditLog.append w log t).1 := by
  rcases ho : w.files.openForWriting w.cwd log with e | ⟨fs, loc⟩
  · simp only [AuditLog.append, FileSystem.append, ho]
    exact (OnlyLogs.of_files_eq rfl rfl).mono (List.nil_subset _)
  obtain ⟨hopening, hl⟩ := opening_of_openForWriting ho
  have hopened : OnlyLogs [log] w { w with files := fs } :=
    onlyLogs_of_entry rfl hl (fun loc' => hopening.node?_of_ne) hopening.grows
  cases ht : Utf8.encode t with
  | error run =>
    simp only [AuditLog.append, FileSystem.append, ho, ht]
    exact hopened
  | ok bytes =>
    simp only [AuditLog.append, FileSystem.append, ho, ht]
    obtain ⟨node, hn, hw⟩ := hopening.exists_node
    have hwritten : OnlyLogs [log] { w with files := fs }
        { w with files := fs.setContent loc (fs.contentAt loc ++ bytes) } :=
      onlyLogs_of_entry rfl ((keeps_setContent fs loc _).locate hl) (fun loc' hne => node?_setContent_of_ne hne _)
        (grows_setContent hn hw bytes)
    exact (hopened.trans hwritten).mono (by simp)

theorem onlyLogs_record (w : World) (log : Path) (m : Metadata) (r : Report) :
    OnlyLogs [log] w (AuditLog.record w log m r).1 := by
  obtain ⟨journal, hr⟩ := AuditLog.exists_record_fst_eq w log m r
  have h := onlyLogs_append w log (r.block m)
  rw [hr]
  exact ⟨rfl, h.node?_eq_or⟩

/-! ## One log that is there -/

namespace OnlyLogs

variable {target : Location} (h : OnlyLogs [log] w w')
  (hl : w.files.locate w.cwd log = .ok target)
include h hl

theorem locate_log : w'.files.locate w'.cwd log = .ok target := by
  rw [h.cwd_eq]
  exact h.keeps.locate hl

theorem node?_eq_of_ne {loc : Location} (hne : loc ≠ target) : w'.files.node? loc = w.files.node? loc := by
  rcases h.node?_eq_or loc with he | ⟨log', hm, hl', -⟩
  · exact he
  · obtain rfl := List.mem_singleton.mp hm
    rw [h.locate_log hl] at hl'
    cases hl'
    exact absurd rfl hne

theorem node?_log : w'.files.node? target = w.files.node? target ∨ ∃ content bytes,
    w.files.node? target = some (.file true content) ∧
      w'.files.node? target = some (.file true (content ++ bytes)) := by
  obtain ⟨node, hn, -⟩ := FileSystem.isSolid_of_locate hl
  rcases h.node?_eq_or target with he | ⟨-, -, -, hg⟩
  · exact Or.inl he
  · rw [hn] at hg ⊢
    generalize w'.files.node? target = new at hg ⊢
    cases hg with
    | found content bytes => exact Or.inr ⟨content, bytes, rfl, rfl⟩

theorem sameShape : w.files.SameShape w'.files := by
  refine ⟨h.keeps, fun loc node hn => ?_⟩
  by_cases he : loc = target
  · subst he
    rcases h.node?_log hl with he | ⟨content, bytes, hold, hnew⟩
    · exact ⟨node, he ▸ hn, rfl⟩
    · rw [hnew] at hn
      cases hn
      exact ⟨_, hold, rfl⟩
  · rw [h.node?_eq_of_ne hl he] at hn
    exact ⟨node, hn, rfl⟩

theorem stat_eq {p : Path} {loc : Location} (hp : w.files.locate w.cwd p = .ok loc) (hne : loc ≠ target) :
    w'.files.stat w.cwd p = w.files.stat w.cwd p := by
  rw [FileSystem.stat, FileSystem.stat, hp, h.keeps.locate hp]
  simp only [h.node?_eq_of_ne hl hne]

end OnlyLogs

end ExtensionAudit
