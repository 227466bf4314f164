import Mathlib
import ExtensionAudit.CommandLine.Run

/-!
# What was told stays told

A run adds to what was told before, and it takes nothing back.

* `Scanner.journal_scan`: scans;
* `journal_analyze`: analyses;
* **`CommandLine.exists_journal_run`**: runs.
-/

namespace ExtensionAudit

variable {w w' : World}

theorem World.journal_note (w : World) (n : Notice) : w.journal <+: (w.note n).journal := List.prefix_append ..

theorem World.journal_noteAll (w : World) (ns : List Notice) : w.journal <+: (w.noteAll ns).journal :=
  List.prefix_append ..

namespace Scanner

variable (s : Scanner) (w : World)

theorem journal_removeTemporary : (s.removeTemporary w).2.journal = w.journal := by
  unfold removeTemporary
  split <;> rfl

theorem journal_cleanUp : w.journal <+: (s.cleanUp w).2.journal := by
  unfold cleanUp
  split
  · exact List.prefix_rfl
  · have htold := (s.removeTemporary w).2.journal_note .cleaned
    rwa [journal_removeTemporary] at htold

theorem journal_fetch (address : Text) : w.journal <+: (s.fetch w address).2.1.journal := by
  unfold fetch
  split
  · exact List.prefix_rfl
  · simp only
    split
    · exact (World.journal_note ..).trans (World.journal_noteAll ..)
    · rw [journal_removeTemporary]
      exact (World.journal_note ..).trans (World.journal_noteAll ..)

theorem journal_scanDirectory (root : Path) : w.journal <+: (s.scanDirectory w root).2.1.journal := by
  simp only [scanDirectory]
  split
  · exact w.journal_noteAll _
  · split
    · exact w.journal_noteAll _
    · exact World.journal_noteAll { w with clock := _ } _

theorem journal_scanRoot : w.journal <+: (s.scanRoot w).2.1.journal := by
  unfold scanRoot
  split
  · have hfetch := s.journal_fetch w s.root
    split
    · next heq => rwa [heq] at hfetch
    · next heq =>
      rw [heq] at hfetch
      exact hfetch.trans (journal_scanDirectory ..)
  · exact s.journal_scanDirectory w s.root

theorem journal_scan : w.journal <+: (s.scan w).2.1.journal :=
  (w.journal_note _).trans ((s.journal_scanRoot _).trans (journal_cleanUp ..))

end Scanner

theorem Package.journal_scan (p : Package) (w : World) : w.journal <+: (p.scan w).1.journal :=
  (w.journal_noteAll _).trans (Scanner.journal_scan ..)

theorem AuditLog.journal_record (w : World) (log : Path) (m : Metadata) (r : Report) :
    w.journal <+: (record w log m r).1.journal := by
  simp only [record, append]
  split
  · next heq =>
    obtain ⟨rfl, -⟩ := Prod.mk.inj heq
    exact List.prefix_rfl
  · next heq =>
    obtain ⟨rfl, -⟩ := Prod.mk.inj heq
    exact World.journal_note ..

theorem AuditLog.journal_reset (w : World) (log : Path) : w.journal <+: (reset w log).1.journal := by
  unfold reset
  split
  · exact List.prefix_rfl
  · split
    · exact List.prefix_rfl
    · exact World.journal_note ..

theorem journal_analyzePackage (log : Path) (p : Package) (w : World) :
    w.journal <+: (analyzePackage log p w).1.journal := by
  have hscan := p.journal_scan w
  unfold analyzePackage
  split
  · next heq =>
    rw [heq] at hscan
    split
    · exact hscan.trans (World.journal_note ..)
    · exact hscan
  · next w₁ r heq =>
    rw [heq] at hscan
    have hrecord := AuditLog.journal_record w₁ log p.metadata r
    split <;> next heq => rw [heq] at hrecord; exact hscan.trans hrecord

theorem journal_analyze (log : Path) (ps : List Package) (w : World) : w.journal <+: (analyze log ps w).1.journal := by
  induction ps generalizing w with
  | nil => exact World.journal_note ..
  | cons p ps ih =>
    have hp := journal_analyzePackage log p w
    unfold analyze
    split <;> next heq => rw [heq] at hp; first | exact hp | exact hp.trans (ih _)

namespace CommandLine

theorem journal_exportSarif (w : World) (results : List (Package × Report)) (sarif : Option Path) :
    (exportSarif w results sarif).1.journal = w.journal := by
  unfold exportSarif
  split
  · rfl
  · rfl
  · simp only
    split <;> rfl

theorem journal_audit (o : Options) (w : World) : w.journal <+: (audit o w).1.journal := by
  have hreset := AuditLog.journal_reset w o.log
  unfold audit
  split
  · next heq => rwa [heq] at hreset
  · next w₁ heq =>
    rw [heq] at hreset
    split
    · exact hreset
    · next ps notices _ =>
      have hanalyze := journal_analyze o.log ps (w₁.noteAll notices)
      rcases ha : analyze o.log ps (w₁.noteAll notices) with ⟨w₂, a⟩
      rw [ha] at hanalyze
      have htold : w.journal <+: w₂.journal := hreset.trans ((w₁.journal_noteAll notices).trans hanalyze)
      have hexport := journal_exportSarif w₂ a.results o.sarif
      simp only
      split
      · exact htold
      · split <;> next heq => rw [heq] at hexport; exact hexport ▸ htold

/-- **A run adds to what was told.** -/
theorem exists_journal_run (arguments : List Text) (w : World) :
    ∃ told, (run arguments w).1.journal = w.journal ++ told := by
  have htold : w.journal <+: (run arguments w).1.journal := by
    unfold run
    split
    · exact List.prefix_rfl
    · exact List.prefix_rfl
    · next o _ =>
      have haudit := journal_audit o w
      simp only
      split
      · next heq => rwa [heq] at haudit
      · next heq =>
        rw [heq] at haudit
        exact haudit.trans (World.journal_note ..)
  obtain ⟨told, h⟩ := htold
  exact ⟨told, h.symm⟩

end CommandLine

end ExtensionAudit
