import Mathlib
import ExtensionAudit.Proofs.Scan.Account

/-!
# Reports under other paths

The files of a report under other paths give the same report under these paths, as long as no two of them get the same
one. Only the files of a URL need that, for a file counts once there.

* `FileResult.mapPath`, `Report.paths`, `Report.mapPaths`: results and reports under other paths;
* `Table.alter_map`, `Report.provenance_map`: the files of each URL;
* **`Report.ofFiles_map`**: the report of files under other paths;
* `Report.isMalicious_mapPaths`, `Report.uniqueUrls_mapPaths`: what does not depend on the paths.
-/

namespace ExtensionAudit

/-- The result of a file under another path. -/
def FileResult.mapPath (f : Path → Path) (x : FileResult) : FileResult := { x with path := f x.path }

/-- The paths in a report: those of its findings, of the files of its URLs and of what was skipped. -/
def Report.paths (r : Report) : List Path := r.findings.map (·.path) ++ r.urlOccurrences.map (·.2) ++ r.skipped

/-- A report with all paths in it replaced. -/
def Report.mapPaths (f : Path → Path) (r : Report) : Report where
  findings := r.findings.map fun x => { x with path := f x.path }
  grouped := r.grouped
  urls := r.urls.map (Prod.map id (List.map f))
  skipped := r.skipped.map f
  truncated := r.truncated

theorem Table.alter_map {κ ν ν' : Type} [DecidableEq κ] {key : κ} {g : ν → ν'} {change : Option ν → ν}
    {change' : Option ν' → ν'} {table : Table κ ν} (hnone : change' none = g (change none))
    (hsome : ∀ e ∈ table, change' (some (g e.2)) = g (change (some e.2))) :
    Table.alter key change' (table.map (Prod.map id g)) = (table.alter key change).map (Prod.map id g) := by
  induction table with
  | nil => simp [alter, hnone]
  | cons entry rest ih =>
    obtain ⟨hentry, hrest⟩ := List.forall_mem_cons.mp hsome
    rw [List.map_cons, alter, alter]
    by_cases hk : entry.1 = key
    · simp [hk, hentry]
    · simp [hk, ih hrest]

namespace Report

variable {f : Path → Path} {paths : Set Path}

theorem addPath_map (hf : Set.InjOn f paths) {path : Path} (hp : path ∈ paths) {files : List Path}
    (hfiles : ∀ p ∈ files, p ∈ paths) : addPath (f path) (some (files.map f)) = (addPath path (some files)).map f := by
  have hm : f path ∈ files.map f ↔ path ∈ files := by
    rw [List.mem_map]
    constructor
    · rintro ⟨p, hmem, he⟩
      rwa [← hf (hfiles p hmem) hp he]
    · exact fun hmem => ⟨path, hmem, rfl⟩
  rw [addPath, addPath, Option.getD_some, Option.getD_some]
  simp only [hm]
  split
  · rfl
  · rw [List.map_append, List.map_singleton]

/-- **The files of each URL** under other paths. -/
theorem provenance_map (hf : Set.InjOn f paths) {occurrences : List (Text × Text)}
    (ho : ∀ o ∈ occurrences, o.2 ∈ paths) :
    provenance (occurrences.map (Prod.map id f)) = (provenance occurrences).map (Prod.map id (List.map f)) := by
  -- the paths in the table so far are among those that are told apart
  have key : ∀ (occurrences : List (Text × Text)) (table : Table Text (List Text)),
      (∀ o ∈ occurrences, o.2 ∈ paths) → (∀ e ∈ table, ∀ p ∈ e.2, p ∈ paths) →
      (occurrences.map (Prod.map id f)).foldl (fun (table : Table Text (List Text)) o => table.alter o.1 (addPath o.2))
          (table.map (Prod.map id (List.map f))) =
        (occurrences.foldl (fun (table : Table Text (List Text)) o => table.alter o.1 (addPath o.2)) table).map
          (Prod.map id (List.map f)) := by
    intro occurrences
    induction occurrences with
    | nil => exact fun _ _ _ => rfl
    | cons o occurrences ih =>
      intro table ho ht
      obtain ⟨hpath, ho⟩ := List.forall_mem_cons.mp ho
      have halter : Table.alter o.1 (addPath (f o.2)) (table.map (Prod.map id (List.map f))) =
          (Table.alter o.1 (addPath o.2) table).map (Prod.map id (List.map f)) :=
        Table.alter_map rfl fun e he => addPath_map hf hpath (ht e he)
      rw [List.map_cons, List.foldl_cons, List.foldl_cons, Prod.map_fst, Prod.map_snd, id, halter]
      refine ih _ ho fun e he p hp => ?_
      rcases (mem_alter_addPath table).mp ⟨e, he, rfl, hp⟩ with ⟨e', he', -, hp'⟩ | ⟨-, rfl⟩
      · exact ht e' he' p hp'
      · exact hpath
  exact key occurrences [] ho (List.forall_mem_nil _)

theorem tally_map_path (findings : List Finding) :
    tally (findings.map fun x => { x with path := f x.path }) = tally findings := by
  rw [tally, List.foldl_map]
  rfl

/-- **The report of files under other paths.** -/
theorem ofFiles_map (hf : Set.InjOn f paths) {files : List FileResult} (hp : ∀ x ∈ files, x.path ∈ paths) :
    ofFiles (files.map (FileResult.mapPath f)) = (ofFiles files).mapPaths f := by
  have hfindings : (files.map (FileResult.mapPath f)).flatMap FileResult.located =
      (files.flatMap FileResult.located).map fun x => { x with path := f x.path } := by
    rw [List.flatMap_map, List.map_flatMap]
    refine List.flatMap_congr fun x _ => ?_
    rw [FileResult.located, FileResult.located, List.map_map]
    rfl
  have hurls : (files.map (FileResult.mapPath f)).flatMap FileResult.occurrences =
      (files.flatMap FileResult.occurrences).map (Prod.map id f) := by
    rw [List.flatMap_map, List.map_flatMap]
    refine List.flatMap_congr fun x _ => ?_
    rw [FileResult.occurrences, FileResult.occurrences, List.map_map]
    rfl
  have hpaths : ∀ o ∈ files.flatMap FileResult.occurrences, o.2 ∈ paths := by
    intro o ho
    obtain ⟨x, hx, ho⟩ := List.mem_flatMap.mp ho
    obtain ⟨url, -, rfl⟩ := List.mem_map.mp ho
    exact hp x hx
  rw [ofFiles, hfindings, hurls, provenance_map hf hpaths, tally_map_path]
  rfl

variable {r : Report}

theorem isMalicious_mapPaths : (r.mapPaths f).isMalicious = r.isMalicious := by
  rw [isMalicious, isMalicious, mapPaths, List.isEmpty_map]

theorem uniqueUrls_mapPaths : (r.mapPaths f).uniqueUrls = r.uniqueUrls := by
  rw [uniqueUrls, uniqueUrls, mapPaths, List.map_map]
  rfl

end Report

end ExtensionAudit
