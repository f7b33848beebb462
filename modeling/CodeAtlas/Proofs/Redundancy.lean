import CodeAtlas.Proofs.Conservation

/-!
# Roots that add nothing

A root is redundant if every file under it was selected under a root before. Packages
and files with routes are read once in a run, so a redundant root leaves them alone.
Other files are read again under each root that selects them. So a redundant root
adds what its files of the other languages hold, once more, and what the files with
routes hold that were not found before (`addedVisits`).

* `readVisits_concat`: what is read under one more root;
* `file_mem_addedVisits`, `routes_mem_addedVisits`: which files these are;
* `redundant_root_unchanged_iff`: when a redundant root changes no chunk of the report.
-/

namespace CodeAtlas

open List

variable {job : Job} {roots : List String} {x : String} {f : SourceFile}

/-- Every file under the root is selected under another root, with the same path. -/
def Redundant (job : Job) (roots : List String) (x : String) : Prop :=
  ∀ f ∈ selected job x, ∃ root ∈ roots, f ∈ selected job root

/-- The visits at which something is read under one more root. -/
def addedVisits (job : Job) (roots : List String) (x : String) : List Visit :=
  fresh (Visit.repeats job.disk) (roots.flatMap (visitsUnder job)) (visitsUnder job x)

/-- The file with routes at this path is found under the root, and neither under the
    other roots nor earlier under this one. -/
def NewRoutes (job : Job) (roots : List String) (x path : String) : Prop :=
  ∃ earlier later, discovered job x = earlier ++ path :: later ∧
    ∀ p ∈ roots.flatMap (discovered job) ++ earlier,
      FileKey.of job.disk p ≠ FileKey.of job.disk path

/-! ## What is read under one more root -/

/-- If files with routes are given, none is looked for under a root. -/
theorem discovered_of_routeFiles (h : job.config.routeFiles ≠ []) : discovered job x = [] := by
  simp [discovered, Run.discovers, h]

theorem routeFiles_fresh (before : List Visit) :
    fresh (Visit.repeats job.disk) (before ++ visitsUnder job x)
        (job.config.routeFiles.map .routes) =
      fresh (Visit.repeats job.disk) before (job.config.routeFiles.map .routes) := by
  refine fresh_congr fun v hv => ?_
  obtain ⟨path, hpath, rfl⟩ := mem_map.1 hv
  rw [any_append, Bool.or_eq_left_iff_imp, any_repeats_routes]
  rintro ⟨p, hp, _⟩
  rw [routes_mem_visitsUnder, discovered_of_routeFiles (ne_nil_of_mem hpath)] at hp
  cases hp

/-- What is read under one more root comes behind what is read under the others, and
    leaves the given files with routes alone. -/
theorem readVisits_concat :
    readVisits job (roots ++ [x]) =
      fresh (Visit.repeats job.disk) [] (roots.flatMap (visitsUnder job)) ++
        addedVisits job roots x ++
        fresh (Visit.repeats job.disk) (roots.flatMap (visitsUnder job))
          (job.config.routeFiles.map .routes) := by
  rw [readVisits, visits, flatMap_append, flatMap_singleton, fresh_append,
    fresh_append, nil_append, nil_append, routeFiles_fresh]
  rfl

theorem readVisits_split :
    readVisits job roots =
      fresh (Visit.repeats job.disk) [] (roots.flatMap (visitsUnder job)) ++
        fresh (Visit.repeats job.disk) (roots.flatMap (visitsUnder job))
          (job.config.routeFiles.map .routes) := by
  rw [readVisits, visits, fresh_append, nil_append]

/-- No package of a redundant root is read again. -/
theorem package_not_mem_addedVisits (hx : Redundant job roots x) {files : List SourceFile} :
    Visit.package files f ∉ addedVisits job roots x := by
  intro hv
  obtain ⟨_, hf, hgo⟩ := package_mem_visitsUnder.1 (mem_of_mem_fresh hv)
  obtain ⟨pre, post, _, hfresh⟩ := mem_fresh.1 hv
  obtain ⟨root, hroot, hf'⟩ := hx f hf
  rw [any_append, Bool.or_eq_false_iff] at hfresh
  refine absurd (any_repeats_package.2 ?_) (Bool.eq_false_iff.1 hfresh.1)
  exact ⟨_, f, mem_flatMap.2 ⟨root, hroot, package_mem_visitsUnder.2 ⟨rfl, hf', hgo⟩⟩, rfl⟩

/-- A file that is a unit of its own is read again under each root. -/
theorem file_mem_addedVisits :
    Visit.file f ∈ addedVisits job roots x ↔ f ∈ selected job x ∧ f.language ≠ .go := by
  rw [addedVisits, file_mem_fresh, file_mem_visitsUnder]

theorem any_repeats_routes_under (path : String) (earlier : List String) :
    (roots.flatMap (visitsUnder job) ++ (selected job x).map (Visit.ofSource (selected job x)) ++
        earlier.map Visit.routes).any (·.repeats job.disk (.routes path)) = false ↔
      ∀ p ∈ roots.flatMap (discovered job) ++ earlier,
        FileKey.of job.disk p ≠ FileKey.of job.disk path := by
  rw [Bool.eq_false_iff, ne_eq, any_repeats_routes, not_exists]
  refine forall_congr' fun p => ?_
  rw [not_and]
  refine imp_congr ?_ Iff.rfl
  rw [mem_append, mem_append, or_iff_left routes_not_mem_ofSource, mem_append,
    mem_flatMap, mem_flatMap]
  simp only [routes_mem_visitsUnder, mem_map, Visit.routes.injEq, exists_eq_right]

/-- A file with routes is read if it is new. -/
theorem routes_mem_addedVisits {path : String} :
    Visit.routes path ∈ addedVisits job roots x ↔ NewRoutes job roots x path := by
  rw [addedVisits, visitsUnder, fresh_append, mem_append,
    or_iff_right fun h => routes_not_mem_ofSource (mem_of_mem_fresh h), mem_fresh]
  constructor
  · rintro ⟨pre, post, hsplit, hfresh⟩
    -- The visits are split where the paths are.
    obtain ⟨earlier, rest, hd, rfl, hrest⟩ := map_eq_append_iff.1 hsplit
    obtain ⟨q, later, rfl, hq, rfl⟩ := map_eq_cons_iff.1 hrest
    cases hq
    exact ⟨earlier, later, hd, (any_repeats_routes_under path earlier).1 hfresh⟩
  · rintro ⟨earlier, later, hd, hnew⟩
    refine ⟨earlier.map .routes, later.map .routes, ?_,
      (any_repeats_routes_under path earlier).2 hnew⟩
    rw [hd, map_append, map_cons]

/-! ## What a redundant root adds to the report -/

/-- The chunks that are read at some visits. -/
def chunksAt (job : Job) (vs : List Visit) : List Chunk :=
  (vs.filterMap (·.outcome job)).flatMap Batch.chunks

/-- The outlines of PHP files that are read at some visits. -/
def phpOutlinesAt (job : Job) (vs : List Visit) : List Outline :=
  (vs.filterMap (·.outcome job)).filterMap Batch.phpOutline?

/-- Nothing is added if and only if the files of a redundant root hold nothing that is
    read again. -/
theorem chunksAt_addedVisits (hx : Redundant job roots x) :
    chunksAt job (addedVisits job roots x) = [] ↔
      (∀ f ∈ selected job x, f.language ≠ .go →
        ∀ o, Run.fileOutline? job.disk f = some o → o.chunks = []) ∧
      ∀ path, NewRoutes job roots x path →
        ∀ rs, Visit.routesOf? job.disk path = some rs → rs = [] := by
  rw [chunksAt, flatMap_eq_nil_iff]
  simp only [mem_filterMap]
  constructor
  · intro h
    constructor
    · intro f hf hgo o ho
      exact h (.unit o) ⟨.file f, file_mem_addedVisits.2 ⟨hf, hgo⟩, by rw [Visit.outcome, ho]; rfl⟩
    · intro path hpath rs hrs
      have := h (.routes rs) ⟨.routes path, routes_mem_addedVisits.2 hpath,
        by rw [Visit.outcome, hrs]; rfl⟩
      exact map_eq_nil_iff.1 this
  · rintro ⟨hfiles, hroutes⟩ b ⟨v, hv, hb⟩
    cases v with
    | file f =>
      obtain ⟨hf, hgo⟩ := file_mem_addedVisits.1 hv
      obtain ⟨o, ho, rfl⟩ := Option.map_eq_some_iff.1 hb
      exact hfiles f hf hgo o ho
    | package files f => exact absurd hv (package_not_mem_addedVisits hx)
    | routes path =>
      obtain ⟨rs, hrs, rfl⟩ := Option.map_eq_some_iff.1 hb
      rw [hroutes path (routes_mem_addedVisits.1 hv) rs hrs]
      rfl

theorem chunksAt_append (vs ws : List Visit) :
    chunksAt job (vs ++ ws) = chunksAt job vs ++ chunksAt job ws := by
  rw [chunksAt, filterMap_append, flatMap_append]
  rfl

/-- An outline without chunks declares no classes. -/
theorem classesOf_of_chunks_nil {o : Outline} (h : o.chunks = []) :
    ClassGraph.classesOf o = [] := by
  have htypes : o.types.flatMap o.typeChunks = [] := by
    simp only [Outline.chunks, append_eq_nil_iff] at h
    exact h.1.1.1.2
  rw [flatMap_eq_nil_iff] at htypes
  rw [ClassGraph.classesOf, map_eq_nil_iff, filter_eq_nil_iff]
  intro t ht _
  have hnil := htypes t ht
  rw [Outline.typeChunks] at hnil
  split at hnil <;> cases hnil

/-- The classes of a run that reads nothing new are those it had. -/
theorem flatMap_classesOf_nil {vs : List Visit} (h : chunksAt job vs = []) :
    (phpOutlinesAt job vs).flatMap ClassGraph.classesOf = [] := by
  rw [flatMap_eq_nil_iff]
  intro o ho
  obtain ⟨b, hb, hbo⟩ := mem_filterMap.1 ho
  have hnil := flatMap_eq_nil_iff.1 h b hb
  cases b with
  | unit u =>
    rw [Batch.phpOutline?] at hbo
    split at hbo
    · cases hbo
      exact classesOf_of_chunks_nil hnil
    · cases hbo
  | routes rs => cases hbo

/-- The chunks of a report depend on the chunks and the classes of the run. -/
theorem chunks_finish_congr {r r' : Run} (hchunks : r'.report.chunks = r.report.chunks)
    (hclasses : r'.phpOutlines.flatMap ClassGraph.classesOf =
      r.phpOutlines.flatMap ClassGraph.classesOf) : r'.finish.chunks = r.finish.chunks := by
  rw [Run.finish, Run.finish, ClassGraph.ofOutlines, ClassGraph.ofOutlines, hchunks, hclasses]

theorem chunks_finish_concat :
    (finalRun job (roots ++ [x])).finish.chunks = (finalRun job roots).finish.chunks ↔
      chunksAt job (addedVisits job roots x) = [] := by
  constructor
  · intro h
    -- Nothing is lost on the way to the report, so its length tells what was added.
    have hlength := congrArg List.length h
    rw [length_chunks_finish, length_chunks_finish] at hlength
    change (chunksAt job (readVisits job (roots ++ [x]))).length =
      (chunksAt job (readVisits job roots)).length at hlength
    rw [readVisits_concat, readVisits_split] at hlength
    simp only [chunksAt_append, length_append] at hlength
    exact eq_nil_of_length_eq_zero (by omega)
  · intro h
    -- Without chunks there are no classes either, so the models are the same.
    apply chunks_finish_congr
    · change chunksAt job (readVisits job (roots ++ [x])) = chunksAt job (readVisits job roots)
      rw [readVisits_concat, readVisits_split, chunksAt_append, chunksAt_append, h,
        chunksAt_append, append_nil]
    · change (phpOutlinesAt job (readVisits job (roots ++ [x]))).flatMap ClassGraph.classesOf =
        (phpOutlinesAt job (readVisits job roots)).flatMap ClassGraph.classesOf
      have hnil := flatMap_classesOf_nil h
      rw [phpOutlinesAt] at hnil
      rw [readVisits_concat, readVisits_split]
      simp only [phpOutlinesAt, filterMap_append, flatMap_append, hnil,
        append_nil]

/-- A redundant root behind the others changes no chunk of the report if and only if
    its files that are units of their own hold nothing, and neither do the files with
    routes that were not found before. -/
theorem redundant_root_unchanged_iff (job : Job) (roots : List String) (x : String)
    (hroots : ∀ root ∈ roots ++ [x], job.disk.exists? root = true)
    (hc : job.cancelAfter = none) (hx : Redundant job roots x) :
    ∃ report report', index job roots = .ok report ∧ index job (roots ++ [x]) = .ok report' ∧
      (report'.chunks = report.chunks ↔
        (∀ f ∈ selected job x, f.language ≠ .go →
          ∀ o, Run.fileOutline? job.disk f = some o → o.chunks = []) ∧
        ∀ path, NewRoutes job roots x path →
          ∀ rs, Visit.routesOf? job.disk path = some rs → rs = []) := by
  have hroots' : ∀ root ∈ roots, job.disk.exists? root = true :=
    fun root hroot => hroots root (mem_append_left _ hroot)
  refine ⟨_, _, index_of_uncancelled hroots' hc, index_of_uncancelled hroots hc, ?_⟩
  rw [chunks_finish_concat, chunksAt_addedVisits hx]

/-- A tree with a package and a file with routes. -/
def service : Job where
  config := {}
  disk := {
    root := .directory "svc"
      (.file "a.go" (bytesOf "package svc\n\nfunc A() {}\n")
        (.directory "routes" (.file "web.php" (bytesOf "<?php\nRoute::get('/p', 'P@show');\n")
          .empty) .empty)) .empty }

/-- A second visit to a tree whose files are all read once changes nothing. -/
theorem redundant_root_unchanged_service :
    ∃ report report', index service ["svc"] = .ok report ∧
      index service ["svc", "svc"] = .ok report' ∧ report'.chunks = report.chunks := by
  obtain ⟨report, report', h, h', hiff⟩ := redundant_root_unchanged_iff service ["svc"] "svc"
    (by decide) rfl (fun _ hf => ⟨_, mem_cons_self, hf⟩)
  refine ⟨report, report', h, h', hiff.2 ⟨fun f hf hgo o ho => ?_, ?_⟩⟩
  · have hempty : ∀ f ∈ selected service "svc", f.language ≠ .go →
        (Run.fileOutline? service.disk f).all (·.chunks.isEmpty) = true := by
      decide +kernel
    have := hempty f hf hgo
    rw [ho] at this
    exact List.isEmpty_iff.1 this
  · rintro path ⟨earlier, later, hd, hnew⟩
    refine absurd rfl (hnew path (mem_append_left _ ?_))
    exact mem_flatMap.2 ⟨"svc", mem_cons_self, hd ▸ by simp⟩

/-- A tree with one Python file. -/
def script : Job where
  config := {}
  disk := { root := .file "a.py" (bytesOf "def run():\n    pass\n") .empty }

/-- A Python file that is given twice is listed twice. -/
theorem repeated_root_lists_twice :
    (∀ root ∈ ["a.py", "a.py"], script.disk.exists? root = true) ∧ script.config.exclude = [] ∧
      ∃ report report', index script ["a.py"] = .ok report ∧
        index script ["a.py", "a.py"] = .ok report' ∧ report.chunks.length = 1 ∧
        report'.chunks.length = 2 ∧ report'.chunks ≠ report.chunks := by
  have hone : (finalRun script ["a.py"]).finish.chunks.length = 1 := by
    rw [length_chunks_finish]
    decide +kernel
  have htwo : (finalRun script ["a.py", "a.py"]).finish.chunks.length = 2 := by
    rw [length_chunks_finish]
    decide +kernel
  refine ⟨by decide, rfl, _, _, index_of_uncancelled (by decide) rfl,
    index_of_uncancelled (by decide) rfl, hone, htwo, fun h => ?_⟩
  rw [h, hone] at htwo
  cases htwo

end CodeAtlas
