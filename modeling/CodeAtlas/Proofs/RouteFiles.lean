import Mathlib.Algebra.BigOperators.Group.Finset.Defs
import Mathlib.Data.Multiset.Bind
import CodeAtlas.Proofs.Accounting
import CodeAtlas.Proofs.Php.Fluent

/-!
# Files with routes

Routes are read from the files that the configuration names, or, if it names none, from those
found under the roots (`routeSources`). One file may come under several paths: roots lie inside of
each other, or paths are written in several ways. Its routes are read under the first of them
(`firstPaths`), so that each file counts once, and the path is all in which its routes depend on
the way to it (`Route.ofFile?_eq_map`).

* `heldRoutes_batches`: the routes of a run are those under the first paths;
* `filterMap_firstPaths`: the first paths lead to each file once;
* `route_files_count_once`: the chunks of routes in a report.
-/

namespace CodeAtlas

open List

/-! ## The path of a route -/

namespace Route

open Grammar Php

variable {source : Source} {path : String}

/-- The route in a file at another path. -/
def movedTo (path : String) (r : Route) : Route := { r with filePath := path }

theorem addChained_movedTo (r : Route) (call : ParseTree Kind) :
    addChained source (r.movedTo path) call = (addChained source r call).movedTo path := by
  rw [addChained, addChained]
  split
  · rfl
  · split
    · rfl
    · split <;> rfl

theorem foldl_addChained_movedTo (chain : List (ParseTree Kind)) (r : Route) :
    chain.foldl (addChained source) (r.movedTo path) =
      (chain.foldl (addChained source) r).movedTo path := by
  induction chain generalizing r with
  | nil => rfl
  | cons call chain ih => rw [foldl_cons, addChained_movedTo, ih, foldl_cons]

theorem register_movedTo (site : CallSite) (base : Route) :
    register site (base.movedTo path) = (register site base).map (movedTo path) := by
  rw [register, register]
  split
  · rfl
  · split
    · rw [map_map]
      rfl
    · split
      · rw [map_map]
        rfl
      · rfl

theorem ofCall_eq_map (path : String) (chain : List (ParseTree Kind)) (call : ParseTree Kind) :
    ofCall source path chain call = (ofCall source "" chain call).map (movedTo path) := by
  rw [ofCall, ofCall]
  split
  · rw [← register_movedTo, ← foldl_addChained_movedTo]
    rfl
  · rfl

/-- The routes of a source are the same in files at all paths, but for the path. -/
theorem ofFile?_eq_map (path : String) (source : Source) :
    ofFile? path source = (ofFile? "" source).map (List.map (movedTo (Path.slashed path))) := by
  rw [ofFile?, ofFile?, Option.map_map]
  congr 1
  funext file
  rw [Function.comp_apply, inTree_eq_flatMap, inTree_eq_flatMap, map_flatMap]
  refine flatMap_congr fun site _ => ?_
  rw [ofCall_eq_map, ofCall_eq_map (Path.slashed ""), map_map]
  rfl

end Route

/-! ## Files and paths -/

/-- The routes of a file with that content; none if it does not parse. -/
def routesIn (content : Bytes) : List Route :=
  (Route.ofFile? "" (Source.ofBytes content)).getD []

/-- The paths that routes are read from. -/
def routeSources (job : Job) (roots : List String) : List String :=
  if job.config.routeFiles ≠ [] then job.config.routeFiles
  else if job.config.discoverRoutes && job.config.isEnabled .php then
    roots.flatMap fun root => (Walk.routeFiles? job.config job.disk root).getD []
  else []

/-- The files that routes are read from. -/
def routeFiles (job : Job) (roots : List String) : Finset (List String × Bytes) :=
  ((routeSources job roots).filterMap job.disk.file?).toFinset

variable {job : Job} {roots : List String}

theorem routePaths_eq : routePaths job roots = routeSources job roots := by
  have hdiscovered : discovered job = fun root =>
      if Run.discovers job.config then (Walk.routeFiles? job.config job.disk root).getD []
      else [] := rfl
  rw [routePaths, routeSources, hdiscovered]
  cases hfiles : job.config.routeFiles with
  | nil =>
    have hfinds : Run.discovers job.config =
        (job.config.discoverRoutes && job.config.isEnabled .php) := by
      simp [Run.discovers, hfiles]
    rw [hfinds]
    cases job.config.discoverRoutes && job.config.isEnabled .php <;> simp
  | cons path paths => simp [Run.discovers, hfiles]

/-- What is read under a path are the routes of the file there. -/
theorem getD_routesOf? (d : Disk) (path : String) :
    (Visit.routesOf? d path).getD [] =
      (d.file? path).toList.flatMap fun f =>
        (routesIn f.2).map (Route.movedTo (Path.slashed path)) := by
  rw [Visit.routesOf?]
  cases hread : d.read path with
  | error fault =>
    have hnone : d.file? path = none := by
      refine Option.eq_none_iff_forall_ne_some.2 fun f hf => ?_
      rw [Disk.read_eq_ok.2 ⟨f, hf, rfl⟩] at hread
      cases hread
    simp [hnone]
  | ok content =>
    obtain ⟨f, hf, rfl⟩ := Disk.read_eq_ok.1 hread
    dsimp only
    rw [Route.ofFile?_eq_map, hf, Option.toList_some, flatMap_singleton, routesIn]
    cases Route.ofFile? "" (Source.ofBytes f.2) <;> rfl

/-! ## First paths -/

/-- Both paths lead to the same file. -/
def sameFile (d : Disk) (p q : String) : Bool :=
  FileKey.of d p == FileKey.of d q

theorem repeats_routes (d : Disk) (p q : String) :
    (Visit.routes p).repeats d (.routes q) = sameFile d p q := by
  simp [Visit.repeats, Visit.key?, sameFile]

/-- The paths that routes are read from, but for those of the files that were read before. -/
def firstPaths (job : Job) (roots : List String) : List String :=
  fresh (sameFile job.disk) [] (routeSources job roots)

/-- The path of a visit to a file with routes. -/
def Visit.path? : Visit → Option String
  | .routes path => some path
  | _ => none

theorem filterMap_path?_visits :
    (visits job roots).filterMap Visit.path? = routeSources job roots := by
  have hsource : ∀ files g, (Visit.ofSource files g).path? = none := by
    intro files g
    rw [Visit.ofSource]
    split <;> rfl
  have hroutes : ∀ path, (Visit.routes path).path? = some path := fun _ => rfl
  rw [filterMap_visits, ← routePaths_eq, routePaths]
  simp [hsource, hroutes]

/-- Files with routes are visited under the first paths. -/
theorem filterMap_path?_readVisits :
    (readVisits job roots).filterMap Visit.path? = firstPaths job roots := by
  rw [firstPaths, ← filterMap_path?_visits]
  refine filterMap_fresh fun u _ v _ path hv => ?_
  cases v with
  | file f => cases hv
  | package files f => cases hv
  | routes q =>
    cases hv
    cases u with
    | file f => simp [Visit.repeats, Visit.key?, Visit.path?]
    | package files f => simp [Visit.repeats, Visit.key?, Visit.path?]
    | routes p => exact repeats_routes job.disk p _

/-- The routes of a run are read under the first paths. -/
theorem heldRoutes_batches :
    (batches job roots).flatMap Batch.heldRoutes =
      (firstPaths job roots).flatMap fun path => (Visit.routesOf? job.disk path).getD [] := by
  rw [← filterMap_path?_readVisits, batches]
  induction readVisits job roots with
  | nil => rfl
  | cons v vs ih =>
    have hunit : ∀ o? : Option Outline,
        (o?.map Batch.unit).toList.flatMap Batch.heldRoutes = [] := by
      rintro (_ | o) <;> rfl
    rw [← singleton_append, filterMap_append, filterMap_append, flatMap_append, flatMap_append,
      filterMap_singleton, filterMap_singleton]
    congr 1
    cases v with
    | file f => exact hunit _
    | package files f => exact hunit _
    | routes path =>
      rw [Visit.outcome, Visit.path?]
      cases h : Visit.routesOf? job.disk path <;> simp [Batch.heldRoutes, h]

theorem filterMap_firstPaths (job : Job) (roots : List String) :
    ((firstPaths job roots).filterMap job.disk.file?).Nodup ∧
      ((firstPaths job roots).filterMap job.disk.file?).toFinset = routeFiles job roots := by
  refine filterMap_fresh_keyed (fun u v w huv hvw => ?_) (fun u v f hf => ?_) _
  · rw [sameFile, beq_iff_eq] at huv hvw ⊢
    exact huv.trans hvw
  · rw [sameFile, beq_iff_eq]
    exact Disk.file?_eq_some_iff_key hf

/-- A path under which each file is read. -/
theorem exists_spelling (job : Job) (roots : List String) :
    ∃ spelling : List String × Bytes → String,
      ∀ p ∈ firstPaths job roots, ∀ f, job.disk.file? p = some f → spelling f = p := by
  refine ⟨fun f => ((firstPaths job roots).find? (job.disk.file? · = some f)).getD "", ?_⟩
  intro p hp f hf
  have hsome : ((firstPaths job roots).find? (job.disk.file? · = some f)).isSome :=
    find?_isSome.2 ⟨p, hp, decide_eq_true hf⟩
  obtain ⟨q, hq⟩ := Option.isSome_iff_exists.1 hsome
  have hfile : job.disk.file? q = some f := by simpa using find?_some hq
  -- Of two first paths none leads to the file of the other.
  have hsymm : Std.Symm fun p q => sameFile job.disk p q = false := by
    refine ⟨fun p q h => ?_⟩
    rw [← h, sameFile, sameFile, Bool.beq_comm]
  dsimp only
  rw [hq]
  by_contra hne
  have hapart := pairwise_fresh.forall (mem_of_find?_eq_some hq) hp hne
  rw [sameFile, (Disk.file?_eq_some_iff_key hf).2 hfile, beq_self_eq_true] at hapart
  cases hapart

/-- A run over roots that exist, which is not cancelled, ends with a report. Whenever it does, the
    report has the routes of each file that routes are read from once, with one of the paths that
    lead to the file, and no others; and it counts them. -/
theorem route_files_count_once (job : Job) (roots : List String) :
    ((∀ root ∈ roots, job.disk.exists? root = true) → job.cancelAfter = none →
      ∃ report, index job roots = .ok report) ∧
    ∀ report, index job roots = .ok report →
      ∃ spelling : List String × Bytes → String,
        (∀ f ∈ routeFiles job roots, spelling f ∈ routeSources job roots ∧
          job.disk.file? (spelling f) = some f) ∧
        (report.chunks.filter (·.kind = .route) : Multiset Chunk) =
          (routeFiles job roots).val.bind (fun f =>
            (routesIn f.2).map fun r => (r.movedTo (Path.slashed (spelling f))).toChunk) ∧
        report.routes = ∑ f ∈ routeFiles job roots, (routesIn f.2).length := by
  refine ⟨fun hroots hc => ⟨_, index_of_uncancelled hroots hc⟩, fun report h => ?_⟩
  obtain ⟨_, rfl⟩ := index_eq_ok h
  obtain ⟨spelling, hspelling⟩ := exists_spelling job roots
  obtain ⟨hnodup, hfiles⟩ := filterMap_firstPaths job roots
  have hval : (routeFiles job roots).val = (firstPaths job roots).filterMap job.disk.file? := by
    rw [← hfiles, toFinset_val, hnodup.dedup]
  have hheld : (batches job roots).flatMap Batch.heldRoutes =
      ((firstPaths job roots).filterMap job.disk.file?).flatMap fun f =>
        (routesIn f.2).map (Route.movedTo (Path.slashed (spelling f))) := by
    rw [heldRoutes_batches, filterMap_eq_flatMap_toList, flatMap_assoc]
    refine flatMap_congr fun p hp => ?_
    rw [getD_routesOf?]
    refine flatMap_congr fun f hf => ?_
    rw [hspelling p hp f (Option.mem_toList.1 hf)]
  refine ⟨spelling, fun f hf => ?_, ?_, ?_⟩
  · rw [← hfiles, mem_toFinset, mem_filterMap] at hf
    obtain ⟨p, hp, hf⟩ := hf
    rw [hspelling p hp f hf]
    exact ⟨mem_of_mem_fresh hp, hf⟩
  · rw [hval, Multiset.coe_bind]
    refine Multiset.coe_eq_coe.2 ((perm_routes_finish job roots).trans (.of_eq ?_))
    rw [hheld, map_flatMap]
    simp only [map_map]
    rfl
  · change ((batches job roots).flatMap Batch.heldRoutes).length = _
    rw [hheld, Finset.sum, hval]
    simp

/-- A file under three roots has its route in the report once. -/
theorem route_files_count_once_shop :
    (routeSources shop ["shop", "./shop/routes", "shop/../shop"]).length = 3 ∧
    ∃ report, index shop ["shop", "./shop/routes", "shop/../shop"] = .ok report ∧
      report.routes = 1 ∧ (report.chunks.filter (·.kind = .route)).length = 1 := by
  let roots := ["shop", "./shop/routes", "shop/../shop"]
  obtain ⟨hreport, hroutes⟩ := route_files_count_once shop roots
  obtain ⟨report, h⟩ := hreport (by decide) rfl
  obtain ⟨spelling, _, hchunks, hcount⟩ := hroutes report h
  have hone : ∑ f ∈ routeFiles shop roots, (routesIn f.2).length = 1 := by decide +kernel
  have hcard := congrArg Multiset.card hchunks
  rw [Multiset.coe_card, Multiset.card_bind] at hcard
  refine ⟨by decide +kernel, report, h, hcount.trans hone, ?_⟩
  rw [hcard, ← hone, Finset.sum]
  simp

end CodeAtlas
