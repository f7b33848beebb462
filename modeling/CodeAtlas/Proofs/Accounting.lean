import Mathlib.Data.Finset.Card
import CodeAtlas.Proofs.Cancellation
import CodeAtlas.Proofs.Disk

/-!
# What a run counts

A run ends in one of three ways: a root is missing, it is cancelled, or it reports. Nothing
that happens at a visit ends it. A report counts each visit that is read once, as parsed or
as failed, but for the files whose routes can be read, which it counts by their routes.

So the units of a report can be told from the files alone: those that are units of their
own (`ownFiles`), as often as they are selected; the packages of the Go files
(`packageKeys`), each once; and the files whose routes cannot be read (`failedRouteKeys`),
each once.

* `filterMap_fresh_keyed`: what is fresh by a key has each key once;
* `units_visit`: what is counted at one visit that is read;
* `units_after`: what is counted at all of them, by induction;
* `length_failed_readVisits`: whether routes can be read depends on the key of their file;
* `runs_are_accounted`: how a run ends, and what it counts.
-/

namespace CodeAtlas

open List

variable {job : Job} {roots : List String} {β : Type} (f : Visit → Option β)

/-! ## What there is to count -/

/-- The selected files that are units of their own. -/
def ownFiles (job : Job) (roots : List String) : List SourceFile :=
  (roots.flatMap (selected job)).filter (·.language ≠ .go)

/-- The keys of the packages of the selected Go files. -/
def packageKeys (job : Job) (roots : List String) : List FileKey :=
  ((roots.flatMap (selected job)).filter (·.language = .go)).map fun f =>
    .of job.disk (Run.directoryOf f.path)

/-- The files that may hold routes: those found under the roots, and those of the
    configuration. -/
def routePaths (job : Job) (roots : List String) : List String :=
  roots.flatMap (discovered job) ++ job.config.routeFiles

/-- The keys of the files whose routes cannot be read. -/
def failedRouteKeys (job : Job) (roots : List String) : List FileKey :=
  ((routePaths job roots).filter fun path => (Visit.routesOf? job.disk path).isNone).map
    (.of job.disk)

/-- No earlier root is missing, but this one is. -/
def FirstMissing (d : Disk) (roots : List String) (root : String) : Prop :=
  d.exists? root = false ∧
    ∃ earlier later, roots = earlier ++ root :: later ∧ ∀ r ∈ earlier, d.exists? r = true

namespace Visit

/-- The file of a visit to a unit of its own. -/
def ownFile? : Visit → Option SourceFile
  | .file f => some f
  | _ => none

/-- The key of the package that is visited. -/
def packageKey? (d : Disk) (v : Visit) : Option FileKey :=
  (v.key? d).bind VisitKey.package?

/-- The key of the file whose routes cannot be read. -/
def failedKey? (job : Job) (v : Visit) : Option FileKey :=
  if (v.outcome job).isNone then (v.key? job.disk).bind VisitKey.routes? else none

end Visit

open Visit (failedKey? key? ofSource outcome ownFile? packageKey? repeats routesOf?)

/-! ## What is fresh by a key -/

section keyed

variable {α κ : Type} [DecidableEq κ] {repeats : α → α → Bool} {key? : α → Option κ}
  (htrans : ∀ u v w, repeats u v = true → repeats v w = true → repeats u w = true)
  (hkey : ∀ u v k, key? v = some k → (repeats u v = true ↔ key? u = some k))

include htrans hkey

/-- If an item repeats those with its key, then what is fresh has each key once. -/
theorem filterMap_fresh_keyed (vs : List α) :
    ((fresh repeats [] vs).filterMap key?).Nodup ∧
      ((fresh repeats [] vs).filterMap key?).toFinset = (vs.filterMap key?).toFinset := by
  constructor
  · refine List.Pairwise.filterMap key? (fun u v huv k hk k' hk' heq => ?_) pairwise_fresh
    subst heq
    rw [(hkey u v k hk').2 hk] at huv
    cases huv
  · ext k
    simp only [mem_toFinset, mem_filterMap]
    constructor
    · rintro ⟨v, hv, hk⟩
      exact ⟨v, mem_of_mem_fresh hv, hk⟩
    · rintro ⟨v, hv, hk⟩
      obtain ⟨u, hu, rfl | huv⟩ := exists_fresh htrans hv any_nil
      · exact ⟨u, hu, hk⟩
      · exact ⟨u, hu, (hkey u v k hk).1 huv⟩

theorem length_filterMap_fresh (vs : List α) :
    ((fresh repeats [] vs).filterMap key?).length = (vs.filterMap key?).toFinset.card := by
  obtain ⟨hnodup, hsame⟩ := filterMap_fresh_keyed htrans hkey vs
  rw [← hsame, toFinset_card_of_nodup hnodup]

end keyed

/-- What repeats nothing is fresh as often as it comes. -/
theorem filterMap_fresh_of_alone {α : Type} {repeats : α → α → Bool} {f : α → Option β}
    (h : ∀ u v, (f v).isSome → repeats u v = false) (before vs : List α) :
    (fresh repeats before vs).filterMap f = vs.filterMap f := by
  induction vs generalizing before with
  | nil => rfl
  | cons v vs ih =>
    rw [fresh, filterMap_append, ih]
    cases hv : f v with
    | none => split <;> simp [hv]
    | some b =>
      have hfirst : before.any (repeats · v) = false := by
        rw [any_eq_false]
        intro u _
        simp [h u v (by simp [hv])]
      simp [hfirst, hv]

/-! ## The visits that are read -/

/-- A visit is counted as parsed or failed, unless it brings routes. -/
theorem units_visit (v : Visit) :
    (v.outcome job).toList.countP (·.outline?.isSome) +
        [v].countP (fun v => (v.outcome job).isNone) =
      v.ownFile?.toList.length + (v.packageKey? job.disk).toList.length +
        (v.failedKey? job).toList.length := by
  cases v with
  | file f =>
    cases hf : Run.fileOutline? job.disk f <;>
      simp [outcome, ownFile?, packageKey?, failedKey?, key?, hf,
        Batch.outline?]
  | package files f =>
    have hkey : (Visit.package files f).packageKey? job.disk =
        some (.of job.disk (Run.directoryOf f.path)) := rfl
    have hfailed : (Visit.package files f).failedKey? job = none := by
      simp [failedKey?, key?, VisitKey.routes?]
    cases ho : (Visit.package files f).outcome job with
    | none => simp [ownFile?, hkey, hfailed, ho]
    | some b =>
      obtain ⟨o, _, rfl⟩ := Option.map_eq_some_iff.1 ho
      simp [ownFile?, hkey, hfailed, ho, Batch.outline?]
  | routes path =>
    cases hr : routesOf? job.disk path <;>
      simp [outcome, ownFile?, packageKey?, failedKey?, key?, hr,
        Batch.outline?, VisitKey.package?, VisitKey.routes?]

theorem units_after (done : List Visit) :
    (Run.after job done).report.unitsParsed + (Run.after job done).report.unitsFailed =
      (done.filterMap ownFile?).length +
        (done.filterMap (packageKey? job.disk)).length +
        (done.filterMap (failedKey? job)).length := by
  change (done.filterMap (·.outcome job)).countP (·.outline?.isSome) +
    done.countP (fun v => (v.outcome job).isNone) = _
  induction done with
  | nil => rfl
  | cons v done ih =>
    have hv := @units_visit job v
    rw [← singleton_append]
    simp only [filterMap_append, filterMap_singleton, countP_append,
      length_append]
    omega

/-- A package is read once, however many of its files are selected. -/
theorem length_packages_readVisits :
    ((readVisits job roots).filterMap (packageKey? job.disk)).length =
      ((visits job roots).filterMap (packageKey? job.disk)).toFinset.card := by
  refine length_filterMap_fresh Visit.repeats_trans (fun u v k hk => ?_) _
  obtain ⟨key, hv, hkey⟩ := Option.bind_eq_some_iff.1 hk
  cases VisitKey.package?_eq_some.1 hkey
  simp [repeats, packageKey?, hv, Option.bind_eq_some_iff, VisitKey.package?_eq_some]

/-- Whether a file with routes can be read does not depend on how its path is written. -/
theorem routesOf?_eq_none_of_key {d : Disk} {p q : String} (hkey : FileKey.of d p = FileKey.of d q)
    (hq : routesOf? d q = none) : routesOf? d p = none := by
  cases hread : d.read p with
  | error fault => rw [routesOf?, hread]
  | ok content =>
    rw [routesOf?, Disk.read_of_key hkey.symm hread] at hq
    rw [routesOf?, hread]
    exact Option.map_eq_none_iff.2 (Option.map_eq_none_iff.1 hq)

theorem failedKey?_eq_some {v : Visit} {key : FileKey} :
    v.failedKey? job = some key ↔
      ∃ path, v = .routes path ∧ routesOf? job.disk path = none ∧
        FileKey.of job.disk path = key := by
  cases v <;> simp [failedKey?, outcome, key?, VisitKey.routes?]

/-- A file whose routes cannot be read fails once, however its path is written. -/
theorem length_failed_readVisits :
    ((readVisits job roots).filterMap (failedKey? job)).length =
      ((visits job roots).filterMap (failedKey? job)).toFinset.card := by
  refine length_filterMap_fresh Visit.repeats_trans (fun u v k hk => ?_) _
  obtain ⟨path, rfl, hfails, rfl⟩ := failedKey?_eq_some.1 hk
  rw [failedKey?_eq_some]
  constructor
  · intro hrepeats
    obtain ⟨p, hp, hkey⟩ := any_repeats_routes.1 (any_eq_true.2 ⟨u, mem_singleton_self u,
      hrepeats⟩)
    exact ⟨p, (mem_singleton.1 hp).symm, routesOf?_eq_none_of_key hkey hfails, hkey⟩
  · rintro ⟨p, rfl, _, hkey⟩
    simp [repeats, key?, hkey]

/-! ## All visits -/

theorem filterMap_visitsUnder (root : String) :
    (visitsUnder job root).filterMap f =
      (selected job root).filterMap (fun g => f (.ofSource (selected job root) g)) ++
        (discovered job root).filterMap fun path => f (.routes path) := by
  rw [visitsUnder, filterMap_append, filterMap_map, filterMap_map]
  rfl

/-- What is gathered at the visits: from each selected file, and from each file that may
    hold routes. -/
theorem filterMap_visits :
    (visits job roots).filterMap f =
      roots.flatMap (fun root =>
        (selected job root).filterMap (fun g => f (.ofSource (selected job root) g)) ++
          (discovered job root).filterMap fun path => f (.routes path)) ++
        job.config.routeFiles.filterMap fun path => f (.routes path) := by
  rw [visits, filterMap_append, filterMap_flatMap, filterMap_map]
  simp only [filterMap_visitsUnder]
  rfl

theorem ownFiles_eq : (visits job roots).filterMap ownFile? = ownFiles job roots := by
  have hsource : ∀ files g,
      (ofSource files g).ownFile? = if g.language ≠ .go then some g else none := by
    intro files g
    rw [ofSource]
    split <;> simp_all [ownFile?]
  have hroutes : ∀ path, (Visit.routes path).ownFile? = none := fun _ => rfl
  rw [filterMap_visits, ownFiles, filter_flatMap]
  simp only [hsource, hroutes, ← filterMap_eq_filter]
  simp [Option.guard]

theorem packageKeys_eq :
    (visits job roots).filterMap (packageKey? job.disk) = packageKeys job roots := by
  have hsource : ∀ files g, (ofSource files g).packageKey? job.disk =
      if g.language = .go then some (.of job.disk (Run.directoryOf g.path)) else none := by
    intro files g
    rw [ofSource]
    split <;> rfl
  have hroutes : ∀ path, (Visit.routes path).packageKey? job.disk = none := fun _ => rfl
  rw [filterMap_visits, packageKeys, filter_flatMap, map_flatMap]
  simp only [hsource, hroutes, ← filterMap_eq_filter, map_filterMap]
  simp [Option.guard]

theorem failedRouteKeys_eq :
    (visits job roots).filterMap (failedKey? job) = failedRouteKeys job roots := by
  have hsource : ∀ files g, (ofSource files g).failedKey? job = none := by
    intro files g
    rw [ofSource]
    split <;> simp [failedKey?, key?, VisitKey.routes?]
  rw [filterMap_visits, failedRouteKeys, routePaths, filter_append, map_append,
    filter_flatMap, map_flatMap]
  simp only [hsource, ← filterMap_eq_filter, map_filterMap]
  simp [Option.guard, failedKey?, key?, VisitKey.routes?, outcome]

/-- The units of a report. -/
theorem units_finalRun :
    (finalRun job roots).report.unitsParsed + (finalRun job roots).report.unitsFailed =
      (ownFiles job roots).length + (packageKeys job roots).toFinset.card +
        (failedRouteKeys job roots).toFinset.card := by
  rw [← ownFiles_eq, ← packageKeys_eq, ← failedRouteKeys_eq, ← length_packages_readVisits,
    ← length_failed_readVisits, finalRun, units_after, readVisits, filterMap_fresh_of_alone]
  -- A visit to a unit of its own repeats none.
  intro u v hv
  cases v <;> simp_all [ownFile?, repeats, key?]

/-! ## How a run ends -/

theorem missingRoot?_eq_some {d : Disk} {root : String} :
    missingRoot? d roots = some root ↔ FirstMissing d roots root := by
  rw [missingRoot?, find?_eq_some_iff_append, FirstMissing]
  simp

/-- How a run ends: with the first missing root, if a root is missing; as cancelled only if
    it was cancelled while it had another visit to make; and with no fault of a single
    unit. A run that ends with a report has counted each selected file that is a unit of its
    own, each package, and each file whose routes cannot be read. -/
theorem runs_are_accounted (job : Job) (roots : List String) :
    (∀ root, index job roots = .error (.rootMissing root) ↔ FirstMissing job.disk roots root) ∧
    ((∃ root, index job roots = .error (.rootMissing root)) ↔
      ∃ root ∈ roots, job.disk.exists? root = false) ∧
    (∀ chunks, index job roots = .error (.cancelled chunks) →
      ∃ k, job.cancelAfter = some k ∧ GoesOn job roots k) ∧
    (∀ fault, index job roots = .error fault → fault.isFatal = true) ∧
    ∀ report, index job roots = .ok report →
      report.unitsParsed + report.unitsFailed =
        (ownFiles job roots).length + (packageKeys job roots).toFinset.card +
          (failedRouteKeys job roots).toFinset.card := by
  have hmissing : (∃ root ∈ roots, job.disk.exists? root = false) ↔
      missingRoot? job.disk roots ≠ none := by
    simp [missingRoot?_eq_none]
  simp only [← missingRoot?_eq_some, hmissing]
  rcases index_cases job roots with ⟨root, hm, hindex⟩ | ⟨hm, ⟨k, hc, hgoes, hindex⟩ | hindex⟩
  · rw [hm, hindex]
    simp [Fault.isFatal]
  · rw [hm, hindex]
    simp [Fault.isFatal, hc, hgoes]
  · rw [hm, hindex]
    refine ⟨by simp, by simp, by simp, by simp, fun report h => ?_⟩
    cases h
    exact units_finalRun

/-- A package of two files, a script, and routes that cannot be read. -/
def mixture : Job where
  config := {}
  disk := {
    root := .directory "t"
      (.file "a.go" (bytesOf "package t\n") (.file "b.go" (bytesOf "package t\n")
        (.directory "routes" (.file "web.php" (bytesOf "<?php\nclass \x7b\n") .empty)
          (.file "run.py" (bytesOf "x = 1\n") .empty)))) .empty }

/-- Under a root that is given twice, the script and the file with routes are counted
    twice as units, and the package and the routes once. The first missing root is told. -/
theorem runs_are_accounted_mixture :
    (∃ report, index mixture ["t", "./t"] = .ok report ∧
      report.unitsParsed + report.unitsFailed = 4 + 1 + 1) ∧
    index mixture ["t", "u", "v"] = .error (.rootMissing "u") ∧
    ∃ chunks, index (mixture.limited (some 1)) ["t"] = .error (.cancelled chunks) ∧
      GoesOn (mixture.limited (some 1)) ["t"] 1 := by
  refine ⟨⟨_, index_of_uncancelled (by decide) rfl, ?_⟩, ?_, partialChunks mixture ["t"] 1, ?_⟩
  · rw [(runs_are_accounted mixture ["t", "./t"]).2.2.2.2 _ (index_of_uncancelled (by decide) rfl)]
    decide +kernel
  · refine ((runs_are_accounted mixture ["t", "u", "v"]).1 "u").2 ⟨by decide, ["t"], ["v"], rfl, ?_⟩
    decide
  · have hindex : index (mixture.limited (some 1)) ["t"] =
        .error (.cancelled (partialChunks mixture ["t"] 1)) := by
      rw [index_limited (by decide), if_pos (by decide +kernel)]
    obtain ⟨k, hk, hgoes⟩ := (runs_are_accounted (mixture.limited (some 1)) ["t"]).2.2.1 _ hindex
    cases hk
    exact ⟨hindex, hgoes⟩

end CodeAtlas
