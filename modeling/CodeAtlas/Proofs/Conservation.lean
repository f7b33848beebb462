import CodeAtlas.Proofs.Arrangement
import CodeAtlas.Proofs.Enrichment
import CodeAtlas.Proofs.Fits
import CodeAtlas.Proofs.Visit

/-!
# Nothing is lost between the batches and the report

A report lists the chunks of all batches that a run took, each once, by file and line.
On the way they are entered into a list, changed at some places and sorted. None of
that loses a chunk, makes one or changes one, except that a class may have been told
what is known of it as a model (`EnrichedTo`).

* `forall₂_enrichedTo`: what entering the models does to the chunks;
* `perm_routes_finish`: the chunks of routes;
* `report_conserves_collected`: both, for a whole run.
-/

namespace CodeAtlas

open List

variable {job : Job} {roots : List String} {c c' : Chunk}

/-- The second chunk is the first, or for that of a class, the first with what is told
    of a model. -/
def EnrichedTo (c c' : Chunk) : Prop :=
  c' = c ∨ c.kind = .class ∧ c'.withoutModel = c

theorem EnrichedTo.samePlace (h : EnrichedTo c c') : c.samePlace c' := by
  rw [Chunk.samePlace_iff]
  rcases h with rfl | ⟨_, rfl⟩ <;> exact ⟨rfl, rfl⟩

theorem EnrichedTo.kind_eq (h : EnrichedTo c c') : c'.kind = c.kind := by
  rcases h with rfl | ⟨_, rfl⟩ <;> rfl

/-- A chunk of a batch is made from an outline or from a route. -/
theorem mem_collected (hc : c ∈ collected job roots) :
    (∃ o : Outline, c ∈ o.chunks) ∨ ∃ r : Route, c = r.toChunk := by
  obtain ⟨b, _, hb⟩ := mem_flatMap.1 hc
  cases b with
  | unit o => exact .inl ⟨o, hb⟩
  | routes rs =>
    obtain ⟨r, _, rfl⟩ := mem_map.1 hb
    exact .inr ⟨r, rfl⟩

theorem tidy_of_mem_collected (hc : c ∈ collected job roots) :
    c.Tidy fun key _ => key ∈ chunkKeys := by
  rcases mem_collected hc with ⟨o, ho⟩ | ⟨r, rfl⟩
  · exact Outline.tidy_of_mem_chunks (fun _ h _ _ => h) (fun _ _ => by decide)
      (fun _ _ => by decide) ho
  · exact r.tidy_toChunk fun _ h _ _ => h

/-- Models are entered into chunks of classes only. -/
theorem kind_of_isTarget {chunks : List Chunk} {i : Nat} {m : Model} (hc : chunks[i]? = some c)
    (ht : Run.isTarget chunks i m) : c.kind = .class := by
  simp only [Run.isTarget, Run.isLast, hc, Option.any_some, Run.suits, Bool.and_eq_true,
    decide_eq_true_eq] at ht
  exact ht.1.1

/-- What entering models does to the chunks of a run. -/
theorem forall₂_enrichedTo (models : List Model) :
    List.Forall₂ EnrichedTo (collected job roots)
      (models.foldl Run.enter (collected job roots)) := by
  suffices h : List.Forall₂ EnrichedTo (collected job roots)
      (models.foldl Run.enter ((collected job roots).map id)) by
    rwa [map_id] at h
  refine (Run.forall₂_foldl_enter models).2 fun i c hc => ?_
  rw [map_id]
  cases hms : models.filter (Run.isTarget (collected job roots) i) with
  | nil => exact .inl rfl
  | cons m ms =>
    -- However many models go there, they go to a class, and stand under two keys.
    have hm : m ∈ models.filter (Run.isTarget (collected job roots) i) :=
      hms ▸ mem_cons_self
    have hk := kind_of_isTarget hc (mem_filter.1 hm).2
    refine .inr ⟨hk, ?_⟩
    rw [Run.withoutModel_addAll]
    exact (tidy_of_mem_collected (mem_of_getElem? hc)).withoutModel

theorem filter_of_enrichedTo {cs cs' : List Chunk} (h : List.Forall₂ EnrichedTo cs cs') :
    cs'.filter (·.kind ≠ .class) = cs.filter (·.kind ≠ .class) := by
  induction h with
  | nil => rfl
  | cons hc _ ih =>
    -- A class stays one, whatever it is told of.
    have hkind := hc.kind_eq
    rcases hc with rfl | ⟨hclass, _⟩
    · rw [filter_cons, filter_cons, ih]
    · rw [filter_cons_of_neg (by simp [hkind, hclass]),
        filter_cons_of_neg (by simp [hclass]), ih]

/-- What is no class is in the report as it is in the batches. -/
theorem perm_filter_finish (job : Job) (roots : List String) :
    ((finalRun job roots).finish.chunks.filter (·.kind ≠ .class)).Perm
      ((collected job roots).filter (·.kind ≠ .class)) := by
  rw [← filter_of_enrichedTo (forall₂_enrichedTo
    (ClassGraph.ofOutlines (finalRun job roots).phpOutlines).models)]
  exact (arranges_sortChunks _).perm.filter _

theorem mem_chunks_finish (hk : c.kind ≠ .class) :
    c ∈ (finalRun job roots).finish.chunks ↔ c ∈ collected job roots := by
  simpa [hk] using (perm_filter_finish job roots).mem_iff (a := c)

theorem length_chunks_finish :
    (finalRun job roots).finish.chunks.length = (collected job roots).length :=
  (arranges_sortChunks _).perm.length_eq.trans (forall₂_enrichedTo _).length_eq.symm

/-! ## Routes -/

theorem Batch.filter_route (b : Batch) :
    b.chunks.filter (·.kind = .route) = b.heldRoutes.map Route.toChunk := by
  cases b with
  | unit o =>
    rw [heldRoutes, map_nil, filter_eq_nil_iff]
    intro c hc
    simpa using Outline.kind_of_mem_chunks hc
  | routes rs =>
    rw [chunks, heldRoutes, filter_eq_self, forall_mem_map]
    exact fun r _ => decide_eq_true r.kind_toChunk

/-- The chunks of routes are made from the routes of the batches. -/
theorem perm_routes_finish (job : Job) (roots : List String) :
    ((finalRun job roots).finish.chunks.filter (·.kind = .route)).Perm
      (((batches job roots).flatMap Batch.heldRoutes).map Route.toChunk) := by
  have hother : ∀ cs : List Chunk,
      (cs.filter (·.kind ≠ .class)).filter (·.kind = .route) = cs.filter (·.kind = .route) := by
    intro cs
    rw [filter_filter]
    exact filter_congr fun c _ => by cases c.kind <;> rfl
  have hperm := (perm_filter_finish job roots).filter (·.kind = .route)
  rw [hother, hother, collected, filter_flatMap] at hperm
  simpa only [Batch.filter_route, ← map_flatMap] using hperm

/-! ## The whole run -/

/-- A run over roots that exist, which is not cancelled, ends with a report. Whenever
    it does, the report lists the collected chunks by file and line, those of one line
    in the order of their acceptance, each as it was or as the class of a model; and it
    counts the chunks of routes. -/
theorem report_conserves_collected (job : Job) (roots : List String) :
    ((∀ root ∈ roots, job.disk.exists? root = true) → job.cancelAfter = none →
      ∃ report, index job roots = .ok report) ∧
    ∀ report, index job roots = .ok report →
      report.chunks.Pairwise (fun a b => a.atOrBefore b = true) ∧
      report.chunks.length = (collected job roots).length ∧
      (∃ arranged, Arranges (collected job roots) arranged ∧
        List.Forall₂ EnrichedTo arranged report.chunks) ∧
      report.routes = report.chunks.countP (·.kind = .route) := by
  refine ⟨fun hroots hc => ⟨_, index_of_uncancelled hroots hc⟩, fun report h => ?_⟩
  obtain ⟨_, rfl⟩ := index_eq_ok h
  have henriched : List.Forall₂ EnrichedTo (sortChunks (collected job roots))
      (finalRun job roots).finish.chunks := by
    exact (forall₂_arrange ((forall₂_enrichedTo _).imp fun _ _ h => h.samePlace)).2
      (forall₂_enrichedTo _)
  refine ⟨(arranges_sortChunks _).sorted, length_chunks_finish,
    ⟨_, arranges_sortChunks _, henriched⟩, ?_⟩
  have hlength := (perm_routes_finish job roots).length_eq
  rw [length_map] at hlength
  rw [countP_eq_length_filter, hlength]
  rfl

/-- A tree with a model, a class that is none, and a route. -/
def shop : Job where
  config := {}
  disk := {
    root := .directory "shop"
      (.file "models.php" (bytesOf "<?php\nclass P extends Model { }\nclass Q { }\n")
        (.directory "routes" (.file "web.php" (bytesOf "<?php\nRoute::get('/p', 'P@show');\n")
          .empty) .empty)) .empty }

/-- Two classes and a route make three chunks, of which one is that of a route. -/
theorem report_conserves_collected_shop :
    ∃ report, index shop ["shop"] = .ok report ∧ report.chunks.length = 3 ∧
      report.chunks.countP (·.kind = .route) = 1 ∧
      ∃ arranged, Arranges (collected shop ["shop"]) arranged ∧
        List.Forall₂ EnrichedTo arranged report.chunks := by
  obtain ⟨report, h⟩ := (report_conserves_collected shop ["shop"]).1 (by decide) rfl
  obtain ⟨_, hlength, ⟨arranged, harranged, henriched⟩, hroutes⟩ :=
    (report_conserves_collected shop ["shop"]).2 report h
  have hthree : (collected shop ["shop"]).length = 3 := by decide +kernel
  refine ⟨report, h, hlength.trans hthree, hroutes.symm.trans ?_, arranged, harranged, henriched⟩
  rw [(index_eq_ok h).2]
  decide +kernel

end CodeAtlas
