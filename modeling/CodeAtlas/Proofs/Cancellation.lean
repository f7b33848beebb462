import CodeAtlas.Proofs.Conservation

/-!
# Cancelled runs

A run that is cancelled once it has taken so many batches (`Job.limited`) looks for that
before each visit, and at a visit it takes one batch at most. So it stops between two
visits with just those batches, if there is another visit to make (`GoesOn`), and hands
over their chunks in the order of a report. Else it ends as if nobody had cancelled it.
Models are entered at the end only, so that a run which is stopped tells of none.

* `Run.accepted_visit_le`: a visit takes one batch at most;
* `Run.each_limited`: where a limited run stops, by induction on its steps;
* `index_limited`: the same for a whole run;
* `index_cases`: how a run can end;
* `map_withoutModel_finish`: a report without what it tells of models;
* `cancelled_run_keeps_first_batches`: what is handed over, for all limits.
-/

namespace CodeAtlas

open List Nat

variable {job : Job} {roots : List String} {k : Nat}

/-- The job, to be cancelled after so many batches, or not at all. -/
def Job.limited (job : Job) (limit : Option Nat) : Job :=
  { job with cancelAfter := limit }

/-- The batches that a run takes at its first visits. -/
def batchesAt (job : Job) (vs : List Visit) : List Batch :=
  (fresh (Visit.repeats job.disk) [] vs).filterMap (·.outcome job)

/-- The run has another visit to make when it has taken `k` batches. -/
def GoesOn (job : Job) (roots : List String) (k : Nat) : Prop :=
  ∃ n < (visits job roots).length, (batchesAt job ((visits job roots).take n)).length = k

instance : Decidable (GoesOn job roots k) :=
  inferInstanceAs (Decidable (∃ n < _, _))

/-- The chunks of the first `k` batches by file and line. -/
def partialChunks (job : Job) (roots : List String) (k : Nat) : List Chunk :=
  sortChunks (((batches job roots).take k).flatMap Batch.chunks)

/-! ## Where a run stops -/

namespace Run

theorem accepted_take_le (r : Run) (b : Option Batch) :
    (r.take b).accepted ≤ r.accepted + 1 := by
  rcases b with _ | _ | _
  · exact le_succ _
  · exact le_refl _
  · exact le_refl _

/-- At a visit one batch is taken at most. -/
theorem accepted_visit_le (r : Run) (v : Visit) : (r.visit job v).accepted ≤ r.accepted + 1 := by
  cases v with
  | file f =>
    rw [visit, acceptOr_eq_take]
    exact accepted_take_le r _
  | package files f =>
    rw [visit, readPackage]
    split
    · exact le_succ _
    · rw [acceptOr_eq_take]
      exact accepted_take_le { r with packages := _ } _
  | routes path =>
    rw [visit, readRoutes_eq]
    split
    · exact le_succ _
    · rw [take_mark]
      exact accepted_take_le r _

/-- A run that is limited to `k` batches, and has not taken more, stops at the first step
    before which it has taken `k`; without such a step it makes all of them. -/
theorem each_limited {α : Type} {step : Run → α → Run}
    (hstep : ∀ r a, (step r a).accepted ≤ r.accepted + 1) (as : List α) {r : Run}
    (hr : r.accepted ≤ k) :
    (∃ n < as.length, ((as.take n).foldl step r).accepted = k ∧
        each (job.limited (some k)) step r as =
          .error (.cancelled (sortChunks ((as.take n).foldl step r).report.chunks))) ∨
      (∀ n < as.length, ((as.take n).foldl step r).accepted ≠ k) ∧
        each (job.limited (some k)) step r as = .ok (as.foldl step r) := by
  induction as generalizing r with
  | nil => exact .inr ⟨fun n hn => absurd hn (not_lt_zero n), rfl⟩
  | cons a as ih =>
    rw [each, checkpoint, Job.limited]
    dsimp only
    by_cases hk : k ≤ r.accepted
    · -- The limit is reached, and the run stops here.
      refine .inl ⟨0, zero_lt_succ _, le_antisymm hr hk, ?_⟩
      rw [if_pos hk]
      rfl
    · -- One step takes one batch at most, so the limit is not passed.
      have hnext : (step r a).accepted ≤ k := Nat.le_trans (hstep r a) (Nat.lt_of_not_le hk)
      rw [if_neg hk]
      rcases ih hnext with ⟨n, hn, hcount, heach⟩ | ⟨hcount, heach⟩
      · exact .inl ⟨n + 1, succ_lt_succ hn, hcount, heach⟩
      · refine .inr ⟨fun n hn => ?_, heach⟩
        cases n with
        | zero => exact Nat.ne_of_lt (Nat.lt_of_not_le hk)
        | succ n => exact hcount n (lt_of_succ_lt_succ hn)

end Run

theorem foldl_visit_start (vs : List Visit) :
    vs.foldl (Run.visit job) {} = .after job (fresh (Visit.repeats job.disk) [] vs) := by
  rw [← Run.after_nil, Run.foldl_visit, foldl_admitNew Visit.repeats_trans]
  rfl

/-- The batches of the first visits are the first batches. -/
theorem take_batches {n : Nat} (hk : (batchesAt job ((visits job roots).take n)).length = k) :
    (batches job roots).take k = batchesAt job ((visits job roots).take n) := by
  rw [batches, readVisits]
  conv_lhs => rw [← take_append_drop n (visits job roots)]
  rw [fresh_append, filterMap_append]
  exact take_left' hk

/-- A run that is limited stops if it goes on behind its limit. -/
theorem index_limited (hroots : ∀ root ∈ roots, job.disk.exists? root) (k : Nat) :
    index (job.limited (some k)) roots =
      if GoesOn job roots k then .error (.cancelled (partialChunks job roots k))
      else .ok (finalRun job roots).finish := by
  have hindex : index (job.limited (some k)) roots =
      (Run.each (job.limited (some k)) (Run.visit job) {} (visits job roots)).map Run.finish :=
    index_eq_map hroots
  have hstart : ({} : Run).accepted ≤ k := zero_le k
  rw [hindex]
  rcases Run.each_limited Run.accepted_visit_le (visits job roots) hstart with
    ⟨n, hn, hcount, heach⟩ | ⟨hcount, heach⟩
  · rw [foldl_visit_start] at hcount heach
    rw [if_pos ⟨n, hn, hcount⟩, heach, partialChunks, take_batches hcount]
    rfl
  · have hends : ¬ GoesOn job roots k := by
      rintro ⟨n, hn, hlength⟩
      refine hcount n hn ?_
      rw [foldl_visit_start]
      exact hlength
    rw [if_neg hends, heach, foldl_visits]
    rfl

/-- A run ends at once if a root is missing. Else it stops where it is cancelled while it
    has another visit to make, or reports the state after all its visits. -/
theorem index_cases (job : Job) (roots : List String) :
    (∃ root, missingRoot? job.disk roots = some root ∧
      index job roots = .error (.rootMissing root)) ∨
    missingRoot? job.disk roots = none ∧
      ((∃ k, job.cancelAfter = some k ∧ GoesOn job roots k ∧
        index job roots = .error (.cancelled (partialChunks job roots k))) ∨
      index job roots = .ok (finalRun job roots).finish) := by
  cases hm : missingRoot? job.disk roots with
  | some root => exact .inl ⟨root, rfl, by rw [index, hm]⟩
  | none =>
    refine .inr ⟨rfl, ?_⟩
    have hroots := missingRoot?_eq_none.1 hm
    cases hc : job.cancelAfter with
    | none => exact .inr (index_of_uncancelled hroots hc)
    | some k =>
      have hself : job.limited (some k) = job := by rw [Job.limited, ← hc]
      have hindex := index_limited hroots k
      rw [hself] at hindex
      by_cases hgoes : GoesOn job roots k
      · exact .inl ⟨k, rfl, hgoes, by rw [hindex, if_pos hgoes]⟩
      · exact .inr (by rw [hindex, if_neg hgoes])

/-! ## What the report adds -/

theorem map_withoutModel_enter (chunks : List Chunk) (m : Model) :
    (Run.enter chunks m).map Chunk.withoutModel = chunks.map Chunk.withoutModel := by
  refine ext_getElem? fun i => ?_
  rw [getElem?_map, getElem?_map, Run.getElem?_enter]
  split
  · cases chunks[i]? <;> simp [Model.withoutModel_addTo]
  · rfl

/-- Without what it tells of models, a report lists the chunks as they were collected. -/
theorem map_withoutModel_finish :
    (finalRun job roots).finish.chunks.map Chunk.withoutModel =
      sortChunks (collected job roots) := by
  have hcollected : (collected job roots).map Chunk.withoutModel = collected job roots :=
    (map_congr_left fun _ hc => (tidy_of_mem_collected hc).withoutModel).trans (map_id _)
  -- What is taken away has no part in the order.
  have hsort : ∀ chunks : List Chunk,
      (sortChunks chunks).map Chunk.withoutModel = sortChunks (chunks.map Chunk.withoutModel) :=
    fun _ => map_mergeSort fun _ _ _ _ => rfl
  calc (finalRun job roots).finish.chunks.map Chunk.withoutModel
      = sortChunks (((ClassGraph.ofOutlines (finalRun job roots).phpOutlines).models.foldl
          Run.enter (collected job roots)).map Chunk.withoutModel) := hsort _
    _ = sortChunks ((collected job roots).map Chunk.withoutModel) :=
        congrArg sortChunks (foldl_keeps map_withoutModel_enter _ _)
    _ = sortChunks (collected job roots) := congrArg sortChunks hcollected

/-- The chunks of fewer batches are among those of more. -/
theorem partialChunks_sublist {bs : List Batch} (h : ((batches job roots).take k).Sublist bs) :
    (partialChunks job roots k).Sublist (sortChunks (bs.flatMap Batch.chunks)) :=
  sublist_sortChunks (h.flatMap _)

/-! ## All limits -/

/-- A run over roots that exist is stopped at its limit exactly if it goes on behind it,
    and hands over the chunks of the batches taken until then, by file and line. Else it
    ends with the report of the run that nobody cancels. With a higher limit no chunk is
    lost, and all are in the report, where a class may be told of as a model. -/
theorem cancelled_run_keeps_first_batches (job : Job) (roots : List String)
    (hroots : ∀ root ∈ roots, job.disk.exists? root = true) :
    ∃ (report : Report) (kept : Nat → List Chunk),
      index (job.limited none) roots = .ok report ∧
      (∀ k, index (job.limited (some k)) roots =
        if GoesOn job roots k then .error (.cancelled (kept k)) else .ok report) ∧
      (∀ k, Arranges (((batches job roots).take k).flatMap Batch.chunks) (kept k)) ∧
      (∀ k k', k ≤ k' → (kept k).Sublist (kept k')) ∧
      ∀ k, (kept k).Sublist (report.chunks.map Chunk.withoutModel) := by
  refine ⟨(finalRun job roots).finish, partialChunks job roots, ?_, index_limited hroots,
    fun k => arranges_sortChunks _, fun k k' hle => ?_, fun k => ?_⟩
  · exact index_of_uncancelled hroots rfl
  · exact partialChunks_sublist (take_sublist_take_left hle)
  · rw [map_withoutModel_finish]
    exact partialChunks_sublist (take_sublist _ _)

/-- After the first file of a shop the run stops with its two classes. Neither is told of
    as a model, and the report has both. -/
theorem cancelled_run_keeps_first_batches_shop :
    (∀ root ∈ ["shop"], shop.disk.exists? root = true) ∧ GoesOn shop ["shop"] 1 ∧
      ∃ report kept, index (shop.limited none) ["shop"] = .ok report ∧
        index (shop.limited (some 1)) ["shop"] = .error (.cancelled kept) ∧ kept.length = 2 ∧
        kept.Sublist (report.chunks.map Chunk.withoutModel) := by
  have hroots : ∀ root ∈ ["shop"], shop.disk.exists? root = true := by decide
  have hgoes : GoesOn shop ["shop"] 1 := by decide +kernel
  have htwo : (((batches shop ["shop"]).take 1).flatMap Batch.chunks).length = 2 := by
    decide +kernel
  obtain ⟨report, kept, hreport, hlimited, harranges, _, hsublist⟩ :=
    cancelled_run_keeps_first_batches shop ["shop"] hroots
  refine ⟨hroots, hgoes, report, kept 1, hreport, ?_, ?_, hsublist 1⟩
  · rw [hlimited 1, if_pos hgoes]
  · rw [(harranges 1).perm.length_eq, htwo]

end CodeAtlas
