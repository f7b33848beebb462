import CodeAtlas.Index
import CodeAtlas.Proofs.Fresh
import CodeAtlas.Proofs.List

/-!
# What a run reads

A run goes from *visit* to visit (`Visit`): to the files of its own kind under each
root, to the Go files, each of which stands for its package, and to the files with
routes. Which visits there are, and in which order, depends on the files and the
configuration only (`visits`).

A package and a file with routes are read at the first of their visits
(`readVisits`). A visit that is read adds a *batch* of chunks, or fails
(`Visit.outcome`). So the batches of a run can be told without running it
(`batches`), and the chunks in them are what the run has to report (`collected`).

* `Run.visit_after`: what one visit does to a run;
* `Run.foldl_visit`: what all visits do, by induction on them;
* `index_eq_ok`: a run that is not cancelled reports the state after all visits.
-/

namespace CodeAtlas

open List

variable {f : SourceFile} {files fs : List SourceFile} {root path : String} {r : Run}
  {key : FileKey} {d : Disk}

/-- What a run comes to: a file that is a unit of its own, a Go file among the files
    that were selected with it, or a file that may hold routes. -/
inductive Visit where
  | file (f : SourceFile)
  | package (files : List SourceFile) (f : SourceFile)
  | routes (path : String)

/-- What is read no more than once in a run. -/
inductive VisitKey where
  | package (key : FileKey)
  | routes (key : FileKey)
  deriving DecidableEq, Repr

namespace VisitKey

variable {k : VisitKey}

/-- The key of a package. -/
def package? : VisitKey → Option FileKey
  | .package key => some key
  | .routes _ => none

/-- The key of a file with routes. -/
def routes? : VisitKey → Option FileKey
  | .package _ => none
  | .routes key => some key

theorem package?_eq_some : k.package? = some key ↔ k = .package key := by
  cases k <;> simp [package?]

theorem routes?_eq_some : k.routes? = some key ↔ k = .routes key := by
  cases k <;> simp [routes?]

end VisitKey

/-- What a visit adds to a run: a unit, or the routes of a file. -/
inductive Batch where
  | unit (o : Outline)
  | routes (rs : List Route)

namespace Batch

/-- The chunks of a batch. -/
def chunks : Batch → List Chunk
  | .unit o => o.chunks
  | .routes rs => rs.map Route.toChunk

/-- The unit of a batch. -/
def outline? : Batch → Option Outline
  | .unit o => some o
  | .routes _ => none

/-- The outline of a PHP file. -/
def phpOutline? : Batch → Option Outline
  | .unit o => if o.language = .php then some o else none
  | .routes _ => none

/-- The routes that a batch holds. -/
def heldRoutes : Batch → List Route
  | .unit _ => []
  | .routes rs => rs

end Batch

namespace Visit

/-- The key of what is read at a visit, if it is read once only. -/
def key? (d : Disk) : Visit → Option VisitKey
  | .file _ => none
  | .package _ f => some (.package (.of d (Run.directoryOf f.path)))
  | .routes path => some (.routes (.of d path))

/-- What is read at the visit `v` was read at the visit `u` already. -/
def repeats (d : Disk) (u v : Visit) : Bool :=
  (v.key? d).isSome && u.key? d == v.key? d

/-- The Go files among `files` that make a package together with `f`. -/
def members (files : List SourceFile) (f : SourceFile) : List SourceFile :=
  files.filter fun g =>
    g.language = .go ∧ Path.parts (Run.directoryOf g.path) = Path.parts (Run.directoryOf f.path)

/-- The contents of those files that can be read. -/
def contents (d : Disk) (files : List SourceFile) : List (String × Bytes) :=
  files.filterMap fun g => (d.read g.path).toOption.map fun content => (g.path, content)

/-- The routes of a file; none if it cannot be read or does not parse. -/
def routesOf? (d : Disk) (path : String) : Option (List Route) :=
  match d.read path with
  | .ok content => Route.ofFile? path (Source.ofBytes content)
  | .error _ => none

/-- What is read at a visit; none if that fails. -/
def outcome (job : Job) : Visit → Option Batch
  | .file f => (Run.fileOutline? job.disk f).map .unit
  | .package files f =>
    (Go.outline? (Run.directoryOf f.path) (contents job.disk (members files f))
      job.config.exportedOnly).map .unit
  | .routes path => (routesOf? job.disk path).map .routes

/-- The visit to a file under a root, where `files` were selected. -/
def ofSource (files : List SourceFile) (f : SourceFile) : Visit :=
  if f.language = .go then .package files f else .file f

end Visit

/-! ## The visits of a run -/

/-- The files that are selected under a root. -/
def selected (job : Job) (root : String) : List SourceFile :=
  (Walk.sources? job.config job.disk root).getD []

/-- The files with routes that are found under a root, if they are looked for. -/
def discovered (job : Job) (root : String) : List String :=
  if Run.discovers job.config then (Walk.routeFiles? job.config job.disk root).getD [] else []

/-- The visits under a root. -/
def visitsUnder (job : Job) (root : String) : List Visit :=
  (selected job root).map (.ofSource (selected job root)) ++ (discovered job root).map .routes

/-- The visits of a run, those that are skipped as repeated included. -/
def visits (job : Job) (roots : List String) : List Visit :=
  roots.flatMap (visitsUnder job) ++ job.config.routeFiles.map .routes

/-- The visits of a run at which something is read. -/
def readVisits (job : Job) (roots : List String) : List Visit :=
  fresh (Visit.repeats job.disk) [] (visits job roots)

/-- The batches of a run in the order of their acceptance. -/
def batches (job : Job) (roots : List String) : List Batch :=
  (readVisits job roots).filterMap (·.outcome job)

/-- The chunks of all batches of a run in the order of their acceptance. -/
def collected (job : Job) (roots : List String) : List Chunk :=
  (batches job roots).flatMap Batch.chunks

/-! ## First visits -/

section fresh

variable {d : Disk} {before vs : List Visit}

/-- Visits repeat each other if they have the same key. -/
theorem Visit.repeats_trans (u v w : Visit) (huv : u.repeats d v)
    (hvw : v.repeats d w) : u.repeats d w := by
  simp only [repeats, Bool.and_eq_true, beq_iff_eq] at huv hvw ⊢
  exact ⟨hvw.1, huv.2.trans hvw.2⟩

/-- A file that is a unit of its own is read at each of its visits. -/
theorem file_mem_fresh : Visit.file f ∈ fresh (Visit.repeats d) before vs ↔ Visit.file f ∈ vs := by
  refine ⟨mem_of_mem_fresh, fun hf => mem_fresh.2 ?_⟩
  obtain ⟨pre, post, hsplit⟩ := append_of_mem hf
  exact ⟨pre, post, hsplit, by simp [Visit.repeats, Visit.key?]⟩

theorem any_repeats_package :
    vs.any (·.repeats d (.package files f)) ↔
      ∃ files' g, .package files' g ∈ vs ∧
        FileKey.of d (Run.directoryOf g.path) = FileKey.of d (Run.directoryOf f.path) := by
  rw [any_eq_true]
  constructor
  · rintro ⟨u, hu, hr⟩
    cases u with
    | file g => simp [Visit.repeats, Visit.key?] at hr
    | package files' g => exact ⟨files', g, hu, by simpa [Visit.repeats, Visit.key?] using hr⟩
    | routes p => simp [Visit.repeats, Visit.key?] at hr
  · rintro ⟨files', g, hg, hkey⟩
    exact ⟨_, hg, by simp [Visit.repeats, Visit.key?, hkey]⟩

theorem any_repeats_routes :
    vs.any (·.repeats d (.routes path)) ↔
      ∃ p, .routes p ∈ vs ∧ FileKey.of d p = FileKey.of d path := by
  rw [any_eq_true]
  constructor
  · rintro ⟨u, hu, hr⟩
    cases u with
    | file g => simp [Visit.repeats, Visit.key?] at hr
    | package files g => simp [Visit.repeats, Visit.key?] at hr
    | routes p => exact ⟨p, hu, by simpa [Visit.repeats, Visit.key?] using hr⟩
  · rintro ⟨p, hp, hkey⟩
    exact ⟨_, hp, by simp [Visit.repeats, Visit.key?, hkey]⟩

end fresh

/-! ## What is visited under a root -/

theorem Visit.ofSource_of_go (hf : f.language = .go) : ofSource files f = .package files f := by
  rw [ofSource, if_pos hf]

theorem Visit.ofSource_of_ne_go (hf : f.language ≠ .go) : ofSource files f = .file f := by
  rw [ofSource, if_neg hf]

theorem routes_not_mem_ofSource : Visit.routes path ∉ fs.map (Visit.ofSource files) := by
  intro h
  obtain ⟨f, _, hf⟩ := mem_map.1 h
  rw [Visit.ofSource] at hf
  split at hf <;> cases hf

theorem file_mem_visitsUnder {job : Job} :
    Visit.file f ∈ visitsUnder job root ↔ f ∈ selected job root ∧ f.language ≠ .go := by
  simp only [visitsUnder, mem_append, mem_map]
  constructor
  · rintro (⟨g, hg, hv⟩ | ⟨p, _, hv⟩)
    · by_cases hgo : g.language = .go
      · rw [Visit.ofSource_of_go hgo] at hv
        cases hv
      · rw [Visit.ofSource_of_ne_go hgo] at hv
        cases hv
        exact ⟨hg, hgo⟩
    · cases hv
  · rintro ⟨hf, hgo⟩
    exact .inl ⟨f, hf, Visit.ofSource_of_ne_go hgo⟩

theorem package_mem_ofSource {files' : List SourceFile} :
    Visit.package files' f ∈ fs.map (Visit.ofSource files) ↔
      files' = files ∧ f ∈ fs ∧ f.language = .go := by
  rw [mem_map]
  constructor
  · rintro ⟨g, hg, hv⟩
    by_cases hgo : g.language = .go
    · rw [Visit.ofSource_of_go hgo] at hv
      cases hv
      exact ⟨rfl, hg, hgo⟩
    · rw [Visit.ofSource_of_ne_go hgo] at hv
      cases hv
  · rintro ⟨rfl, hf, hgo⟩
    exact ⟨f, hf, Visit.ofSource_of_go hgo⟩

theorem package_mem_visitsUnder {job : Job} :
    Visit.package files f ∈ visitsUnder job root ↔
      files = selected job root ∧ f ∈ selected job root ∧ f.language = .go := by
  have hroutes : Visit.package files f ∉ (discovered job root).map .routes := by simp
  rw [visitsUnder, mem_append, or_iff_left hroutes, package_mem_ofSource]

theorem routes_mem_visitsUnder {job : Job} :
    Visit.routes path ∈ visitsUnder job root ↔ path ∈ discovered job root := by
  rw [visitsUnder, mem_append, or_iff_right routes_not_mem_ofSource]
  simp

namespace Run

variable {job : Job} {α : Type} (done : List Visit)

/-! ## One visit -/

/-- A run that comes to a visit. -/
def visit (job : Job) (r : Run) : Visit → Run
  | .file f => r.acceptOr (fileOutline? job.disk f)
  | .package files f => r.readPackage job files f
  | .routes path => r.readRoutes job path

/-- The run that has read what there is to read at the visits `done`. -/
def after (job : Job) (done : List Visit) : Run where
  report := {
    chunks := (done.filterMap (·.outcome job)).flatMap Batch.chunks
    unitsParsed := (done.filterMap (·.outcome job)).countP (·.outline?.isSome)
    unitsFailed := done.countP fun v => (v.outcome job).isNone
    routes := ((done.filterMap (·.outcome job)).flatMap Batch.heldRoutes).length }
  packages := (done.filterMap fun v => (v.key? job.disk).bind VisitKey.package?).reverse
  routeFiles := (done.filterMap fun v => (v.key? job.disk).bind VisitKey.routes?).reverse
  phpOutlines := (done.filterMap (·.outcome job)).filterMap Batch.phpOutline?
  accepted := (done.filterMap (·.outcome job)).length

theorem after_nil : after job [] = {} := rfl

/-- Marks what is read once only as read. -/
def mark (r : Run) : Option VisitKey → Run
  | some (.package key) => { r with packages := key :: r.packages }
  | some (.routes key) => { r with routeFiles := key :: r.routeFiles }
  | none => r

/-- Takes what was read at a visit. -/
def take (r : Run) : Option Batch → Run
  | some (.unit o) => r.accept o
  | some (.routes rs) =>
    { r with
      report := { r.report with
        routes := r.report.routes + rs.length
        chunks := r.report.chunks ++ rs.map Route.toChunk }
      accepted := r.accepted + 1 }
  | none => r.fail

/-- Marking concerns the keys only, and taking all but the keys. -/
theorem take_mark (r : Run) (k : Option VisitKey) (b : Option Batch) :
    (r.mark k).take b =
      { r.take b with
        packages := (k.bind VisitKey.package?).toList ++ r.packages
        routeFiles := (k.bind VisitKey.routes?).toList ++ r.routeFiles } := by
  rcases k with _ | _ | _ <;> rcases b with _ | _ | _ <;> rfl

/-- A run that reads something at one more visit. -/
theorem after_concat (v : Visit) :
    after job (done ++ [v]) = ((after job done).mark (v.key? job.disk)).take (v.outcome job) := by
  rw [take_mark]
  simp only [after, filterMap_append, reverse_append, filterMap_singleton, reverse_toList]
  cases h : v.outcome job with
  | none => simp [take, fail, h]
  | some b => cases b with
    | unit o =>
      by_cases ho : o.language = .php <;>
        simp [take, accept, h, ho, Batch.chunks, Batch.outline?,
          Batch.heldRoutes, Batch.phpOutline?]
    | routes rs =>
      simp [take, h, Batch.chunks, Batch.outline?, Batch.heldRoutes, Batch.phpOutline?]

/-- A visit repeats an earlier one if its key is among the keys of its sort. -/
theorem contains_keys {v : Visit} {make : FileKey → VisitKey} {get : VisitKey → Option FileKey}
    (hget : ∀ k, get k = some key ↔ k = make key) (hv : v.key? d = some (make key))
    (done : List Visit) :
    (done.filterMap fun u => (u.key? d).bind get).reverse.contains key =
      done.any (·.repeats d v) := by
  rw [Bool.eq_iff_iff]
  simp only [contains_iff_mem, mem_reverse, mem_filterMap, Option.bind_eq_some_iff, hget,
    Visit.repeats, hv]
  simp

theorem acceptOr_eq_take (r : Run) (o : Option Outline) : r.acceptOr o = r.take (o.map .unit) := by
  cases o <;> rfl

theorem readRoutes_eq (r : Run) (path : String) :
    r.readRoutes job path =
      if r.routeFiles.contains (.of job.disk path) then r
      else (r.mark (some (.routes (.of job.disk path)))).take
        ((Visit.routesOf? job.disk path).map .routes) := by
  rw [Visit.routesOf?]
  refine ite_congr rfl (fun _ => rfl) fun _ => ?_
  cases job.disk.read path with
  | error fault => rfl
  | ok content =>
    dsimp only
    cases Route.ofFile? path (Source.ofBytes content) <;> rfl

/-- What a visit does to a run: it is skipped if it repeats an earlier one, and read
    otherwise. -/
theorem visit_after (v : Visit) :
    (after job done).visit job v = after job (admitNew (Visit.repeats job.disk) done v) := by
  rw [admitNew, apply_ite (after job), after_concat]
  cases v with
  | file f =>
    -- A file has no key, so that no visit to it repeats another.
    have hfirst : done.any (·.repeats job.disk (.file f)) = false := by
      simp [Visit.repeats, Visit.key?]
    rw [hfirst, visit, acceptOr_eq_take]
    rfl
  | package files f =>
    -- What is marked as read are the keys of the visits done.
    rw [← contains_keys (fun _ => VisitKey.package?_eq_some) rfl]
    exact ite_congr rfl (fun _ => rfl) fun _ => acceptOr_eq_take _ _
  | routes path =>
    rw [← contains_keys (fun _ => VisitKey.routes?_eq_some) rfl, visit, readRoutes_eq]
    rfl

/-! ## All visits -/

/-- What visits do to a run: those that repeat an earlier one are skipped. -/
theorem foldl_visit (vs : List Visit) :
    vs.foldl (visit job) (after job done) =
      after job (vs.foldl (admitNew (Visit.repeats job.disk)) done) := by
  induction vs generalizing done with
  | nil => rfl
  | cons v vs ih => rw [foldl_cons, visit_after, ih, foldl_cons]

theorem visit_ofSource (r : Run) (files : List SourceFile) (f : SourceFile) :
    r.visit job (.ofSource files f) = r.readUnit job files f := by
  by_cases h : f.language = .go <;> simp [Visit.ofSource, readUnit, visit, h]

theorem each_append (step : Run → α → Run) (r : Run) (as bs : List α) :
    each job step r (as ++ bs) = (each job step r as).bind (each job step · bs) := by
  induction as generalizing r with
  | nil => rfl
  | cons a as ih =>
    rw [cons_append, each, each]
    cases r.checkpoint job with
    | error fault => rfl
    | ok r => exact ih _

theorem each_map {β : Type} (step : Run → β → Run) (g : α → β) (r : Run) (as : List α) :
    each job step r (as.map g) = each job (fun r a => step r (g a)) r as := by
  induction as generalizing r with
  | nil => rfl
  | cons a as ih => rw [map_cons, each, each]; simp only [ih]

theorem checkpoint_eq_ok {r' : Run} (h : r.checkpoint job = .ok r') : r' = r := by
  rw [checkpoint] at h
  split at h
  · split at h
    · cases h
    · cases h; rfl
  · cases h; rfl

/-- A run that is not stopped takes all its steps. -/
theorem each_eq_ok {step : Run → α → Run} {r' : Run} {as : List α}
    (h : each job step r as = .ok r') :
    r' = as.foldl step r := by
  induction as generalizing r with
  | nil => cases h; rfl
  | cons a as ih =>
    rw [each] at h
    cases hr : r.checkpoint job with
    | error fault => rw [hr] at h; cases h
    | ok s => rw [hr, checkpoint_eq_ok hr] at h; exact ih h

/-- A run that nobody cancels is not stopped. -/
theorem each_of_uncancelled (hc : job.cancelAfter = none) (step : Run → α → Run) (r : Run)
    (as : List α) : each job step r as = .ok (as.foldl step r) := by
  induction as generalizing r with
  | nil => rfl
  | cons a as ih =>
    have hr : r.checkpoint job = .ok r := by rw [checkpoint, hc]
    rw [each, hr]
    exact ih _

end Run

/-! ## The report of a run -/

variable {job : Job} {roots : List String}

theorem missingRoot?_eq_none : missingRoot? d roots = none ↔ ∀ root ∈ roots, d.exists? root := by
  simp [missingRoot?]

theorem allFiles?_isSome {c : Config} (h : d.exists? root) : (Walk.allFiles? c d root).isSome := by
  rw [Disk.exists?] at h
  rw [Walk.allFiles?]
  split at h
  · next names hr => rcases names with ⟨_, _ | _⟩ <;> simp [hr]
  · cases h

/-- The files under a root that exists can be told. -/
theorem sources?_eq_some (h : job.disk.exists? root) :
    Walk.sources? job.config job.disk root = some (selected job root) := by
  obtain ⟨found, hfound⟩ := Option.isSome_iff_exists.1 (allFiles?_isSome (c := job.config) h)
  simp [selected, Walk.sources?, Walk.files?, hfound]

namespace Run

/-- To index a root is to come to its visits. -/
theorem readRoot_eq (h : job.disk.exists? root) :
    r.readRoot job root = each job (visit job) r (visitsUnder job root) := by
  rw [readRoot, sources?_eq_some h, visitsUnder, each_append, each_map]
  simp only [visit_ofSource]
  -- A run that is stopped among the sources does not come to the routes.
  cases each job (readUnit job (selected job root)) r (selected job root) with
  | error fault => rfl
  | ok r =>
    change (if discovers job.config then each job (readRoutes job) r _ else .ok r) =
      each job (visit job) r ((discovered job root).map .routes)
    rw [each_map, discovered]
    split <;> rfl

theorem readRoots_eq (h : ∀ root ∈ roots, job.disk.exists? root) :
    r.readRoots job roots = each job (visit job) r (roots.flatMap (visitsUnder job)) := by
  induction roots generalizing r with
  | nil => rfl
  | cons root roots ih =>
    rw [flatMap_cons, each_append, ← readRoot_eq (h root mem_cons_self), readRoots]
    cases r.readRoot job root with
    | error fault => rfl
    | ok r => exact ih fun root' hr => h root' (mem_cons_of_mem _ hr)

end Run

/-- To index roots that exist is to come to all visits, and to finish. -/
theorem index_eq_map (h : ∀ root ∈ roots, job.disk.exists? root) :
    index job roots = (Run.each job (Run.visit job) {} (visits job roots)).map Run.finish := by
  rw [index, missingRoot?_eq_none.2 h, visits, Run.each_append, ← Run.readRoots_eq h]
  cases Run.readRoots job {} roots with
  | error fault => rfl
  | ok r =>
    change _ = Except.map Run.finish (Run.each job (Run.visit job) r _)
    have hroutes : Run.each job (Run.visit job) r (job.config.routeFiles.map .routes) =
        Run.each job (Run.readRoutes job) r job.config.routeFiles := Run.each_map ..
    rw [hroutes]
    dsimp only
    cases Run.each job (Run.readRoutes job) r job.config.routeFiles <;> rfl

/-- The state of a run that has come to all its visits. -/
def finalRun (job : Job) (roots : List String) : Run :=
  .after job (readVisits job roots)

theorem foldl_visits : (visits job roots).foldl (Run.visit job) {} = finalRun job roots := by
  rw [← Run.after_nil, Run.foldl_visit, foldl_admitNew Visit.repeats_trans]
  rfl

/-- Whatever run ends with a report, it reports the state after all its visits. -/
theorem index_eq_ok {report : Report} (h : index job roots = .ok report) :
    (∀ root ∈ roots, job.disk.exists? root) ∧ report = (finalRun job roots).finish := by
  have hroots : ∀ root ∈ roots, job.disk.exists? root := by
    -- A root that is missing ends a run before it starts.
    rw [← missingRoot?_eq_none]
    cases hm : missingRoot? job.disk roots with
    | none => rfl
    | some root => rw [index, hm] at h; cases h
  refine ⟨hroots, ?_⟩
  rw [index_eq_map hroots] at h
  cases hr : Run.each job (Run.visit job) {} (visits job roots) with
  | error fault => rw [hr] at h; cases h
  | ok r =>
    rw [hr] at h
    rw [← foldl_visits, ← Run.each_eq_ok hr]
    cases h
    rfl

/-- A run over roots that exist, which nobody cancels, ends with a report. -/
theorem index_of_uncancelled (h : ∀ root ∈ roots, job.disk.exists? root)
    (hc : job.cancelAfter = none) : index job roots = .ok (finalRun job roots).finish := by
  rw [index_eq_map h, Run.each_of_uncancelled hc, foldl_visits]
  rfl

end CodeAtlas
