import CodeAtlas.Chunking
import CodeAtlas.Fault
import CodeAtlas.Go.Package
import CodeAtlas.Markdown.Document
import CodeAtlas.Php.Declaration
import CodeAtlas.Php.Model
import CodeAtlas.Php.Route
import CodeAtlas.Python.Module
import CodeAtlas.Walk

/-!
# Indexing

A run over some roots, in their order. A unit is a file, or the Go files of a directory
under a root; it is turned into chunks, or counted as failed. Then come the files with
routes, each once in a run, and at the end the chunks of models are told what is known
about them. The report lists all chunks by file and line (`index`).

A run may be cancelled. It stops before the next file and hands over the chunks made
until then (`Fault.cancelled`).
-/

namespace CodeAtlas

/-- What a run found. -/
structure Report where
  chunks : List Chunk := []
  unitsParsed : Nat := 0
  unitsFailed : Nat := 0
  routes : Nat := 0

/-- What tells files apart in a run: the names that lead to it, or its path as written
    if there is no such file. -/
inductive FileKey where
  | place (names : List String)
  | spelling (isAbsolute : Bool) (parts : List String)
  deriving DecidableEq, Repr

/-- The key of a path. -/
def FileKey.of (d : Disk) (path : String) : FileKey :=
  match d.resolve path with
  | .ok (names, _) => .place names
  | .error _ => .spelling (Path.isAbsolute path) (Path.parts path)

/-- What a run goes by. -/
structure Job where
  config : Config
  disk : Disk
  /-- After how many accepted units and files with routes the run is cancelled. -/
  cancelAfter : Option Nat := none

/-- How far a run has come. -/
structure Run where
  report : Report := {}
  /-- The packages that were read. -/
  packages : List FileKey := []
  /-- The files that were read for routes. -/
  routeFiles : List FileKey := []
  /-- The outlines of PHP files. -/
  phpOutlines : List Outline := []
  /-- How many units and files with routes were accepted. -/
  accepted : Nat := 0

/-- A chunk comes before another, or at the same place: by file, then by line. -/
def Chunk.atOrBefore (a b : Chunk) : Bool :=
  a.filePath < b.filePath || (a.filePath == b.filePath && a.startLine ≤ b.startLine)

/-- The chunks by file and line; those of one line stay in their order. -/
def sortChunks (chunks : List Chunk) : List Chunk :=
  chunks.mergeSort Chunk.atOrBefore

namespace Run

/-- Stops the run if it was cancelled. -/
def checkpoint (job : Job) (r : Run) : Except Fault Run :=
  match job.cancelAfter with
  | some limit =>
    if limit ≤ r.accepted then .error (.cancelled (sortChunks r.report.chunks)) else .ok r
  | none => .ok r

/-- Counts a unit as failed. -/
def fail (r : Run) : Run :=
  { r with report := { r.report with unitsFailed := r.report.unitsFailed + 1 } }

/-- Takes the chunks of a unit. -/
def accept (r : Run) (o : Outline) : Run :=
  { r with
    report := { r.report with
      unitsParsed := r.report.unitsParsed + 1
      chunks := r.report.chunks ++ o.chunks }
    phpOutlines := if o.language = .php then r.phpOutlines ++ [o] else r.phpOutlines
    accepted := r.accepted + 1 }

/-- Takes the unit, or counts it as failed. -/
def acceptOr (r : Run) : Option Outline → Run
  | some o => r.accept o
  | none => r.fail

/-- The outline of a file that is a unit of its own. -/
def fileOutline? (d : Disk) (f : SourceFile) : Option Outline :=
  match d.read f.path with
  | .error _ => none
  | .ok content =>
    match f.language with
    | .php => Php.outline? f.path (Source.ofBytes content)
    | .python => some (Python.outline f.path (Text.decodeLossy content))
    | .markdown => (Text.decode? content).map (Markdown.outline f.path)
    | .go => none

/-- The directory of a file. -/
def directoryOf (path : String) : String :=
  (Path.parent? path).getD "."

/-- Reads the package of a Go file, unless it was read before: all Go files of its
    directory among `files`. -/
def readPackage (job : Job) (files : List SourceFile) (r : Run) (f : SourceFile) : Run :=
  let directory := directoryOf f.path
  let key := FileKey.of job.disk directory
  if r.packages.contains key then r
  else
    let members := files.filter fun g =>
      g.language = .go ∧ Path.parts (directoryOf g.path) = Path.parts directory
    let contents := members.filterMap fun g =>
      (job.disk.read g.path).toOption.map fun content => (g.path, content)
    acceptOr { r with packages := key :: r.packages }
      (Go.outline? directory contents job.config.exportedOnly)

/-- Reads the unit of a file. -/
def readUnit (job : Job) (files : List SourceFile) (r : Run) (f : SourceFile) : Run :=
  if f.language = .go then r.readPackage job files f else r.acceptOr (fileOutline? job.disk f)

/-- Reads a file with routes, unless it was read before. -/
def readRoutes (job : Job) (r : Run) (path : String) : Run :=
  let key := FileKey.of job.disk path
  if r.routeFiles.contains key then r
  else
    let r := { r with routeFiles := key :: r.routeFiles }
    let routes? := match job.disk.read path with
      | .ok content => Route.ofFile? path (Source.ofBytes content)
      | .error _ => none
    match routes? with
    | none => r.fail
    | some routes =>
      { r with
        report := { r.report with
          routes := r.report.routes + routes.length
          chunks := r.report.chunks ++ routes.map Route.toChunk }
        accepted := r.accepted + 1 }

/-- Goes on with each item in turn, unless the run is cancelled. -/
def each {α : Type} (job : Job) (step : Run → α → Run) : Run → List α → Except Fault Run
  | r, [] => .ok r
  | r, a :: rest =>
    match r.checkpoint job with
    | .error fault => .error fault
    | .ok r => each job step (step r a) rest

/-- Files with routes are looked for under the roots. -/
def discovers (c : Config) : Bool :=
  c.discoverRoutes && c.routeFiles.isEmpty && c.isEnabled .php

/-- Indexes a root. -/
def readRoot (job : Job) (r : Run) (root : String) : Except Fault Run :=
  match Walk.sources? job.config job.disk root with
  | none => .error (.rootMissing root)
  | some files =>
    match each job (readUnit job files) r files with
    | .error fault => .error fault
    | .ok r =>
      if discovers job.config then
        each job (readRoutes job) r ((Walk.routeFiles? job.config job.disk root).getD [])
      else .ok r

/-- Indexes roots in their order. -/
def readRoots (job : Job) : Run → List String → Except Fault Run
  | r, [] => .ok r
  | r, root :: rest =>
    match r.readRoot job root with
    | .error fault => .error fault
    | .ok r => readRoots job r rest

/-- Changes the last item that satisfies `p`. -/
def updateLast {α : Type} (p : α → Bool) (f : α → α) (items : List α) : List α :=
  let (after, rest) := items.reverse.span (!p ·)
  match rest with
  | [] => items
  | found :: before => before.reverse ++ f found :: after.reverse

/-- Enters a model into the chunk of its class. -/
def enter (chunks : List Chunk) (m : Model) : List Chunk :=
  updateLast (fun c => c.kind = .class ∧ m.describes c) m.addTo chunks

/-- The report of a run at its end. -/
def finish (r : Run) : Report :=
  let models := (ClassGraph.ofOutlines r.phpOutlines).models
  { r.report with chunks := sortChunks (models.foldl enter r.report.chunks) }

end Run

/-- The first root that does not exist. -/
def missingRoot? (d : Disk) (roots : List String) : Option String :=
  roots.find? (!d.exists? ·)

/-- Indexes all roots. -/
def index (job : Job) (roots : List String) : Except Fault Report :=
  match missingRoot? job.disk roots with
  | some root => .error (.rootMissing root)
  | none =>
    match Run.readRoots job {} roots with
    | .error fault => .error fault
    | .ok r =>
      match Run.each job (Run.readRoutes job) r job.config.routeFiles with
      | .error fault => .error fault
      | .ok r => .ok r.finish

end CodeAtlas
