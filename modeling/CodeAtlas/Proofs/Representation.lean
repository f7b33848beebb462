import CodeAtlas.Proofs.Conservation
import CodeAtlas.Proofs.Disk
import CodeAtlas.Proofs.Go.Function
import CodeAtlas.Proofs.Unit

/-!
# Which Go files a report represents

The Go files of a directory are read together, when a run comes to the first of them,
and with it those that were selected under the same root (`Gathered`). The directory is
not read again. So a file is missing in the report if another file of its directory was
come to before, under a root that does not select it.

* `package_mem_readVisits`: when the files of a directory are read;
* `exists_represents`: the functions of the files that are read have chunks;
* `gathered_of_mem_collected`: no other Go file has any;
* `go_functions_reported`: both, for a whole run.
-/

namespace CodeAtlas

open Grammar List
open Visit (contents members ofSource repeats)

variable {job : Job} {roots : List String} {decl : ParseTree Go.Kind} {files : List SourceFile}
  {f g : SourceFile}

/-- The file is in Go, and no Go file before is in its directory. -/
def Opens (d : Disk) (before : List SourceFile) (f : SourceFile) : Prop :=
  f.language = .go ∧ ∀ g ∈ before, g.language = .go →
    FileKey.of d (Run.directoryOf g.path) ≠ FileKey.of d (Run.directoryOf f.path)

/-- The file is read: it is one of the Go files that are selected under the same root,
    and in the same directory, as the first Go file of a directory that the run comes
    to. -/
def Gathered (job : Job) (roots : List String) (g : SourceFile) : Prop :=
  ∃ earlier root later pre f post, roots = earlier ++ root :: later ∧
    selected job root = pre ++ f :: post ∧
    Opens job.disk (earlier.flatMap (selected job) ++ pre) f ∧
    g ∈ members (selected job root) f

/-- The file at a path is read, as it is written or in another way. -/
def Reached (job : Job) (roots : List String) (path : String) : Prop :=
  ∃ g, Gathered job roots g ∧ FileKey.of job.disk g.path = FileKey.of job.disk path

/-! ## When files are read -/

theorem any_repeats_package_under {earlier : List String} {pre : List SourceFile} :
    (earlier.flatMap (visitsUnder job) ++ pre.map (ofSource files)).any
        (·.repeats job.disk (.package files f)) = false ↔
      ∀ g ∈ earlier.flatMap (selected job) ++ pre, g.language = .go →
        FileKey.of job.disk (Run.directoryOf g.path) ≠
          FileKey.of job.disk (Run.directoryOf f.path) := by
  rw [Bool.eq_false_iff, ne_eq, any_repeats_package]
  simp only [mem_append, mem_flatMap, package_mem_visitsUnder, package_mem_ofSource]
  constructor
  · rintro h g (⟨root, hroot, hg⟩ | hg) hgo hkey
    · exact h ⟨_, g, .inl ⟨root, hroot, rfl, hg, hgo⟩, hkey⟩
    · exact h ⟨_, g, .inr ⟨rfl, hg, hgo⟩, hkey⟩
  · rintro h ⟨files', g, ⟨root, hroot, _, hg, hgo⟩ | ⟨_, hg, hgo⟩, hkey⟩
    · exact h g (.inl ⟨root, hroot, hg⟩) hgo hkey
    · exact h g (.inr hg) hgo hkey

/-- The files of a directory are read when the run comes to the first of them. -/
theorem package_mem_readVisits :
    .package files f ∈ readVisits job roots ↔
      ∃ earlier root later pre post, roots = earlier ++ root :: later ∧
        files = selected job root ∧ selected job root = pre ++ f :: post ∧
        Opens job.disk (earlier.flatMap (selected job) ++ pre) f := by
  have hroutes : ∀ {before : List Visit} {paths : List String},
      .package files f ∉ fresh (repeats job.disk) before (paths.map .routes) := by
    intro before paths hv
    simpa using mem_of_mem_fresh hv
  rw [readVisits, visits, fresh_append, mem_append, or_iff_left hroutes, mem_fresh_flatMap]
  -- Files with routes are no packages, so only the selected files count.
  have hunder : ∀ {before : List Visit} {root : String},
      .package files f ∈ fresh (repeats job.disk) before (visitsUnder job root) ↔
        .package files f ∈ fresh (repeats job.disk) before
          ((selected job root).map (ofSource (selected job root))) := by
    intro before root
    rw [visitsUnder, fresh_append, mem_append, or_iff_left hroutes]
  simp only [hunder, mem_fresh]
  constructor
  · rintro ⟨earlier, root, later, rfl, p, q, hsplit, hfresh⟩
    obtain ⟨pre, rest, hselected, rfl, hrest⟩ := map_eq_append_iff.1 hsplit
    obtain ⟨f', post, rfl, hf, rfl⟩ := map_eq_cons_iff.1 hrest
    have hmem : .package files f ∈ [f'].map (ofSource (selected job root)) := by
      rw [map_singleton, hf]
      exact mem_singleton_self _
    obtain ⟨rfl, hf', hgo⟩ := package_mem_ofSource.1 hmem
    cases mem_singleton.1 hf'
    exact ⟨earlier, root, later, pre, post, rfl, rfl, hselected, hgo,
      any_repeats_package_under.1 hfresh⟩
  · rintro ⟨earlier, root, later, pre, post, rfl, rfl, hselected, hgo, hopens⟩
    refine ⟨earlier, root, later, rfl, pre.map (ofSource (selected job root)),
      post.map (ofSource (selected job root)), ?_, any_repeats_package_under.2 hopens⟩
    rw [← Visit.ofSource_of_go hgo, ← map_cons, ← map_append, ← hselected]

theorem gathered_iff :
    Gathered job roots g ↔
      ∃ files f, .package files f ∈ readVisits job roots ∧ g ∈ members files f := by
  constructor
  · rintro ⟨earlier, root, later, pre, f, post, hroots, hselected, hopens, hg⟩
    exact ⟨_, f, package_mem_readVisits.2 ⟨earlier, root, later, pre, post, hroots, rfl,
      hselected, hopens⟩, hg⟩
  · rintro ⟨files, f, hv, hg⟩
    obtain ⟨earlier, root, later, pre, post, hroots, rfl, hselected, hopens⟩ :=
      package_mem_readVisits.1 hv
    exact ⟨earlier, root, later, pre, f, post, hroots, hselected, hopens, hg⟩

/-! ## Chunks of functions -/

/-- The chunk is that of a function in the source of a Go file. -/
structure Represents (path : String) (source : Source) (decl : ParseTree Go.Kind) (c : Chunk) :
    Prop where
  kind : c.kind = .function
  language : c.language = "go"
  name : ∃ name, decl.part? .name = some name ∧ c.name = name.text source
  filePath : c.filePath = Path.slashed path
  startLine : c.startLine = decl.startLine
  code : c.code = decl.text source

theorem represents_callableChunk {o : Outline} {g : Callable} {path : String} {source : Source}
    {name : ParseTree Go.Kind} (hgo : o.language = .go) (hline : 1 ≤ decl.startLine)
    (hname : decl.part? .name = some name) (hg : g.name = name.text source)
    (hpath : g.filePath = Path.slashed path) (hspan : g.span = decl.spanWithName (some name))
    (hcode : g.code = decl.text source) :
    Represents path source decl (o.callableChunk g .function g.constructs) := by
  have hbare := o.bare_callableChunk g .function g.constructs
  rw [o.baseChunk_eq, hgo, hg, hpath, hspan, hcode] at hbare
  exact {
    kind := congrArg Chunk.kind hbare
    language := congrArg Chunk.language hbare
    name := ⟨name, hname, congrArg Chunk.name hbare⟩
    filePath := congrArg Chunk.filePath hbare
    startLine := (congrArg Chunk.startLine hbare).trans (Nat.max_eq_left hline)
    code := congrArg Chunk.code hbare }

theorem exists_represents (hexported : job.config.exportedOnly = false) (hg : Gathered job roots g)
    {content : Bytes} {tree : ParseTree Go.Kind} (hread : job.disk.read g.path = .ok content)
    (hparse : Go.parse? (Source.ofBytes content) = some tree) (hdecl : decl ∈ tree.parts)
    (hkind : decl.isKind .funcDecl) :
    ∃ c ∈ collected job roots, Represents g.path (Source.ofBytes content) decl c := by
  obtain ⟨files, f, hv, hg⟩ := gathered_iff.1 hg
  have hcontent : (g.path, content) ∈ contents job.disk (members files f) :=
    mem_filterMap.2 ⟨g, hg, by rw [hread]; rfl⟩
  have hfile : (⟨Path.slashed g.path, Source.ofBytes content, tree⟩ : Go.File) ∈
      goFiles (contents job.disk (members files f)) :=
    mem_filterMap.2 ⟨_, hcontent, by simp only [Go.File.ofBytes?, hparse]; rfl⟩
  have houtline : Go.outline? (Run.directoryOf f.path)
      (contents job.disk (members files f)) job.config.exportedOnly =
        some (Go.packageOutline (Run.directoryOf f.path)
          (goFiles (contents job.disk (members files f))) false) := by
    rw [hexported]
    exact Go.outline?_eq_some.2 ⟨ne_nil_of_mem hfile, rfl⟩
  have hunit : .unit _ ∈ batches job roots :=
    mem_filterMap.2 ⟨_, hv, by rw [Visit.outcome, houtline, Option.map_some]⟩
  obtain ⟨name, hname, fn, hfn, hfnName, hpath, hspan, hcode⟩ :=
    Go.exists_function_of_funcDecl parsed_of_mem_goFiles hfile hdecl hkind
  refine ⟨_, mem_flatMap.2 ⟨_, hunit, Outline.callableChunk_mem_chunks hfn⟩, ?_⟩
  exact represents_callableChunk (Go.language_outline? houtline)
    (Go.onLines_of_parse? hparse decl hdecl).first hname hfnName hpath hspan hcode

/-- No other Go file has chunks of functions. -/
theorem gathered_of_mem_collected (hexported : job.config.exportedOnly = false) {c : Chunk}
    (hc : c ∈ collected job roots) (hkind : c.kind = .function) (hgo : c.language = "go") :
    ∃ g, Gathered job roots g ∧ c.filePath = Path.slashed g.path := by
  obtain ⟨b, hb, hc⟩ := mem_flatMap.1 hc
  cases b with
  | routes rs =>
    obtain ⟨r, _, rfl⟩ := mem_map.1 hc
    rw [r.kind_toChunk] at hkind
    cases hkind
  | unit o =>
    -- From the chunk back to the function, its file, and the visit that read the file.
    obtain ⟨fn, hfn, rfl⟩ := Outline.exists_function_of_mem_chunks hc hkind
    have hbare := o.bare_callableChunk fn .function fn.constructs
    rw [o.baseChunk_eq] at hbare
    have hlanguage : o.language = .go := by
      have hword : o.language.word = "go" := (congrArg Chunk.language hbare).symm.trans hgo
      cases h : o.language with
      | go => rfl
      | _ => rw [h] at hword; exact absurd hword (by decide)
    obtain ⟨files, f, hv, houtline⟩ := exists_package_of_mem_batches hb hlanguage
    rw [hexported] at houtline
    obtain ⟨_, rfl⟩ := Go.outline?_eq_some.1 houtline
    obtain ⟨file, hfile, hpath⟩ := Go.filePath_of_mem_functions hfn
    obtain ⟨⟨path, content⟩, hcontent, hbytes⟩ := mem_filterMap.1 hfile
    obtain ⟨g, hg, hread⟩ := mem_filterMap.1 hcontent
    obtain ⟨content', _, heq⟩ := Option.map_eq_some_iff.1 hread
    cases heq
    refine ⟨g, gathered_iff.2 ⟨files, f, hv, hg⟩, ?_⟩
    rw [← (Go.File.parsed_of_ofBytes? hbytes).2.1, ← hpath]
    exact congrArg Chunk.filePath hbare

/-! ## The whole run -/

/-- A run that is not cancelled, over roots that exist, reports the functions at the top
    of a Go file if it reaches the file; and if it does not, all functions in Go that it
    reports are those of other files. -/
theorem go_functions_reported (job : Job) (roots : List String)
    (hroots : ∀ root ∈ roots, job.disk.exists? root = true) (hc : job.cancelAfter = none)
    (hexported : job.config.exportedOnly = false) (path : String) (content : Bytes)
    (tree : ParseTree Go.Kind) (hread : job.disk.read path = .ok content)
    (hparse : Go.parse? (Source.ofBytes content) = some tree) :
    ∃ report, index job roots = .ok report ∧
      (Reached job roots path →
        ∃ path', FileKey.of job.disk path' = FileKey.of job.disk path ∧
          ∀ decl ∈ tree.parts, decl.isKind .funcDecl = true →
            ∃ c ∈ report.chunks, Represents path' (Source.ofBytes content) decl c) ∧
      (¬ Reached job roots path →
        ∀ c ∈ report.chunks, c.kind = .function → c.language = "go" →
          ∃ g, Gathered job roots g ∧ FileKey.of job.disk g.path ≠ FileKey.of job.disk path ∧
            c.filePath = Path.slashed g.path) := by
  refine ⟨_, index_of_uncancelled hroots hc, ?_, ?_⟩
  · rintro ⟨g, hg, hkey⟩
    refine ⟨g.path, hkey, fun decl hdecl hkind => ?_⟩
    obtain ⟨c, hc, hrep⟩ := exists_represents hexported hg (Disk.read_of_key hkey hread) hparse
      hdecl hkind
    have hclass : c.kind ≠ .class := by rw [hrep.kind]; decide
    exact ⟨c, (mem_chunks_finish hclass).2 hc, hrep⟩
  · intro hnot c hc hkind hgo
    have hclass : c.kind ≠ .class := by rw [hkind]; decide
    obtain ⟨g, hg, hpath⟩ :=
      gathered_of_mem_collected hexported ((mem_chunks_finish hclass).1 hc) hkind hgo
    exact ⟨g, hg, fun hkey => hnot ⟨g, hg, hkey⟩, hpath⟩

/-- The second of two files of a package. -/
def secondHalf : Bytes :=
  bytesOf "package svc\n\nfunc B() \x7b\x7d\n"

/-- A tree with a package of two files. -/
def halves : Job where
  config := {}
  disk := {
    root := .directory "svc"
      (.file "a.go" (bytesOf "package svc\n\nfunc A() \x7b\x7d\n") (.file "b.go" secondHalf .empty))
      .empty }

/-- Under one root both files are read. -/
theorem go_functions_reported_halves :
    ∃ report, index halves ["svc"] = .ok report ∧ Reached halves ["svc"] "svc/b.go" ∧
      ∃ c ∈ report.chunks, c.kind = .function ∧ c.name = "B" ∧ c.code = "func B() \x7b\x7d" := by
  have hparse : (Go.parse? (Source.ofBytes secondHalf)).any (·.parts.any fun decl =>
      decl.isKind .funcDecl &&
        ((decl.part? .name).any fun name => name.text (Source.ofBytes secondHalf) == "B") &&
        decl.text (Source.ofBytes secondHalf) == "func B() \x7b\x7d") = true := by
    decide +kernel
  obtain ⟨tree, htree, hparts⟩ := (Option.any_eq_true _ _).1 hparse
  obtain ⟨decl, hdecl, hfunc⟩ := any_eq_true.1 hparts
  simp only [Bool.and_eq_true, beq_iff_eq] at hfunc
  obtain ⟨⟨hkind, hnamed⟩, hcode⟩ := hfunc
  have hreached : Reached halves ["svc"] "svc/b.go" :=
    ⟨⟨"svc/b.go", .go⟩, ⟨[], "svc", [], [], ⟨"svc/a.go", .go⟩, [⟨"svc/b.go", .go⟩], rfl,
      by decide +kernel, ⟨rfl, fun _ h => absurd h not_mem_nil⟩, by decide +kernel⟩, rfl⟩
  obtain ⟨report, hindex, hreports, _⟩ := go_functions_reported halves ["svc"] (by decide) rfl rfl
    "svc/b.go" secondHalf tree rfl htree
  obtain ⟨_, _, hall⟩ := hreports hreached
  obtain ⟨c, hc, hrep⟩ := hall decl hdecl hkind
  obtain ⟨name, hname, hcname⟩ := hrep.name
  rw [hname] at hnamed
  exact ⟨report, hindex, hreached, c, hc, hrep.kind, hcname.trans (eq_of_beq hnamed),
    hrep.code.trans hcode⟩

/-- Once a file of a package is read alone, the other is left out. -/
theorem second_half_missing :
    (∀ root ∈ ["svc/a.go", "svc"], halves.disk.exists? root = true) ∧
      halves.config.exportedOnly = false ∧ ⟨"svc/b.go", .go⟩ ∈ selected halves "svc" ∧
      (Go.parse? (Source.ofBytes secondHalf)).any
        (·.parts.any fun decl => decl.isKind .funcDecl) = true ∧
      ∃ report, index halves ["svc/a.go", "svc"] = .ok report ∧
        (report.chunks.map fun c => (c.filePath, c.name)) = [("svc/a.go", "A")] := by
  refine ⟨by decide, rfl, by decide +kernel, by decide +kernel, _,
    index_of_uncancelled (by decide) rfl, by decide +kernel⟩

end CodeAtlas
