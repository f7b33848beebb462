import CodeAtlas.CommandLine
import CodeAtlas.Proofs.Path
import CodeAtlas.Proofs.WellFormed

/-!
# Chunks as lines

What the program prints of a run is one line for each chunk of its report, in the order of
the report. A chunk is written without a line feed, so that the lines are found again by
cutting at line feeds, and each is read as the chunk that it was written for, if its values
are not nested too deep for the reader (`Json.depthLimit`).

Lines are counted in words. So this is shown of file systems in which the lines of every
file can be counted (`FileTree.countable`): all numbers in chunks are bounded by those.

* `fits_of_mem_collected`: the chunks of all batches, each producer on its own;
* `plain_of_mem_report`: the chunks of a report, with what was entered of models;
* `splitOn_chunkLines`: cutting at line feeds;
* `json_lines_decode`: what is read of what the program prints.
-/

namespace CodeAtlas

open Json List Option Nat

/-! ## Files -/

/-- The lines of the file, or of all files in the directory, can be counted in a word. -/
def FileTree.countable : FileTree → Bool
  | .empty => true
  | .file _ content rest => content.length + 1 < wordLimit && rest.countable
  | .directory _ inner rest => inner.countable && rest.countable

/-- The lines of what stands at a path can be counted in a word. -/
def Entry.countable : Entry → Bool
  | .file content => content.length + 1 < wordLimit
  | .directory inner => inner.countable

namespace FileTree

theorem countable_of_get? {t : FileTree} (ht : t.countable) {name : String} {e : Entry}
    (h : t.get? name = some e) : e.countable := by
  induction t with
  | empty => cases h
  | file n content rest ih =>
    rw [countable, Bool.and_eq_true] at ht
    rw [get?] at h
    split at h
    · cases h
      exact ht.1
    · exact ih ht.2 h
  | directory n inner rest _ ih =>
    rw [countable, Bool.and_eq_true] at ht
    rw [get?] at h
    split at h
    · cases h
      exact ht.1
    · exact ih ht.2 h

theorem countable_of_find? {t : FileTree} (ht : t.countable) {names : List String}
    {e : Entry} (h : t.find? names = some e) : e.countable := by
  induction names generalizing t with
  | nil =>
    cases h
    exact ht
  | cons name names ih =>
    cases names with
    | nil => exact countable_of_get? ht h
    | cons name' names =>
      unfold find? at h
      split at h
      · next inner hinner => exact ih (countable_of_get? ht hinner) h
      · cases h

end FileTree

theorem Disk.length_of_read {d : Disk} (hd : d.root.countable) {path : String}
    {content : Bytes} (h : d.read path = .ok content) : content.length + 1 < wordLimit := by
  rw [read] at h
  split at h
  · cases h
  · cases h
  · next names content' hresolve =>
    cases h
    have hfile := FileTree.countable_of_find? hd (find?_of_resolve hresolve)
    exact of_decide_eq_true hfile

/-! ## Reports -/

variable {job : Job} {roots : List String}

/-- What is collected has the numbers of the files that it was read from. -/
theorem fits_of_mem_collected
    (hd : ∀ path content, job.disk.read path = .ok content → content.length + 1 < wordLimit)
    {c : Chunk} (hc : c ∈ collected job roots) : c.Fits := by
  obtain ⟨b, hb, hc⟩ := mem_flatMap.1 hc
  cases b with
  | unit o =>
    rcases unit_mem_batches hb with ⟨f, hf⟩ | ⟨files, f, _, hpackage⟩
    · have hplaced := Run.placed_of_fileOutline? (P := fun _ k => k < wordLimit) hf
        fun content hread k hk => lt_of_le_of_lt hk (hd _ _ hread)
      exact hplaced.fits (fun _ _ hk => hk) hc
    · obtain ⟨_, ho⟩ := Go.outline?_eq_some.1 hpackage
      refine Outline.fits_of_mem_chunks (fun t ht f hf => ?_) ?_ hc
      · refine lt_of_le_pred (by decide) (Go.line_of_outline? (fun x hx => ?_) hpackage t ht f hf)
        obtain ⟨g, _, hread, _⟩ := Visit.exists_of_mem_contents hx
        exact le_pred_of_lt (lt_of_le_of_lt (succ_le_succ (Source.length_ofBytes_le _))
          (hd _ _ hread))
      · rw [ho, (Go.isGo_packageOutline ..).sections]
        simp
  | routes rs =>
    obtain ⟨r, _, rfl⟩ := mem_map.1 hc
    exact r.tidy_toChunk fun _ _ _ h => h

/-- A chunk that is well placed has no number above its last line. -/
theorem Chunk.Fits.plain {P : String → Prop} {c : Chunk} (h : c.Fits) (hplace : c.WellPlaced P)
    (hend : c.endLine < wordLimit) : c.Plain := by
  -- Both ends of the selection are given, or none.
  have hselection : ∀ start ∈ c.selectionStart, ∃ stop ∈ c.selectionEnd,
      start ≤ stop ∧ stop ≤ c.endLine := by
    intro start hstart
    obtain ⟨stop, hstop⟩ := isSome_iff_exists.1
      (hplace.both ▸ isSome_of_eq_some hstart)
    exact ⟨stop, hstop, (hplace.selection start hstart stop hstop).2⟩
  constructor
  case startLine => exact lt_of_le_of_lt hplace.last hend
  case endLine => exact hend
  case selectionStart =>
    intro start hstart
    obtain ⟨stop, _, hle, hlast⟩ := hselection start hstart
    omega
  case selectionEnd =>
    intro stop hstop
    obtain ⟨start, hstart⟩ := isSome_iff_exists.1
      (hplace.both.symm ▸ isSome_of_eq_some hstop)
    obtain ⟨stop', hstop', _, hlast⟩ := hselection start hstart
    cases hstop.symm.trans hstop'
    omega
  case metadata => exact Tidy.plain h

/-- The chunks of a report are plain. -/
theorem plain_of_mem_report (hdisk : job.disk.root.countable) {report : Report}
    (h : index job roots = .ok report) : ∀ c ∈ report.chunks, c.Plain := by
  obtain ⟨_, rfl⟩ := index_eq_ok h
  have hd : ∀ path content, job.disk.read path = .ok content → content.length + 1 < wordLimit :=
    fun _ _ hread => Disk.length_of_read hdisk hread
  have hall : ∀ c ∈ (ClassGraph.ofOutlines (finalRun job roots).phpOutlines).models.foldl
      Run.enter (collected job roots), c.Stands (fun _ k => k < wordLimit) ∧ c.Fits := by
    refine Run.forall_mem_foldl_enter (fun m hm c hc => ?_) fun c hc =>
      ⟨stands_of_mem_collected (fun _ _ hread k hk => lt_of_le_of_lt hk (hd _ _ hread)) hc,
        fits_of_mem_collected hd hc⟩
    obtain ⟨e, _, rfl⟩ := mem_map.1 hm
    exact ⟨(hc.1.setMeta _ _).setMeta _ _, Model.fits_addTo (Model.mapsSorted_of _ _) hc.2⟩
  intro c hc
  obtain ⟨hstands, hfits⟩ := hall c (mem_mergeSort.1 hc)
  exact hfits.plain hstands hstands.file

/-! ## Lines -/

/-- Lines without line feeds are found again, with nothing behind the last line feed. -/
theorem Text.splitOn_flatMap_newline {lines : List (List Char)} (h : ∀ l ∈ lines, '\n' ∉ l) :
    splitOn (· == '\n') (lines.flatMap (· ++ ['\n'])) = lines ++ [[]] := by
  induction lines with
  | nil => rfl
  | cons l lines ih =>
    obtain ⟨hl, hlines⟩ := forall_mem_cons.1 h
    have hline : ∀ c ∈ l, (c == '\n') = false := by
      intro c hc
      rw [beq_eq_false_iff_ne]
      rintro rfl
      exact hl hc
    rw [flatMap_cons, append_assoc, singleton_append, splitOn_append (by rfl),
      ih hlines, splitOn, splitFrom_of_forall hline]
    rfl

namespace CommandLine

theorem toList_chunkLines (chunks : List Chunk) :
    (chunkLines false chunks).toList =
      (chunks.map fun c => c.toJson.compress.toList).flatMap (· ++ ['\n']) := by
  simp [chunkLines, flatMap_map]

theorem splitOn_chunkLines {chunks : List Chunk} (h : ∀ c ∈ chunks, c.Plain) :
    Text.splitOn (· == '\n') (chunkLines false chunks).toList =
      (chunks.map fun c => c.toJson.compress.toList) ++ [[]] := by
  rw [toList_chunkLines]
  exact Text.splitOn_flatMap_newline (forall_mem_map.2 fun c hc => (h c hc).newline_not_mem)

/-- A run that indexes and does not fail prints the chunks of a report. -/
theorem exists_report {d : Disk} {o : Options} (h : (indexAll d o).exitCode = 0) :
    ∃ config report, Config.load d (o.config.getD "") = .ok config ∧
      index { config := adjust o config, disk := d } o.roots = .ok report ∧
      (indexAll d o).stdout = chunkLines o.pretty report.chunks := by
  revert h
  unfold indexAll
  rcases Config.load d (o.config.getD "") with fault | config
  · rintro ⟨⟩
  · dsimp only
    rcases (adjust o config).fault? with _ | fault
    · rcases hindex : index { config := adjust o config, disk := d } o.roots with fault | report
      · rintro ⟨⟩
      · exact fun _ => ⟨config, report, rfl, hindex, rfl⟩
    · rintro ⟨⟩

/-- A chunk is written on one line, and read from it if it is not nested too deep for the
    reader. A run that indexes and succeeds prints the chunks of its report, each on its own
    line and in the order of the report, and nothing else. -/
theorem json_lines_decode :
    (∀ c : Chunk, c.Plain → '\n' ∉ c.toJson.compress.toList ∧
      (Json.read? c.toJson.compress).bind Chunk.ofJson? =
        if c.toJson.depth < Json.depthLimit then some c else none) ∧
    ∀ (d : Disk) (args : List String) (o : Options), d.root.countable = true →
      Options.read args = .ok o → o.initConfig = false → o.pretty = false →
      (run d args).exitCode = 0 →
      ∃ config report, Config.load d (o.config.getD "") = .ok config ∧
        index { config := adjust o config, disk := d } o.roots = .ok report ∧
        Text.splitOn (· == '\n') (run d args).stdout.toList =
          (report.chunks.map fun c => c.toJson.compress.toList) ++ [[]] ∧
        ∀ c ∈ report.chunks, (Json.read? c.toJson.compress).bind Chunk.ofJson? =
          if c.toJson.depth < Json.depthLimit then some c else none := by
  refine ⟨fun c hc => ⟨hc.newline_not_mem, hc.read_compress⟩, ?_⟩
  intro d args o hdisk hread hinit hpretty hexit
  have hrun : run d args = indexAll d o := by
    rw [run, hread]
    dsimp only
    rw [if_neg (Bool.eq_false_iff.1 hinit)]
  rw [hrun] at hexit ⊢
  obtain ⟨config, report, hload, hindex, hstdout⟩ := exists_report hexit
  have hplain : ∀ c ∈ report.chunks, c.Plain := plain_of_mem_report hdisk hindex
  refine ⟨config, report, hload, hindex, ?_, fun c hc => (hplain c hc).read_compress⟩
  rw [hstdout, hpretty]
  exact splitOn_chunkLines hplain

/-- A chunk with characters that are escaped, and with values within values. -/
def escaped : Chunk :=
  { Chunk.new .function "f" "go" "a \"b\".go" 3 7 with
    parent := some "T"
    docstring := "two\nlines\twith \\ and \u0001"
    code := "π\r\n"
    metadata := [("a", .arr [.negative 1, .null, .obj [("", .bool false)]]), ("b", .str "\n")] }

theorem plain_escaped : escaped.Plain := by
  have hinner : (Json.obj [("", .bool false)]).Plain :=
    (Under.given "" (.bool false)).object (by decide)
  have hitems : (Json.arr [.negative 1, .null, .obj [("", .bool false)]]).Plain := by
    refine .arr (forall_mem_cons.2 ⟨.negative (by decide) (by decide), ?_⟩)
    exact forall_mem_cons.2 ⟨.null, forall_mem_singleton.2 hinner⟩
  refine ⟨by decide, by decide, by rintro _ ⟨⟩, by rintro _ ⟨⟩, ?_⟩
  exact ((Under.given "a" hitems).append (.given "b" (.str "\n"))).object (by decide)

/-- A file system with a document, and a function that is documented on two lines. -/
def notes : Disk where
  root := .directory "m"
    (.file "a.md" (bytesOf "# One\n\ntext\n") (.file "b.py"
      (bytesOf "def f():\n    \"\"\"Says \\\"hi\\\"\n    twice.\"\"\"\n    return 1\n")
      .empty)) .empty

/-- The run over its directory. -/
def notesRun : Run :=
  finalRun { config := adjust { roots := ["m"] } {}, disk := notes } ["m"]

/-- Both symbols of the file system are read from what is printed of them. -/
theorem json_lines_decode_notes :
    (Json.read? escaped.toJson.compress).bind Chunk.ofJson? = some escaped ∧
    ∃ report : Report, report.chunks.length = 2 ∧
      Text.splitOn (· == '\n') (run notes ["m"]).stdout.toList =
        (report.chunks.map fun c => c.toJson.compress.toList) ++ [[]] ∧
      ∀ c ∈ report.chunks, (Json.read? c.toJson.compress).bind Chunk.ofJson? = some c := by
  refine ⟨(json_lines_decode.1 escaped plain_escaped).2, ?_⟩
  obtain ⟨config, report, hload, hindex, hlines, hread⟩ :=
    json_lines_decode.2 notes ["m"] { roots := ["m"] } (by decide) rfl rfl rfl (by decide +kernel)
  have hdefault : Config.load notes "" = .ok {} := rfl
  cases hdefault.symm.trans hload
  obtain ⟨_, rfl⟩ := index_eq_ok hindex
  -- Sorting is set aside: it moves chunks, and changes none.
  have hdepths : ((ClassGraph.ofOutlines notesRun.phpOutlines).models.foldl Run.enter
      notesRun.report.chunks).map (fun c => c.toJson.depth) = [3, 1] := by
    decide +kernel
  have hshallow : ∀ k ∈ [3, 1], k < depthLimit := by decide
  refine ⟨notesRun.finish, ?_, hlines, fun c hc => (hread c hc).trans (if_pos ?_)⟩
  · exact (length_mergeSort _).trans (by simpa using congrArg List.length hdepths)
  · exact hshallow _ (hdepths ▸ mem_map_of_mem (mem_mergeSort.1 hc))

/-! ## Values that are nested too deep -/

/-- An empty array in so many arrays. -/
def nested : Nat → Json
  | 0 => .arr []
  | n + 1 => .arr [nested n]

theorem plain_nested (n : Nat) : (nested n).Plain := by
  induction n with
  | zero => exact .arr (by simp)
  | succ n ih => exact .arr (forall_mem_singleton.2 ih)

/-- A property whose default is 126 arrays, one in the other. -/
def deep : Chunk :=
  { Chunk.new .property "p" "php" "a.php" 1 1 with metadata := [("default", nested 125)] }

/-- With the metadata and the chunk around them, the arrays are too many to be read. -/
theorem deep_chunk_not_read :
    deep.Plain ∧ (Json.read? deep.toJson.compress).bind Chunk.ofJson? = none := by
  have hplain : deep.Plain :=
    ⟨by decide, by decide, by rintro _ ⟨⟩, by rintro _ ⟨⟩,
      (Under.given "default" (plain_nested 125)).object (by decide)⟩
  have hdepth : deep.toJson.depth = 128 := by decide +kernel
  refine ⟨hplain, hplain.read_compress.trans (if_neg ?_)⟩
  rw [hdepth]
  decide

end CommandLine

end CodeAtlas
