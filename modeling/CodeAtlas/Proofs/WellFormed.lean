import CodeAtlas.Proofs.Cancellation
import CodeAtlas.Proofs.Disk
import CodeAtlas.Proofs.Go.Placement
import CodeAtlas.Proofs.Markdown.Placement
import CodeAtlas.Proofs.Php.Placement
import CodeAtlas.Proofs.Python.Placement
import CodeAtlas.Proofs.Unit

/-!
# Well-formed chunks

Every chunk that a run hands out, be it in a report or when the run is cancelled, names a
file, stands on lines counted from one, has its selection within them, and says something
under every key of its metadata (`Chunk.WellFormed`). Each producer of chunks is taken on
its own: packages of Go, files of PHP, Python and Markdown, and routes. What a report adds
of models goes through the metadata only.

* `stands_of_mem_collected`: where the chunks of all batches stand;
* `wellFormed_of_mem_collected`: the chunks of all batches;
* `WellFormed.addTo`: entering models;
* `chunks_are_well_formed`: all that a run hands out.
-/

namespace CodeAtlas

open List

/-! ## Batches -/

theorem Path.slashed_ne_empty {path : String} (h : path ≠ "") : slashed path ≠ "" := by
  intro hempty
  have hlist := congrArg String.toList hempty
  rw [slashed, String.toList_ofList] at hlist
  exact h (String.toList_eq_nil_iff.1 (map_eq_nil_iff.1 hlist))

/-- The lines of the file at a path, if it can be read, may be those of symbols. -/
def Disk.Admits (d : Disk) (P : String → Nat → Prop) (path : String) : Prop :=
  ∀ content, d.read path = .ok content → ∀ k ≤ content.length + 1, P (Path.slashed path) k

variable {job : Job} {roots : List String} {P : String → Nat → Prop} {d : Disk} {o : Outline}
  {files : List SourceFile} {directory : String} {exportedOnly : Bool} {c : Chunk}

/-- The symbols of a file that is a unit of its own. -/
theorem Run.placed_of_fileOutline? {f : SourceFile} (h : fileOutline? d f = some o)
    (hpath : d.Admits P f.path) : o.Placed P := by
  rw [fileOutline?] at h
  split at h
  · cases h
  · next content hread =>
    have hlines : ∀ {n}, n ≤ content.length → ∀ k ≤ n + 1, P (Path.slashed f.path) k :=
      fun hn k hk => hpath content hread k (Nat.le_trans hk (Nat.succ_le_succ hn))
    split at h
    · exact Php.placed_of_outline? (hlines (Source.length_ofBytes_le content)) h
    · cases h
      exact Python.placed_outline (hlines (Text.length_decodeLossyFrom_le 0 content))
    · obtain ⟨text, htext, rfl⟩ := Option.map_eq_some_iff.1 h
      exact Markdown.placed_outline (hlines (Text.length_of_decodeFrom? htext))
    · cases h

/-- Only files that can be read take part in a package. -/
theorem Visit.exists_of_mem_contents {x : String × Bytes} (hx : x ∈ contents d files) :
    ∃ g ∈ files, d.read g.path = .ok x.2 ∧ g.path = x.1 := by
  obtain ⟨g, hg, hcontents⟩ := mem_filterMap.1 hx
  obtain ⟨content, hcontent, rfl⟩ := Option.map_eq_some_iff.1 hcontents
  cases hread : d.read g.path with
  | error fault =>
    rw [hread] at hcontent
    cases hcontent
  | ok content' =>
    rw [hread] at hcontent
    cases hcontent
    exact ⟨g, hg, hread, rfl⟩

/-- The chunks of a package. -/
theorem stands_of_package
    (h : Go.outline? directory (Visit.contents d files) exportedOnly = some o)
    (hpaths : ∀ g ∈ files, d.Admits P g.path) (hc : c ∈ o.chunks) : c.Stands P := by
  refine Go.stands_of_outline? (fun x hx k hk => ?_) h hc
  obtain ⟨g, hg, hread, heq⟩ := Visit.exists_of_mem_contents hx
  rw [← heq]
  exact hpaths g hg _ hread k
    (Nat.le_trans hk (Nat.succ_le_succ (Source.length_ofBytes_le _)))

/-- The chunks of routes. -/
theorem stands_of_routesOf? {path : String} {rs : List Route}
    (h : Visit.routesOf? d path = some rs) (hpath : d.Admits P path) {r : Route} (hr : r ∈ rs) :
    r.toChunk.Stands P := by
  rw [Visit.routesOf?] at h
  split at h
  · next content hread =>
    have hplace := Route.standsAt_of_ofFile? h r hr
    have hlast : max r.endLine r.line ≤ content.length + 1 :=
      Nat.le_trans (Nat.max_le.2 ⟨hplace.endLine_le, hplace.line_le⟩)
        (Nat.succ_le_succ (Source.length_ofBytes_le _))
    exact Route.stands_toChunk (hplace.file ▸ hpath content hread _ hlast) hplace.first
  · cases h

/-- What is collected stands where it was read. -/
theorem stands_of_mem_collected (hdisk : ∀ path, job.disk.Admits P path)
    (hc : c ∈ collected job roots) : c.Stands P := by
  obtain ⟨b, hb, hc⟩ := mem_flatMap.1 hc
  cases b with
  | unit o =>
    rcases unit_mem_batches hb with ⟨f, hf⟩ | ⟨files, f, _, hpackage⟩
    · exact (Run.placed_of_fileOutline? hf (hdisk _)).stands hc
    · exact stands_of_package hpackage (fun _ _ => hdisk _) hc
  | routes rs =>
    obtain ⟨r, hr, rfl⟩ := mem_map.1 hc
    obtain ⟨path, hpath⟩ := routes_mem_batches hb
    exact stands_of_routesOf? hpath (hdisk _) hr

/-! ## Metadata -/

/-- The chunk is well placed, and no value in its metadata is without information. -/
structure Chunk.WellFormed (c : Chunk) : Prop extends c.WellPlaced (· ≠ "") where
  metadata : ∀ m ∈ c.metadata, m.2 ≠ .null ∧ m.2 ≠ .str "" ∧ m.2 ≠ .arr [] ∧ m.2 ≠ .obj []

theorem Json.says_of_isBare {j : Json} (h : j.isBare = false) :
    j ≠ .null ∧ j ≠ .str "" ∧ j ≠ .arr [] ∧ j ≠ .obj [] := by
  refine ⟨?_, ?_, ?_, ?_⟩ <;> rintro rfl <;> cases h

theorem wellFormed_of_mem_collected (hc : c ∈ collected job roots) : c.WellFormed :=
  ⟨stands_of_mem_collected (P := fun file _ => file ≠ "") (fun _ _ hread _ _ =>
    Path.slashed_ne_empty (Disk.ne_empty_of_read hread)) hc, fun m hm =>
      Json.says_of_isBare ((tidy_of_mem_collected hc).full m hm)⟩

namespace Chunk.WellFormed

theorem setMeta (h : c.WellFormed) (key : String) (value : Json) :
    (c.setMeta key value).WellFormed := by
  refine ⟨Stands.setMeta (P := fun file _ => file ≠ "") h.toWellPlaced key value, fun m hm => ?_⟩
  rw [Chunk.setMeta] at hm
  split at hm
  · exact h.metadata m hm
  · next hvalue =>
    rcases Json.mem_insertKey hm with rfl | hm
    · exact Json.says_of_isBare (Bool.eq_false_iff.2 hvalue)
    · exact h.metadata m hm

theorem addTo (h : c.WellFormed) (m : Model) : (m.addTo c).WellFormed :=
  (h.setMeta _ _).setMeta _ _

end Chunk.WellFormed

/-! ## All that a run hands out -/

/-- The chunks that a run hands out: those of its report, or those made until it was
    cancelled. -/
def handedOut : Except Fault Report → List Chunk
  | .ok report => report.chunks
  | .error (.cancelled chunks) => chunks
  | .error _ => []

/-- Every chunk that a run hands out names a file, stands on lines counted from one with its
    selection within them, and says something under each key of its metadata. -/
theorem chunks_are_well_formed (job : Job) (roots : List String) :
    ∀ c ∈ handedOut (index job roots), c.WellFormed := by
  have hcollected : ∀ c ∈ collected job roots, c.WellFormed := fun c hc =>
    wellFormed_of_mem_collected hc
  intro c hc
  rcases index_cases job roots with ⟨root, _, h⟩ | ⟨_, ⟨k, _, _, h⟩ | h⟩
  · rw [h] at hc
    cases hc
  · rw [h] at hc
    -- The chunks of the first batches are among those of all.
    obtain ⟨b, hb, hc⟩ := mem_flatMap.1 (mem_mergeSort.1 hc)
    exact hcollected c (mem_flatMap.2 ⟨b, mem_of_mem_take hb, hc⟩)
  · rw [h] at hc
    -- A model is entered into a chunk that was there before.
    exact Run.forall_mem_foldl_enter (fun m _ _ hc => hc.addTo m) hcollected c (mem_mergeSort.1 hc)

/-- A class with a property that two accessors make. -/
def vault : Job where
  config := {}
  disk := {
    root := .directory "m"
      (.file "vault.py" (bytesOf ("class Vault:\n    @property\n    def size(self) -> int:\n" ++
        "        return 1\n\n    @size.setter\n    def size(self, n):\n        pass\n"))
        .empty) .empty }

set_option maxRecDepth 100000 in
/-- The property stands on the lines of both accessors, with the decorators, and its
    selection is the line of the first name. -/
theorem chunks_are_well_formed_vault :
    ∃ c ∈ handedOut (index vault ["m"]), c.kind = .property ∧ c.startLine = 2 ∧
      c.endLine = 8 ∧ c.selectionStart = some 3 ∧ c.metadata.length = 3 ∧ c.WellFormed := by
  have hindex : index vault ["m"] = .ok (finalRun vault ["m"]).finish :=
    index_of_uncancelled (by decide) rfl
  -- Sorting is set aside: it moves chunks, and changes none.
  have hproperty : ((ClassGraph.ofOutlines (finalRun vault ["m"]).phpOutlines).models.foldl
      Run.enter (collected vault ["m"])).any (fun c => c.kind = .property ∧ c.startLine = 2 ∧
        c.endLine = 8 ∧ c.selectionStart = some 3 ∧ c.metadata.length = 3) = true := by
    decide +kernel
  obtain ⟨c, hc, hplace⟩ := any_eq_true.1 hproperty
  have hmem : c ∈ handedOut (index vault ["m"]) := by
    rw [hindex]
    exact mem_mergeSort.2 hc
  obtain ⟨hkind, hstart, hend, hselection, hmetadata⟩ := of_decide_eq_true hplace
  exact ⟨c, hmem, hkind, hstart, hend, hselection, hmetadata,
    chunks_are_well_formed vault ["m"] c hmem⟩

end CodeAtlas
