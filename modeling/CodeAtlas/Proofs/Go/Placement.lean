import CodeAtlas.Proofs.Go.Agreement
import CodeAtlas.Proofs.Placement

/-!
# Where the symbols of Go packages stand

What is shown for a declaration is a node around its name, be it all of the declaration or one of
several specifications in it. What an outline lists has the places of such sites, in the
files of the package. Its documentation stands in one of them, too, and fields stand in the
declaration of their type.

* `docPlaced_ofFiles`: the file with the documentation of a package;
* `stands_of_outline?`: the chunks of a package;
* `line_of_outline?`: the fields of its types.
-/

namespace CodeAtlas.Go

open Grammar PackageDoc List Option

variable {P : String → Nat → Prop} {source : Source} {files : List File} {n : Nat} {p : PackageDoc}
  {o : Outline}

/-- The files are parsed, and their lines may be those of symbols. -/
def FilesHave (P : String → Nat → Prop) (files : List File) : Prop :=
  ∀ f ∈ files, f.Parsed ∧ ∀ k ≤ f.source.length + 1, P f.path k

/-- A site stands in its file. -/
theorem standsIn_of_mem_declared (hfiles : FilesHave P files) {x : Declared}
    (hx : x ∈ declared files) : StandsIn P x.file.path x.place.span := by
  obtain ⟨hfile, s, hs, hsite⟩ := mem_declared.1 hx
  obtain ⟨hparsed, hpath⟩ := hfiles _ (mem_of_getElem? hfile)
  have hlines := onLines_of_parse? hparsed s.tree (Sited.tree_mem_parts hs)
  have hwhole := hlines.of_holds (Site.holds_whole hsite).1
  rw [Declared.place, Site.place]
  cases hname : x.site.name? with
  | none => exact hwhole.standsIn_span hpath
  | some name =>
    exact hwhole.standsIn hpath (hwhole.nested.inside_of_holds ((Site.holds_whole hsite).2 _ hname))

/-! ## Documentation -/

/-- The documentation of the package, if there is any, stands in one of the files, from a node at
    its top to the end of another. -/
def PackageDoc.DocPlaced (files : List File) (p : PackageDoc) : Prop :=
  p.docFile = none ∧ p.docSpan = {} ∨ ∃ i f, files[i]? = some f ∧ p.docFile = some i ∧
    ∃ first ∈ f.tree.parts, ∃ last ∈ f.tree.parts,
      p.docSpan = Span.lines first.startLine last.endLine

theorem PackageDoc.DocPlaced.addClause (h : p.DocPlaced files) {i : Nat} {f : File}
    (hi : files[i]? = some f) {s : Sited Kind} (hs : s ∈ Sited.partsOf f.tree) :
    (p.addClause i source s).DocPlaced files := by
  have hclause := Sited.tree_mem_parts hs
  have hkept : ∀ (q : PackageDoc) (doc : String) (line : Nat), q.DocPlaced files →
      (∃ t ∈ f.tree.parts, t.startLine = line) →
      DocPlaced files (if q.doc.isEmpty && !doc.isEmpty then
        { q with doc, docFile := some i, docSpan := .lines line s.tree.endLine } else q) := by
    rintro q doc _ hq ⟨first, hfirst, rfl⟩
    split
    · exact .inr ⟨i, f, hi, rfl, first, hfirst, s.tree, hclause, rfl⟩
    · exact hq
  refine hkept _ _ _ ?_ ?_
  · -- The name of the package has no part in this.
    split
    · split <;> exact h
    · exact h
  · split
    · next c hc =>
      have hbefore := (commentsAbove_isPrefix _ _ _).subset (mem_reverse.1 (mem_of_head? hc))
      exact ⟨c, Sited.before_subset_parts hs hbefore, rfl⟩
    · exact ⟨s.tree, hclause, rfl⟩

theorem PackageDoc.DocPlaced.attach (h : p.DocPlaced files) (name? : Option String)
    (add : TypeDoc → TypeDoc) (f : FuncDoc) : (p.attach name? add f).DocPlaced files := by
  rw [PackageDoc.attach]
  split <;> exact h

/-- The documentation of a package stands in one of its files. (It is that of the first
    clause that has some.) -/
theorem docPlaced_ofFiles (files : List File) (exportedOnly : Bool) :
    (ofFiles files exportedOnly).DocPlaced files := by
  have hclauses : DocPlaced files
      (files.zipIdx.foldl (fun p x => p.addFile x.2 x.1) ({} : PackageDoc)) := by
    refine List.foldlRecOn (motive := DocPlaced files) _ _ (.inl ⟨rfl, rfl⟩) fun p hp x hx => ?_
    have hi : files[x.2]? = some x.1 := mem_zipIdx_iff_getElem?.1 hx
    exact List.foldlRecOn (motive := DocPlaced files) _ _ hp fun p hp s hs =>
      hp.addClause hi (mem_filter.1 hs).1
  have hall : (ofFiles files false).DocPlaced files := by
    refine List.foldlRecOn (motive := DocPlaced files) _ _ ?_ fun p hp f _ => hp.attach _ _ f
    exact List.foldlRecOn (motive := DocPlaced files) _ _ hclauses fun p hp m _ => hp.attach _ _ m
  cases exportedOnly with
  | false => exact hall
  | true => exact hall

theorem standsIn_doc (hfiles : FilesHave P files) (directory : String) (exportedOnly : Bool)
    (hdoc : (packageOutline directory files exportedOnly).doc.isEmpty = false) :
    StandsIn P (packageOutline directory files exportedOnly).docFile
      (packageOutline directory files exportedOnly).docSpan := by
  have hplaced := docPlaced_ofFiles files exportedOnly
  rw [packageOutline] at hdoc ⊢
  generalize ofFiles files exportedOnly = p at hdoc hplaced ⊢
  rcases hplaced with ⟨hfile, -⟩ | ⟨i, f, hf, hfile, first, hfirst, last, hlast, hspan⟩
  · rw [hfile] at hdoc
    cases hdoc
  · obtain ⟨hparsed, hpath⟩ := hfiles f (mem_of_getElem? hf)
    simp only [hfile, hf, hspan]
    exact standsIn_lines hpath (Nat.le_trans first.startLine_le_endLine
      (onLines_of_parse? hparsed first hfirst).last) (onLines_of_parse? hparsed last hlast).last

/-! ## Chunks -/

variable {directory : String} {exportedOnly : Bool} {contents : List (String × Bytes)}

/-- What an outline lists has the place of a site. -/
theorem standsIn_of_mem_items (hfiles : FilesHave P files) {x : Item}
    (hx : x ∈ (packageOutline directory files exportedOnly).items) :
    StandsIn P x.symbol.filePath x.symbol.span := by
  have hnames := namesUnmarked_of_parsed fun f hf => (hfiles f hf).1
  have hsymbol := (map_symbol_items_subperm hnames directory exportedOnly).subset
    (mem_map_of_mem hx)
  obtain ⟨y, hy, hsymbol⟩ := mem_filterMap.1 hsymbol
  obtain ⟨d, _, hd⟩ := map_eq_some_iff.1 hsymbol
  rw [← hd]
  exact standsIn_of_mem_declared hfiles hy

/-- The chunks of a package stand in its files. -/
theorem stands_of_outline?
    (hpaths : ∀ x ∈ contents, ∀ k ≤ (Source.ofBytes x.2).length + 1, P (Path.slashed x.1) k)
    (h : outline? directory contents exportedOnly = some o) {c : Chunk} (hc : c ∈ o.chunks) :
    c.Stands P := by
  obtain ⟨_, rfl⟩ := outline?_eq_some.1 h
  have hfiles : FilesHave P (goFiles contents) := by
    intro f hf
    refine ⟨parsed_of_mem_goFiles f hf, ?_⟩
    obtain ⟨x, hx, hf⟩ := mem_filterMap.1 hf
    obtain ⟨tree, _, rfl⟩ := map_eq_some_iff.1 hf
    exact hpaths x hx
  have hbare := mem_map_of_mem (f := Chunk.bare) hc
  rw [Outline.map_bare_chunks (isGo_packageOutline ..), mem_append] at hbare
  refine .of_bare ?_
  rcases hbare with hbare | hbare
  · obtain ⟨c', hc', heq⟩ := map_eq_some_iff.1 (mem_toList.1 hbare)
    rw [← heq]
    exact (Outline.stands_fileChunk? (standsIn_doc hfiles _ _) hc').bare
  · obtain ⟨x, hx, heq⟩ := mem_map.1 hbare
    rw [← heq]
    exact Outline.stands_baseChunk (standsIn_of_mem_items hfiles hx) ..

/-! ## Fields -/

theorem line_of_mem_structFields {struct : ParseTree Kind} (h : OnLines n struct) :
    ∀ f ∈ structFields source struct, f.line ≤ n := by
  intro f hf
  rw [structFields] at hf
  split at hf
  · cases hf
  · next list hlist =>
    obtain ⟨s, hs, hf⟩ := mem_flatMap.1 hf
    have hlist : OnLines n list :=
      h.of_mem (mem_filter.1 (mem_of_find?_eq_some hlist)).1
    have hline : s.tree.startLine ≤ n :=
      Nat.le_trans s.tree.startLine_le_endLine (hlist.of_mem (Sited.tree_mem_parts hs)).last
    split at hf
    · split at hf
      · rw [mem_singleton.1 hf]
        exact hline
      · obtain ⟨name, _, rfl⟩ := mem_map.1 hf
        exact hline
    · cases hf

theorem line_of_mem_interfaceEmbeds {interface : ParseTree Kind} (h : OnLines n interface) :
    ∀ f ∈ interfaceEmbeds source interface, f.line ≤ n := by
  intro f hf
  obtain ⟨s, hs, hf⟩ := mem_filterMap.1 hf
  split at hf
  · cases hf
    exact Nat.le_trans s.tree.startLine_le_endLine (h.of_mem (Sited.tree_mem_parts hs)).last
  · cases hf

/-- The fields of a type stand in its specification. -/
theorem line_of_mem_typeDoc (source : Source) {spec : Sited Kind} (h : OnLines n spec.tree)
    (i : Nat) (name : String) : ∀ f ∈ (typeDoc source i spec name).fields, f.line ≤ n := by
  rw [typeDoc]
  split
  · simp
  · next type htype =>
    have htype : OnLines n type := h.of_mem (ParseTree.mem_of_part? htype).1
    split
    · simp
    · split
      · exact line_of_mem_structFields htype
      · split
        · exact line_of_mem_interfaceEmbeds htype
        · simp

theorem line_of_mem_keyedDeclarations
    (hfiles : ∀ f ∈ files, f.Parsed ∧ f.source.length + 1 ≤ n) {t : TypeDoc}
    (ht : .type t ∈ keyedDeclarations files) : ∀ f ∈ t.fields, f.line ≤ n := by
  obtain ⟨key, _, d, hd, i, f, s, hf, hs, hmem⟩ := exists_of_mem_keyedDeclarations ht
  have hlines : OnLines n s.tree :=
    (onLines_of_parse? (hfiles f (mem_of_getElem? hf)).1 _ (Sited.tree_mem_parts hs)).of_le
      (hfiles f (mem_of_getElem? hf)).2
  rw [declarationsAt_eq] at hmem
  obtain ⟨x, hsite, hx⟩ := mem_filterMap.1 hmem
  -- Only a specification of a type says something of a type.
  rcases exists_of_mem_sitesAt hsite with ⟨_, rfl⟩ | ⟨_, rfl⟩ | ⟨_, spec, hspec, rfl⟩ |
    ⟨_, isConst, spec, hspec, j, name, _, rfl⟩
  · obtain ⟨_, _, rfl⟩ := map_eq_some_iff.1 hx
    cases hd
  · obtain ⟨_, _, rfl⟩ := map_eq_some_iff.1 hx
    cases hd
  · obtain ⟨name, _, rfl⟩ := map_eq_some_iff.1 hx
    cases hd
    have hfields := line_of_mem_typeDoc f.source
      (hlines.of_holds (holds_of_mem_specs hspec).1) i (name.text f.source)
    split <;> exact hfields
  · obtain ⟨_, _, rfl⟩ := map_eq_some_iff.1 hx
    cases hd

/-- Types are given functions, and lose fields that are not visible. -/
theorem line_of_mem_fields (hfiles : ∀ f ∈ files, f.Parsed ∧ f.source.length + 1 ≤ n)
    (exportedOnly : Bool) :
    ∀ t ∈ (ofFiles files exportedOnly).types, ∀ f ∈ t.fields, f.line ≤ n := by
  have hall : ∀ t ∈ (ofFiles files false).types, ∀ f ∈ t.fields, f.line ≤ n := by
    intro t ht
    obtain ⟨p, htypes, _, _, _, hcompleted⟩ := completed_ofFiles files
    have hcore : core t ∈ p.types.map core := hcompleted.types ▸ mem_map_of_mem ht
    obtain ⟨t', ht', hcore⟩ := mem_map.1 hcore
    have hfields : t'.fields = t.fields := by
      have hcore := congrArg TypeDoc.fields hcore
      exact hcore
    rw [htypes] at ht'
    obtain ⟨d, hd, hd'⟩ := mem_filterMap.1 ht'
    rw [Declaration.type?_eq_some.1 hd'] at hd
    exact hfields ▸ line_of_mem_keyedDeclarations hfiles hd
  cases exportedOnly with
  | false => exact hall
  | true =>
    refine forall_mem_map.2 fun t ht f hf => ?_
    exact hall t (mem_filter.1 ht).1 f (mem_filter.1 hf).1

/-- No field of a package is on a line that none of its files has. -/
theorem line_of_outline? (hsources : ∀ x ∈ contents, (Source.ofBytes x.2).length + 1 ≤ n)
    (h : outline? directory contents exportedOnly = some o) :
    ∀ t ∈ o.types, ∀ f ∈ t.fields, f.line ≤ n := by
  obtain ⟨_, rfl⟩ := outline?_eq_some.1 h
  refine forall_mem_map.2 (line_of_mem_fields (fun f hf => ⟨parsed_of_mem_goFiles f hf, ?_⟩) _)
  obtain ⟨x, hx, hf⟩ := mem_filterMap.1 hf
  obtain ⟨tree, _, rfl⟩ := map_eq_some_iff.1 hf
  exact hsources x hx

end CodeAtlas.Go
