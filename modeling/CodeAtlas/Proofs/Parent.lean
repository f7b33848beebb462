import CodeAtlas.Markdown.Document
import CodeAtlas.Proofs.Go.Exported
import CodeAtlas.Proofs.Php.Namespace
import CodeAtlas.Proofs.Python.Declared

/-!
# Parents of chunks

A chunk may name a parent: the type that it is a member of, the type that it makes values of, or
the section around it. In the chunks of one outline the parent is always found again, as the
chunk of a type or of a section (`parentKinds`).

For members this is how chunks are made of an outline, since those of a type stand directly
behind its own chunk (`IsGroupOf`). For functions and sections it depends on the outline, which
has to list the types and sections that they refer to (`Outline.Linked`). The readers of all
languages see to it.

* `Outline.Linked.exists_parent`: the parents in a linked outline;
* `Outline.chunks_eq_groups`: the chunks of the types, one group for each;
* `Go.linked_packageOutline`: constructors are listed by the types that they belong to, so that
  a type which is left out takes them along;
* `Markdown.linked_outline`: only headings of the document are around a section;
* `parents_resolve`: all outlines that are read.
-/

namespace CodeAtlas

open List

variable {o : Outline} {t : TypeDef}

/-- The kinds of chunks that the parent of a chunk may have. -/
def parentKinds : ChunkKind → List ChunkKind
  | .section => [.section]
  | .method | .property | .const | .function => [.class, .interface, .trait, .type]
  | _ => []

/-- The kind and the name of a chunk, and the name of its parent. -/
def Chunk.link (c : Chunk) : ChunkKind × String × Option String :=
  (c.kind, c.name, c.parent)

/-- The links of the members of a type that have chunks: methods, properties, constants. Those
    that an interface of Go asks for have none. -/
def TypeDef.memberLinks (language : Language) (t : TypeDef) :
    List (ChunkKind × String × Option String) :=
  if t.kind = .interface ∧ language = .go then []
  else
    t.methods.map (fun f => (.method, f.name, some t.name)) ++
      t.properties.map (fun p => (.property, p.name, some t.name)) ++
      t.constants.map fun b => (.const, b.name, some t.name)

/-- The chunks are that of a type, which has no parent, and directly behind it those of its
    members. -/
def IsGroupOf (language : Language) (t : TypeDef) (group : List Chunk) : Prop :=
  group.map Chunk.link =
    (Outline.chunkKindOf t.kind, t.name, none) :: t.memberLinks language

/-- Members name their type as their parent. -/
theorem TypeDef.of_mem_memberLinks {language : Language} {link : ChunkKind × String × Option String}
    (h : link ∈ t.memberLinks language) :
    link.1 ∈ [.method, .property, .const] ∧ link.2.2 = some t.name := by
  rw [memberLinks] at h
  split at h
  · cases h
  · simp only [mem_append, mem_map] at h
    rcases h with (⟨x, _, rfl⟩ | ⟨x, _, rfl⟩) | ⟨x, _, rfl⟩ <;> exact ⟨by simp, rfl⟩

namespace Outline

/-- The functions of the outline make values of its types only, and the sections around its
    sections are its own. -/
structure Linked (o : Outline) : Prop where
  functions : ∀ f ∈ o.functions, ∀ name ∈ f.constructs, ∃ t ∈ o.types, t.name = name
  sections : ∀ s ∈ o.sections, ∀ title ∈ s.path.dropLast.getLast?,
    ∃ s' ∈ o.sections, s'.title = title

variable (o : Outline) {c : Chunk}

/-! ## Links of chunks -/

theorem link_of_bare {d : Chunk} (h : c.bare = d.bare) : c.link = d.link := by
  have hlink : c.bare.link = d.bare.link := congrArg Chunk.link h
  exact hlink

theorem link_callableChunk (f : Callable) (kind : ChunkKind) (parent : Option String) :
    (o.callableChunk f kind parent).link = (kind, f.name, parent) := by
  refine (congrArg Chunk.link (o.bare_callableChunk f kind parent)).trans ?_
  rw [baseChunk_eq]
  rfl

theorem link_typeChunk (t : TypeDef) (methods : Json) :
    ((o.typeChunk t).setMeta "methods" methods).link = (chunkKindOf t.kind, t.name, none) := by
  refine (link_of_bare (Chunk.bare_setMeta _ _)).trans
    ((congrArg Chunk.link (o.bare_typeChunk t)).trans ?_)
  rw [baseChunk_eq]
  rfl

theorem link_propertyChunk (p : Property) (parent : Option String) :
    (o.propertyChunk p parent).link = (.property, p.name, parent) := by
  refine (congrArg Chunk.link (o.bare_propertyChunk p parent)).trans ?_
  rw [baseChunk_eq]
  rfl

theorem link_bindingChunk (b : Binding) (kind : ChunkKind) (parent : Option String) :
    (o.bindingChunk b kind parent).link = (kind, b.name, parent) := by
  refine (congrArg Chunk.link (o.bare_bindingChunk b kind parent)).trans ?_
  rw [baseChunk_eq]
  rfl

theorem link_sectionChunk (s : Section) :
    (o.sectionChunk s).link = (.section, s.title, s.path.dropLast.getLast?) := by
  refine (link_of_bare ((Chunk.bare_setMeta _ _).trans (Chunk.bare_setMeta _ _))).trans ?_
  rw [baseChunk_eq]
  rfl

variable {o}

theorem link_fileChunk? (h : o.fileChunk? = some c) : c.link.1 = .file ∧ c.link.2.2 = none := by
  rw [fileChunk?] at h
  split at h
  · cases h
  · cases h
    rw [link_of_bare (Chunk.bare_setMeta _ _), baseChunk_eq]
    exact ⟨rfl, rfl⟩

theorem isGroupOf_typeChunks (t : TypeDef) : IsGroupOf o.language t (o.typeChunks t) := by
  rw [IsGroupOf, typeChunks, TypeDef.memberLinks]
  by_cases h : t.kind = .interface ∧ o.language = .go
  · rw [if_pos h, if_pos h, map_singleton, link_typeChunk]
  · have hconst : ∀ b : Binding, ((o.bindingChunk b .const (some t.name)).setFlag "enum_case"
        (b.isCase && t.kind = .enum)).link = (.const, b.name, some t.name) := fun b =>
      (link_of_bare (Chunk.bare_setFlag _ _)).trans (o.link_bindingChunk ..)
    simp only [if_neg h, map_append, map_cons, map_map, link_typeChunk,
      Function.comp_def, link_callableChunk, link_propertyChunk, hconst, cons_append]

/-- The chunks of an outline: those of its types, one group for each, and others before and
    behind them, which are no members. -/
theorem chunks_eq_groups (o : Outline) :
    ∃ before groups behind, o.chunks = before ++ groups.flatten ++ behind ∧
      List.Forall₂ (IsGroupOf o.language) o.types groups ∧
      ∀ c ∈ before ++ behind, c.kind ∈ [.file, .function, .const, .var, .section] ∧
        (c.kind = .const → c.parent = none) := by
  refine ⟨o.fileChunk?.toList ++ o.functions.map fun f => o.callableChunk f .function f.constructs,
    o.types.map o.typeChunks, o.constants.map (o.bindingChunk · .const none) ++
      o.vars.map (o.bindingChunk · .var none) ++ o.sections.map o.sectionChunk, ?_, ?_, ?_⟩
  · simp only [chunks, flatMap_def, append_assoc]
  · rw [forall₂_map_right_iff, forall₂_same]
    exact fun t _ => isGroupOf_typeChunks t
  · intro c hc
    simp only [mem_append, Option.mem_toList, mem_map] at hc
    have hlink : ∀ {x : ChunkKind × String × Option String}, c.link = x →
        c.kind = x.1 ∧ c.parent = x.2.2 := fun h => ⟨congrArg (·.1) h, congrArg (·.2.2) h⟩
    rcases hc with (hc | ⟨f, _, rfl⟩) | (⟨b, _, rfl⟩ | ⟨b, _, rfl⟩) | ⟨s, _, rfl⟩
    · have hfile : c.kind = .file := (link_fileChunk? hc).1
      simp [hfile]
    · simp [(hlink (o.link_callableChunk f .function f.constructs)).1]
    · simp [hlink (o.link_bindingChunk b .const none)]
    · simp [(hlink (o.link_bindingChunk b .var none)).1]
    · simp [(hlink (o.link_sectionChunk s)).1]

/-! ## Linked outlines -/

/-- A type of the outline has a chunk that may be a parent. -/
theorem exists_chunk_of_type (ht : t ∈ o.types) :
    ∃ q ∈ o.chunks, q.name = t.name ∧ q.kind ∈ [.class, .interface, .trait, .type] := by
  have hgroup : IsGroupOf o.language t (o.typeChunks t) := isGroupOf_typeChunks t
  obtain ⟨q, rest, htype, hq, -⟩ := map_eq_cons_iff.1 hgroup
  have hmem : q ∈ o.types.flatMap o.typeChunks :=
    mem_flatMap.2 ⟨t, ht, htype ▸ mem_cons_self⟩
  refine ⟨q, by simp [chunks, hmem], congrArg (·.2.1) hq, ?_⟩
  have hkind : q.kind = chunkKindOf t.kind := congrArg (·.1) hq
  rw [hkind]
  cases t.kind <;> decide

theorem exists_chunk_of_section {s : Section} (hs : s ∈ o.sections) :
    ∃ q ∈ o.chunks, q.name = s.title ∧ q.kind = .section := by
  have hmem : o.sectionChunk s ∈ o.sections.map o.sectionChunk := mem_map_of_mem hs
  exact ⟨_, by simp [chunks, hmem], congrArg (·.2.1) (o.link_sectionChunk s),
    o.kind_sectionChunk s⟩

theorem Linked.exists_parent (ho : o.Linked) (hc : c ∈ o.chunks) {p : String}
    (hp : c.parent = some p) : ∃ q ∈ o.chunks, q.name = p ∧ q.kind ∈ parentKinds c.kind := by
  simp only [chunks, mem_append, Option.mem_toList, mem_map, mem_flatMap] at hc
  rcases hc with ((((hc | ⟨f, hf, rfl⟩) | ⟨t, ht, hc⟩) | ⟨b, _, rfl⟩) | ⟨b, _, rfl⟩) | ⟨s, hs, rfl⟩
  · cases (link_fileChunk? hc).2.symm.trans hp
  · have hparent : f.constructs = some p :=
      (congrArg (·.2.2) (o.link_callableChunk f .function f.constructs)).symm.trans hp
    obtain ⟨t, ht, rfl⟩ := ho.functions f hf p hparent
    rw [kind_callableChunk]
    exact exists_chunk_of_type ht
  · have hlink : c.link ∈ (o.typeChunks t).map Chunk.link := mem_map_of_mem hc
    rw [isGroupOf_typeChunks t] at hlink
    rcases mem_cons.1 hlink with hlink | hlink
    · cases (congrArg (·.2.2) hlink).symm.trans hp
    · obtain ⟨hkind, hparent⟩ := t.of_mem_memberLinks hlink
      obtain rfl : t.name = p := Option.some.inj (hparent.symm.trans hp)
      obtain ⟨q, hq, hname, htype⟩ := exists_chunk_of_type ht
      refine ⟨q, hq, hname, ?_⟩
      simp only [Chunk.link, mem_cons, not_mem_nil, or_false] at hkind
      rcases hkind with hkind | hkind | hkind <;> rw [hkind] <;> exact htype
  · cases (congrArg (·.2.2) (o.link_bindingChunk b .const none)).symm.trans hp
  · cases (congrArg (·.2.2) (o.link_bindingChunk b .var none)).symm.trans hp
  · have hparent : s.path.dropLast.getLast? = some p :=
      (congrArg (·.2.2) (o.link_sectionChunk s)).symm.trans hp
    obtain ⟨s', hs', rfl⟩ := ho.sections s hs p hparent
    obtain ⟨q, hq, hname, hkind⟩ := exists_chunk_of_section hs'
    rw [kind_sectionChunk]
    exact ⟨q, hq, hname, by simp [parentKinds, hkind]⟩

/-- Outlines without sections of functions that make values of no type in particular. -/
theorem linked_of_constructs (hfunctions : ∀ f ∈ o.functions, f.constructs = none)
    (hsections : o.sections = []) : o.Linked := by
  refine ⟨fun f hf name hname => ?_, fun s hs => ?_⟩
  · rw [hfunctions f hf] at hname
    cases hname
  · rw [hsections] at hs
    cases hs

end Outline

/-! ## Readers -/

/-- A constructor is listed by the type that it belongs to. -/
theorem Go.linked_packageOutline (directory : String) (files : List File) (exportedOnly : Bool) :
    (packageOutline directory files exportedOnly).Linked := by
  refine ⟨fun f hf name hname => ?_, fun s hs => ?_⟩
  · -- The other functions of a package make values of no type of it.
    rcases mem_append.1 hf with hf | hf
    · obtain ⟨t, ht, hf⟩ := mem_flatMap.1 hf
      obtain ⟨g, _, rfl⟩ := mem_map.1 hf
      exact ⟨_, mem_map_of_mem ht, Option.some.inj hname⟩
    · obtain ⟨g, _, rfl⟩ := mem_map.1 hf
      cases hname
  · rw [(isGo_packageOutline directory files exportedOnly).sections] at hs
    cases hs

theorem Go.linked_of_outline? {directory : String} {contents : List (String × Bytes)}
    {exportedOnly : Bool} (h : outline? directory contents exportedOnly = some o) : o.Linked := by
  rw [outline?] at h
  split at h
  · cases h
  · cases h
    exact linked_packageOutline ..

namespace Php

theorem linked_of_outline? {path : String} {source : Source} (h : outline? path source = some o) :
    o.Linked := by
  obtain ⟨file, hfile, rfl⟩ := Option.map_eq_some_iff.1 h
  obtain ⟨imports, ho⟩ := exists_outlineOf_eq hfile path
  rw [ho]
  refine Outline.linked_of_constructs (fun f hf => ?_) rfl
  obtain ⟨d, -, hf⟩ := mem_flatMap.1 hf
  rw [Declaration.eq_of_mem_functions hf]
  rfl

end Php

namespace Python

/-- A function of a module makes values of no class in particular. -/
theorem linked_outline (path : String) (text : List Char) : (outline path text).Linked := by
  obtain ⟨_, _, _, _, h, -⟩ := outline_eq path text
  rw [h]
  refine Outline.linked_of_constructs (fun f hf => ?_) rfl
  obtain ⟨d, -, hf⟩ := mem_filterMap.1 hf
  rw [Declared.function?] at hf
  split at hf
  · cases hf
  · obtain ⟨header, -, rfl⟩ := Option.map_eq_some_iff.1 hf
    rfl

end Python

namespace Markdown

variable (stack : List Heading)

theorem mem_of_mem_enclosing {level : Nat} {stack : List Heading} {h : Heading}
    (hh : h ∈ enclosing level stack) : h ∈ stack :=
  (dropWhile_suffix _).mem hh

/-- All titles that lead to a heading are those of headings: of one before the text, or of one
    in it. -/
theorem exists_heading_of_mem_breadcrumbs (hs : List Heading) :
    ∀ path ∈ breadcrumbs stack hs, ∀ title ∈ path, ∃ h ∈ stack ++ hs, h.title = title := by
  induction hs generalizing stack with
  | nil =>
    intro path hpath
    cases hpath
  | cons h rest ih =>
    intro path hpath title htitle
    rcases mem_cons.1 hpath with rfl | hpath
    · obtain ⟨g, hg, rfl⟩ := mem_map.1 (mem_reverse.1 htitle)
      refine ⟨g, ?_, rfl⟩
      rcases mem_cons.1 hg with rfl | hg
      · simp
      · exact mem_append_left _ (mem_of_mem_enclosing hg)
    · obtain ⟨g, hg, rfl⟩ := ih _ path hpath title htitle
      refine ⟨g, ?_, rfl⟩
      -- The stack that goes on is this heading on what is left of the stack.
      rcases mem_append.1 hg with hg | hg
      · rcases mem_cons.1 hg with rfl | hg
        · simp
        · exact mem_append_left _ (mem_of_mem_enclosing hg)
      · simp [hg]

theorem length_breadcrumbs (hs : List Heading) : (breadcrumbs stack hs).length = hs.length := by
  induction hs generalizing stack with
  | nil => rfl
  | cons h rest ih => exact congrArg (· + 1) (ih _)

/-- There is a section for each heading, with the titles that lead to it. -/
theorem map_sectionsWith (file : String) (lines : List (List Char)) (hs : List Heading)
    (paths : List (List String)) (hlength : paths.length = hs.length) :
    (sectionsWith file lines hs paths).map (·.title) = hs.map (·.title) ∧
      (sectionsWith file lines hs paths).map (·.path) = paths := by
  induction hs generalizing paths with
  | nil => exact ⟨rfl, (length_eq_zero_iff.1 hlength).symm⟩
  | cons h rest ih =>
    obtain ⟨path, paths, rfl⟩ := exists_cons_of_length_eq_add_one hlength
    obtain ⟨htitles, hpaths⟩ := ih paths (Nat.succ.inj hlength)
    exact ⟨congrArg (h.title :: ·) htitles, congrArg (path :: ·) hpaths⟩

/-- The sections around a section are those of the document. -/
theorem linked_outline (path : String) (text : List Char) : (outline path text).Linked := by
  refine ⟨by simp [outline], fun s hs title htitle => ?_⟩
  obtain ⟨htitles, hpaths⟩ := map_sectionsWith (Path.slashed path) (Text.lines text)
    (Content.ofText text).headings.reverse _ (length_breadcrumbs [] _)
  have hcrumb : s.path ∈ breadcrumbs [] (Content.ofText text).headings.reverse :=
    hpaths ▸ mem_map_of_mem hs
  obtain ⟨h, hh, rfl⟩ := exists_heading_of_mem_breadcrumbs [] _ _ hcrumb title
    ((dropLast_sublist _).mem (mem_of_getLast? htitle))
  have hsection : h.title ∈ (outline path text).sections.map (·.title) :=
    htitles ▸ mem_map_of_mem hh
  exact mem_map.1 hsection

end Markdown

/-- The outline is what one of the readers makes of a unit. -/
inductive Outline.IsRead : Outline → Prop
  | go {directory : String} {contents : List (String × Bytes)} {exportedOnly : Bool} {o : Outline}
      (h : Go.outline? directory contents exportedOnly = some o) : IsRead o
  | php {path : String} {source : Source} {o : Outline} (h : Php.outline? path source = some o) :
      IsRead o
  | python (path : String) (text : List Char) : IsRead (Python.outline path text)
  | markdown (path : String) (text : List Char) : IsRead (Markdown.outline path text)

theorem Outline.IsRead.linked (ho : o.IsRead) : o.Linked := by
  cases ho with
  | go h => exact Go.linked_of_outline? h
  | php h => exact Php.linked_of_outline? h
  | python path text => exact Python.linked_outline path text
  | markdown path text => exact Markdown.linked_outline path text

/-- Among the chunks of an outline that is read, every parent is found again: members and
    constructors have that of a type, and sections that of a section. The chunks of each type
    are a group, which starts with its own chunk and goes on with those of its methods, of its
    properties and of its constants, and no other chunk is that of a member. -/
theorem parents_resolve {o : Outline} (ho : o.IsRead) :
    (∀ c ∈ o.chunks, ∀ p, c.parent = some p →
      ∃ q ∈ o.chunks, q.name = p ∧ q.kind ∈ parentKinds c.kind) ∧
    ∃ before groups behind, o.chunks = before ++ groups.flatten ++ behind ∧
      List.Forall₂ (IsGroupOf o.language) o.types groups ∧
      ∀ c ∈ before ++ behind, c.kind ∈ [.file, .function, .const, .var, .section] ∧
        (c.kind = .const → c.parent = none) :=
  ⟨fun _ hc _ hp => ho.linked.exists_parent hc hp, o.chunks_eq_groups⟩

/-- A package with a type in one file, and a function that makes its values and a method in
    another. -/
def splitServer : List (String × Bytes) :=
  [("p/a.go", bytesOf "package p\n\ntype Server struct\x7b\x7d\n"),
    ("p/b.go", bytesOf ("package p\n\nfunc New() *Server \x7b return nil \x7d\n\n" ++
      "func (s *Server) Run() \x7b\x7d\n"))]

/-- The constructor and the method have the type of the other file as their parent. -/
theorem parents_resolve_split :
    ∃ o, Go.outline? "p" splitServer true = some o ∧
      o.chunks.map Chunk.link = [(.function, "New", some "Server"), (.type, "Server", none),
        (.method, "Run", some "Server")] ∧
      (∀ c ∈ o.chunks, c.parent = some "Server" → ∃ q ∈ o.chunks, q.name = "Server" ∧
        q.kind ∈ parentKinds c.kind) ∧
      ∃ before groups behind, o.chunks = before ++ groups.flatten ++ behind ∧
        List.Forall₂ (IsGroupOf o.language) o.types groups := by
  have hrun : (Go.outline? "p" splitServer true).map (fun o => o.chunks.map Chunk.link) =
      some [(.function, "New", some "Server"), (.type, "Server", none),
        (.method, "Run", some "Server")] := by decide +kernel
  obtain ⟨o, ho, hlinks⟩ := Option.map_eq_some_iff.1 hrun
  obtain ⟨hparents, before, groups, behind, hchunks, hgroups, -⟩ := parents_resolve (.go ho)
  exact ⟨o, ho, hlinks, fun c hc hp => hparents c hc _ hp, before, groups, behind, hchunks, hgroups⟩

end CodeAtlas
