import CodeAtlas.Proofs.Placement
import CodeAtlas.Proofs.Record

/-!
# Values in the metadata of chunks

The metadata of a chunk is sorted, and all of it says something; which values may stand under
which keys is left to a predicate (`Chunk.Tidy`). The keys are those of a list, and the values can
be written and read again (`Chunk.Fits`): they are words, lists of words, the values of literals,
and numbers, the lines of fields and the levels of sections, which fit if the lines of a file can
be counted.

* `Outline.tidy_of_mem_chunks`: the chunks of an outline;
* `Route.tidy_toChunk`: the chunk of a route;
* `Chunk.Tidy.withoutModel`: a chunk says nothing of a model before it is entered;
* `Model.fits_addTo`: what a model enters into a chunk.
-/

namespace CodeAtlas

open Json List

variable {c : Chunk}

/-! ## Values -/

/-- The members have plain values, and their keys are some of the given ones, in their order. -/
structure Json.Under (keys : List String) (members : List (String × Json)) : Prop where
  sublist : (members.map Prod.fst).Sublist keys
  plain : ∀ m ∈ members, m.2.Plain

namespace Json.Under

variable {keys keys' : List String} {members members' : List (String × Json)}

theorem absent (key : String) : Under [key] [] :=
  ⟨nil_sublist _, by simp⟩

theorem given (key : String) {value : Json} (h : value.Plain) : Under [key] [(key, value)] :=
  ⟨List.Sublist.refl _, by simp [h]⟩

theorem append (h : Under keys members) (h' : Under keys' members') :
    Under (keys ++ keys') (members ++ members') := by
  refine ⟨?_, forall_mem_append.2 ⟨h.plain, h'.plain⟩⟩
  rw [map_append]
  exact h.sublist.append h'.sublist

theorem ite {p : Prop} [Decidable p] (h : Under keys members) (h' : Under keys members') :
    Under keys (if p then members else members') := by
  split
  · exact h
  · exact h'

theorem object (h : Under keys members) (hkeys : keys.Pairwise (· < ·)) :
    (Json.obj members).Plain :=
  .obj (hkeys.sublist h.sublist) h.plain

end Json.Under

namespace Outline

theorem plain_importJson (i : Import) : (importJson i).Plain :=
  ((Under.given "alias" (.str i.name)).append (.given "target" (.str i.target))).object (by decide)

theorem plain_methodJson (m : Callable) : (methodJson m).Plain :=
  ((Under.given "doc" (.str m.doc)).append ((Under.given "name" (.str m.name)).append
    (.given "signature" (.str m.signature)))).object (by decide)

theorem plain_paramJson (p : Param) : (paramJson p).Plain := by
  have hname : Under ["name"] [("name", .str p.name)] := .given _ (.str _)
  have htype : Under ["type"] (if p.type.isEmpty then [] else [("type", .str p.type)]) :=
    .ite (.absent _) (.given _ (.str _))
  have hvariadic : Under ["variadic"] (if p.variadic then [("variadic", .bool true)] else []) :=
    .ite (.given _ (.bool true)) (.absent _)
  rw [paramJson]
  -- The default comes first, as the keys are sorted.
  rcases p.default with _ | d
  · exact ((((Under.absent "default").append hname).append htype).append hvariadic).object
      (by decide)
  · exact ((((Under.given "default" (.str d)).append hname).append htype).append
      hvariadic).object (by decide)

theorem plain_fieldJson {f : Field} (h : f.line < wordLimit) : (fieldJson f).Plain := by
  have hdoc : Under ["doc"] (if f.doc.isEmpty then [] else [("doc", .str f.doc)]) :=
    .ite (.absent _) (.given _ (.str _))
  have hembedded : Under ["embedded"] (if f.embedded then [("embedded", .bool true)] else []) :=
    .ite (.given _ (.bool true)) (.absent _)
  have hplace : Under ["line", "name"] [("line", .nat f.line), ("name", .str f.name)] :=
    (Under.given "line" (.nat h)).append (.given "name" (.str f.name))
  have htype : Under ["type"] [("type", .str f.type)] := .given _ (.str _)
  rw [fieldJson]
  rcases f.tag with _ | t
  · exact ((((hdoc.append hembedded).append hplace).append (.absent "tag")).append htype).object
      (by decide)
  · exact ((((hdoc.append hembedded).append hplace).append (.given "tag" (.str t))).append
      htype).object (by decide)

end Outline

namespace Literal

mutual

/-- A literal that has a value. -/
theorem plain_of_toJson? : ∀ {l : Literal} {j : Json}, l.toJson? = some j → j.Plain
  | .text s, _, h => by
    cases h
    exact .str s
  | .classRef s, _, h => by
    cases h
    exact .str _
  | .list items, _, h => by
    obtain ⟨js, hjs, rfl⟩ := Option.map_eq_some_iff.1 h
    exact .arr (plain_of_itemsToJson? hjs)
  | .map entries, _, h => by
    obtain ⟨ms, hms, rfl⟩ := Option.map_eq_some_iff.1 h
    exact plain_sortKeys (plain_of_entriesToJson? hms)
  | .name _, _, h => by cases h
  | .qualifiedName _, _, h => by cases h
  | .closure, _, h => by cases h
  | .unknown, _, h => by cases h

theorem plain_of_itemsToJson? : ∀ {ls : List Literal} {js : List Json},
    itemsToJson? ls = some js → ∀ j ∈ js, j.Plain
  | [], _, h => by
    cases h
    simp
  | l :: ls, _, h => by
    simp only [itemsToJson?, Option.bind_eq_bind, Option.bind_eq_some_iff] at h
    obtain ⟨j, hj, js, hjs, ⟨⟩⟩ := h
    exact forall_mem_cons.2 ⟨plain_of_toJson? hj, plain_of_itemsToJson? hjs⟩

theorem plain_of_entriesToJson? : ∀ {es : List (Literal × Literal)} {ms : List (String × Json)},
    entriesToJson? es = some ms → ∀ m ∈ ms, m.2.Plain
  | [], _, h => by
    cases h
    simp
  | (key, value) :: es, _, h => by
    simp only [entriesToJson?, Option.bind_eq_bind, Option.bind_eq_some_iff] at h
    obtain ⟨k, -, j, hj, ms, hms, ⟨⟩⟩ := h
    exact forall_mem_cons.2 ⟨plain_of_toJson? hj, plain_of_entriesToJson? hms⟩

end

end Literal

/-! ## Chunks -/

/-- The keys under which the chunks of outlines and routes have metadata. -/
def chunkKeys : List String :=
  ["qualified_name", "type_kind", "fields", "bases", "interfaces", "traits", "decorators",
   "metaclass", "dependencies", "is_abstract", "methods", "imports", "params", "returns",
   "receiver", "visibility", "constructor_of", "is_static", "is_async", "is_classmethod", "calls",
   "type_deps", "type", "getter", "setter", "deleter", "default", "value", "enum_case", "level",
   "path", "method", "uri", "controller", "action", "route_name", "middleware"]

namespace Chunk

/-- The metadata of the chunk is sorted by key, and all of it says something that may stand under
    its key. -/
structure Tidy (M : String → Json → Prop) (c : Chunk) : Prop where
  sorted : (c.metadata.map Prod.fst).Pairwise (· < ·)
  each : ∀ m ∈ c.metadata, M m.1 m.2
  full : ∀ m ∈ c.metadata, m.2.isBare = false

/-- Plain values may stand under the keys of chunks. -/
def Admits (M : String → Json → Prop) : Prop :=
  ∀ key ∈ chunkKeys, ∀ value : Json, value.Plain → M key value

/-- The metadata of the chunk is a map of plain values. -/
abbrev Fits (c : Chunk) : Prop :=
  c.Tidy fun _ value => value.Plain

namespace Tidy

variable {M : String → Json → Prop} {c : Chunk} {key : String} {value : Json}

theorem of_nil (h : c.metadata = []) : c.Tidy M := by
  constructor <;> simp [h]

theorem setMeta (hc : c.Tidy M) (h : M key value) : (c.setMeta key value).Tidy M := by
  rw [Chunk.setMeta]
  split
  · exact hc
  · next hvalue =>
    refine ⟨pairwise_insertKey hc.sorted, fun m hm => ?_, fun m hm => ?_⟩ <;>
      rcases mem_insertKey hm with rfl | hm
    · exact h
    · exact hc.each m hm
    · exact Bool.eq_false_iff.2 hvalue
    · exact hc.full m hm

/-- Where the two keys are not known, nothing is told of a model. -/
theorem withoutModel (hc : c.Tidy fun key _ => key ∈ chunkKeys) : c.withoutModel = c := by
  apply withoutModel_eq_self <;> rw [metaAt?, member?_eq_none] <;> intro m hm heq
  · exact absurd (heq ▸ hc.each m hm) (by decide)
  · exact absurd (heq ▸ hc.each m hm) (by decide)

theorem plain (hc : c.Fits) : (Json.obj c.metadata).Plain :=
  .obj hc.sorted hc.each

variable (hM : Admits M)
include hM

theorem setPlain (hc : c.Tidy M) (hkey : key ∈ chunkKeys) (hvalue : value.Plain) :
    (c.setMeta key value).Tidy M :=
  hc.setMeta (hM key hkey value hvalue)

theorem setFlag (hc : c.Tidy M) (hkey : key ∈ chunkKeys) (on : Bool) :
    (c.setFlag key on).Tidy M := by
  rw [Chunk.setFlag]
  split
  · exact hc.setPlain hM hkey (.bool true)
  · exact hc

theorem setOption (hc : c.Tidy M) (hkey : key ∈ chunkKeys) (s : Option String) :
    (Outline.setOption c key s).Tidy M := by
  rcases s with _ | s
  · exact hc
  · exact hc.setPlain hM hkey (.str s)

theorem setPlain_ite (hc : c.Tidy M) (hkey : key ∈ chunkKeys) (hvalue : value.Plain) (p : Prop)
    [Decidable p] : (if p then c.setMeta key value else c).Tidy M := by
  split
  · exact hc.setPlain hM hkey hvalue
  · exact hc

end Tidy

end Chunk

/-! ## Outlines -/

section

variable {M : String → Json → Prop}

namespace Outline

variable {o : Outline} {t : TypeDef}

theorem tidy_baseChunk (kind : ChunkKind) (name file : String) (s : Span) (package : String)
    (parent : Option String) (signature docstring code : String) :
    Chunk.Tidy M { o.baseChunk kind name file s with
      package, parent, signature, docstring, code } := by
  rw [baseChunk_eq]
  exact .of_nil rfl

variable (hM : Chunk.Admits M)
include hM

theorem tidy_fileChunk? (hc : o.fileChunk? = some c) : c.Tidy M := by
  rw [fileChunk?] at hc
  split at hc
  · cases hc
  · cases hc
    exact (tidy_baseChunk ..).setPlain hM (by decide) (plain_map fun i _ => plain_importJson i)

/-- From the last key that is entered to the first: each is known, and each value is plain. -/
theorem tidy_callableChunk (f : Callable) (kind : ChunkKind) (parent : Option String) :
    (o.callableChunk f kind parent).Tidy M := by
  rw [callableChunk]
  iterate 2 refine .setPlain hM ?_ (by decide) (plain_strings _)
  iterate 4 refine .setFlag hM ?_ (by decide) _
  refine .setOption hM (.setPlain_ite hM (.setOption hM ?_ (by decide) _) (by decide) (.str _) _)
    (by decide) _
  iterate 2 refine .setPlain hM ?_ (by decide) (plain_strings _)
  exact (tidy_baseChunk ..).setPlain hM (by decide) (plain_map fun p _ => plain_paramJson p)

theorem tidy_propertyChunk (p : Property) (parent : Option String) :
    (o.propertyChunk p parent).Tidy M := by
  rw [propertyChunk]
  split
  · next j hj =>
    obtain ⟨l, _, hj⟩ := Option.bind_eq_some_iff.1 hj
    refine .setPlain hM ?_ (by decide) (Literal.plain_of_toJson? hj)
    iterate 4 refine .setFlag hM ?_ (by decide) _
    exact .setPlain_ite hM (.setPlain hM (tidy_baseChunk ..) (by decide) (.str _)) (by decide)
      (.str _) _
  · iterate 4 refine .setFlag hM ?_ (by decide) _
    exact .setPlain_ite hM (.setPlain hM (tidy_baseChunk ..) (by decide) (.str _)) (by decide)
      (.str _) _

theorem tidy_bindingChunk (b : Binding) (kind : ChunkKind) (parent : Option String) :
    (o.bindingChunk b kind parent).Tidy M := by
  rw [bindingChunk]
  refine .setPlain hM ?_ (by decide) (.str _)
  split
  · exact tidy_baseChunk ..
  · exact (tidy_baseChunk ..).setPlain hM (by decide) (.str _)

theorem tidy_typeChunk (h : M "fields" (.arr (t.fields.map fieldJson))) :
    (o.typeChunk t).Tidy M := by
  rw [typeChunk]
  refine .setFlag hM (.setPlain hM (.setOption hM ?_ (by decide) _) (by decide) (plain_strings _))
    (by decide) _
  iterate 4 refine .setPlain hM ?_ (by decide) (plain_strings _)
  refine .setMeta (.setPlain hM ?_ (by decide) (.str _)) h
  split
  · exact tidy_baseChunk ..
  · exact (tidy_baseChunk ..).setPlain hM (by decide) (.str _)

theorem tidy_typeChunks (h : M "fields" (.arr (t.fields.map fieldJson))) :
    ∀ c ∈ o.typeChunks t, c.Tidy M := by
  have hmethods : ∀ methods ∈ [.arr (t.methods.map methodJson),
      Json.strings (t.methods.map (·.name))], methods.Plain :=
    forall_mem_cons.2 ⟨plain_map fun m _ => plain_methodJson m,
      forall_mem_singleton.2 (plain_strings _)⟩
  exact forall_typeChunks
    (fun _ hm => (tidy_typeChunk hM h).setPlain hM (by decide) (hmethods _ hm))
    (fun _ _ => tidy_callableChunk hM ..) (fun _ _ => tidy_propertyChunk hM ..)
    fun _ _ => (tidy_bindingChunk hM ..).setFlag hM (by decide) _

/-- The chunks of an outline have plain values in their metadata, if the lines of fields and the
    levels of sections are such. -/
theorem tidy_of_mem_chunks (hfields : ∀ t ∈ o.types, M "fields" (.arr (t.fields.map fieldJson)))
    (hlevels : ∀ s ∈ o.sections, M "level" (.nat s.level)) (hc : c ∈ o.chunks) : c.Tidy M :=
  forall_chunks (fun _ => tidy_fileChunk? hM) (fun _ _ => tidy_callableChunk hM ..)
    (fun t ht => tidy_typeChunks hM (hfields t ht)) (fun _ _ => tidy_bindingChunk hM ..)
    (fun _ _ => tidy_bindingChunk hM ..) (fun s hs => ((tidy_baseChunk ..).setMeta
      (hlevels s hs)).setPlain hM (by decide) (plain_strings _)) c hc

omit hM in
/-- The numbers in the metadata of chunks are lines of fields and levels of sections. -/
theorem fits_of_mem_chunks (hfields : ∀ t ∈ o.types, ∀ f ∈ t.fields, f.line < wordLimit)
    (hlevels : ∀ s ∈ o.sections, s.level ≤ 6) (hc : c ∈ o.chunks) : c.Fits :=
  tidy_of_mem_chunks (fun _ _ _ h => h)
    (fun t ht => plain_map fun f hf => plain_fieldJson (hfields t ht f hf))
    (fun s hs => .nat (Nat.lt_of_le_of_lt (hlevels s hs) (by decide))) hc

omit hM in
theorem Placed.fits {P : String → Nat → Prop} (h : o.Placed P)
    (hP : ∀ file k, P file k → k < wordLimit) (hc : c ∈ o.chunks) : c.Fits :=
  fits_of_mem_chunks (fun t ht f hf => hP _ _ ((h.types t ht).fields f hf))
    (fun s hs => (h.sections s hs).2) hc

end Outline

theorem Route.tidy_toChunk (hM : Chunk.Admits M) (r : Route) : r.toChunk.Tidy M := by
  rw [toChunk]
  refine .setPlain hM ?_ (by decide) (plain_strings _)
  split
  · iterate 5 refine .setPlain hM ?_ (by decide) (.str _)
    exact .of_nil rfl
  · iterate 4 refine .setPlain hM ?_ (by decide) (.str _)
    exact .of_nil rfl

end

/-! ## Models -/

theorem Relation.plain_toJson (r : Relation) : r.toJson.Plain := by
  have hrest : Under ["name", "related_type", "relation_kind"]
      [("name", .str r.name), ("related_type", .str r.related), ("relation_kind", .str r.kind)] :=
    (Under.given "name" (.str r.name)).append
      ((Under.given "related_type" (.str r.related)).append (.given "relation_kind" (.str r.kind)))
  have hall : ∀ {keys}, Under ["foreign_key", "local_key"] keys →
      (Json.obj (keys ++ [("name", .str r.name), ("related_type", .str r.related),
        ("relation_kind", .str r.kind)])).Plain := fun hkeys =>
    (hkeys.append hrest).object (by decide)
  rw [toJson]
  rcases r.foreignKey with _ | foreign <;> rcases r.localKey with _ | own
  · exact hall ((Under.absent "foreign_key").append (.absent "local_key"))
  · exact hall ((Under.absent "foreign_key").append (.given "local_key" (.str own)))
  · exact hall ((Under.given "foreign_key" (.str foreign)).append (.absent "local_key"))
  · exact hall ((Under.given "foreign_key" (.str foreign)).append (.given "local_key" (.str own)))

namespace Model

variable {m : Model}

/-- The maps of the model are sorted by key. -/
def MapsSorted (m : Model) : Prop :=
  ∀ entry ∈ m.maps, (entry.2.map Prod.fst).Pairwise (· < ·)

theorem MapsSorted.addProperty (h : m.MapsSorted) (p : Property) :
    (m.addProperty p).MapsSorted := by
  rw [Model.addProperty]
  split
  · exact h
  · split
    · split <;> exact h
    · split
      · dsimp only
        split <;> exact h
      · split
        · dsimp only
          split
          · exact h
          · intro entry hentry
            rcases mem_insertKey hentry with rfl | hentry
            · exact pairwise_sortKeys _
            · exact h entry hentry
        · exact h

theorem MapsSorted.addMethod (h : m.MapsSorted) (imports : Imports) (namespaceName : String)
    (f : Callable) : (addMethod imports namespaceName m f).MapsSorted := by
  rw [Model.addMethod]
  dsimp only
  split
  · exact h
  · split <;> exact h

theorem mapsSorted_of (imports : Imports) (t : TypeDef) : (Model.of imports t).MapsSorted := by
  rw [Model.of]
  refine List.foldlRecOn (motive := MapsSorted) _ _ ?_ fun m hm f _ => hm.addMethod _ _ f
  refine List.foldlRecOn (motive := MapsSorted) _ _ ?_ fun m hm p _ => hm.addProperty p
  intro entry hentry
  cases hentry

theorem plain_stringsJson {entries : List (String × String)}
    (h : (entries.map Prod.fst).Pairwise (· < ·)) : (stringsJson entries).Plain := by
  refine .obj ?_ (forall_mem_map.2 fun e _ => .str e.2)
  rw [map_map]
  exact h

theorem plain_summary (h : m.MapsSorted) : m.summary.Plain := by
  have hnamed : ∀ (key : String) (names : List String), ∀ x ∈ (if names.isEmpty then []
      else [(key, Json.strings names)] : List (String × Json)), x.2.Plain := by
    intro key names x hx
    split at hx
    · cases hx
    · rw [mem_singleton.1 hx]
      exact plain_strings _
  refine plain_sortKeys fun x hx => ?_
  simp only [mem_append, mem_singleton, mem_map] at hx
  rcases hx with (((((rfl | ⟨e, _, rfl⟩) | ⟨e, _, rfl⟩) | ⟨e, he, rfl⟩) | hx) | hx) | hx
  · exact .str _
  · exact .str _
  · exact plain_strings _
  · exact plain_stringsJson (h e he)
  · exact hnamed _ _ x hx
  · exact hnamed _ _ x hx
  · exact hnamed _ _ x hx

theorem fits_addTo (h : m.MapsSorted) (hc : c.Fits) : (m.addTo c).Fits :=
  (hc.setMeta (plain_summary h)).setMeta (plain_map fun r _ => r.plain_toJson)

end Model

end CodeAtlas
