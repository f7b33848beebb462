import CodeAtlas.Proofs.Conservation
import CodeAtlas.Proofs.Spacing
import CodeAtlas.Proofs.Unit

/-!
# Where chunks come from

Each chunk of a run, together with the class of a PHP file that it is made of, if it
is one, and with the classes that were declared before in the run (`listed`). By this
it can be told of a chunk whether its class is a model that the run knows by its name:
the first of all classes of that name, and a model (`Listed.model?`).

* `map_chunk_listed`: the chunks are those of the run;
* `models_eq`: the models are those of the listed chunks, in their order;
* `suits_of_model?`: a model suits the chunks of classes that have the file, the line
  and the name of its own chunk.
-/

namespace CodeAtlas

open List

variable {e : ClassEntry} {c : Chunk} {x : Listed} {o : Outline}

/-- A chunk, and the class that it is made of. -/
abbrev Marked := Chunk × Option ClassEntry

/-- Chunks that are made of something else. -/
def unmarked (cs : List Chunk) : List Marked :=
  cs.map (·, none)

theorem map_fst_unmarked (cs : List Chunk) : (unmarked cs).map Prod.fst = cs := by
  rw [unmarked, map_map]
  exact map_id cs

theorem filterMap_snd_unmarked (cs : List Chunk) : (unmarked cs).filterMap Prod.snd = [] := by
  rw [unmarked, filterMap_map]
  exact filterMap_eq_nil_iff.2 fun _ _ => rfl

theorem not_mem_unmarked {cs : List Chunk} : (c, some e) ∉ unmarked cs := by
  simp [unmarked]

namespace Outline

variable (o : Outline)

/-- The type as a class of a PHP file. -/
def class? (t : TypeDef) : Option ClassEntry :=
  if o.language = .php ∧ t.kind = .class then some ⟨o.imports, t⟩ else none

/-- The chunks of a type and of its members; the first is that of the type. -/
def markedType (t : TypeDef) : List Marked :=
  match o.typeChunks t with
  | [] => []
  | c :: rest => (c, o.class? t) :: unmarked rest

/-- The chunks of an outline with the classes that they are made of. -/
def marked : List Marked :=
  unmarked (o.fileChunk?.toList ++ o.functions.map fun f =>
      o.callableChunk f .function f.constructs) ++
    o.types.flatMap o.markedType ++
    unmarked (o.constants.map (o.bindingChunk · .const none) ++
      o.vars.map (o.bindingChunk · .var none) ++ o.sections.map o.sectionChunk)

theorem markedType_eq (t : TypeDef) :
    ∃ methods rest, o.typeChunks t = (o.typeChunk t).setMeta "methods" methods :: rest ∧
      o.markedType t =
        ((o.typeChunk t).setMeta "methods" methods, o.class? t) :: unmarked rest := by
  rw [markedType, typeChunks]
  split
  · exact ⟨_, _, rfl, rfl⟩
  · exact ⟨_, _, rfl, rfl⟩

theorem map_fst_markedType (t : TypeDef) : (o.markedType t).map Prod.fst = o.typeChunks t := by
  obtain ⟨methods, rest, hchunks, hmarked⟩ := o.markedType_eq t
  rw [hmarked, map_cons, map_fst_unmarked, hchunks]

theorem filterMap_snd_markedType (t : TypeDef) :
    (o.markedType t).filterMap Prod.snd = (o.class? t).toList := by
  obtain ⟨methods, rest, _, hmarked⟩ := o.markedType_eq t
  rw [hmarked, filterMap_cons]
  cases o.class? t <;> simp only [filterMap_snd_unmarked] <;> rfl

/-- Marking leaves the chunks as they are. -/
theorem map_fst_marked : o.marked.map Prod.fst = o.chunks := by
  simp only [marked, chunks, map_append, map_fst_unmarked, map_flatMap,
    map_fst_markedType, append_assoc]

/-- The marks are the classes of the outline. -/
theorem filterMap_snd_marked :
    o.marked.filterMap Prod.snd =
      if o.language = .php then ClassGraph.classesOf o else [] := by
  simp only [marked, filterMap_append, filterMap_snd_unmarked, filterMap_flatMap,
    filterMap_snd_markedType, nil_append, append_nil]
  rw [ClassGraph.classesOf]
  generalize o.types = types
  by_cases hphp : o.language = .php
  · rw [if_pos hphp]
    induction types with
    | nil => rfl
    | cons t types ih =>
      rw [flatMap_cons, ih, class?]
      by_cases hclass : t.kind = .class <;> simp [hphp, hclass]
  · -- The classes of other languages are no models.
    rw [if_neg hphp, flatMap_eq_nil_iff]
    intro t _
    rw [class?, if_neg fun h => hphp h.1]
    rfl

/-- What a mark says of its chunk. -/
theorem mem_marked (h : (c, some e) ∈ o.marked) :
    o.language = .php ∧ e.type ∈ o.types ∧ e.type.kind = .class ∧
      ∃ methods, c = (o.typeChunk e.type).setMeta "methods" methods := by
  rw [marked, mem_append, mem_append, or_iff_left not_mem_unmarked,
    or_iff_right not_mem_unmarked, mem_flatMap] at h
  obtain ⟨t, ht, h⟩ := h
  obtain ⟨methods, rest, _, hmarked⟩ := o.markedType_eq t
  rw [hmarked, mem_cons, or_iff_left not_mem_unmarked, class?] at h
  split at h
  · next hc =>
    cases h
    exact ⟨hc.1, ht, hc.2, methods, rfl⟩
  · cases h

end Outline

/-- The chunks of a batch with the classes that they are made of. -/
def Batch.marked : Batch → List Marked
  | .unit o => o.marked
  | .routes rs => unmarked (rs.map Route.toChunk)

theorem Batch.map_fst_marked (b : Batch) : b.marked.map Prod.fst = b.chunks := by
  cases b with
  | unit o => exact o.map_fst_marked
  | routes rs => exact map_fst_unmarked _

theorem Batch.filterMap_snd_marked (b : Batch) :
    b.marked.filterMap Prod.snd = b.phpOutline?.toList.flatMap ClassGraph.classesOf := by
  cases b with
  | unit o =>
    rw [marked, o.filterMap_snd_marked, phpOutline?]
    split <;> simp
  | routes rs => exact filterMap_snd_unmarked _

/-! ## Listing the chunks of a run -/

/-- A chunk of a run, the class of a PHP file that it is made of, and the classes that
    were declared before. -/
structure Listed where
  chunk : Chunk
  class? : Option ClassEntry
  before : List ClassEntry

/-- Lists chunks, given the classes that were declared before. -/
def listFrom (before : List ClassEntry) : List Marked → List Listed
  | [] => []
  | (c, e) :: rest => ⟨c, e, before⟩ :: listFrom (before ++ e.toList) rest

/-- The chunks of a run in the order of their acceptance. -/
def listed (job : Job) (roots : List String) : List Listed :=
  listFrom [] ((batches job roots).flatMap Batch.marked)

/-- The classes of a run, of several of one name the first. -/
def graphOf (job : Job) (roots : List String) : ClassGraph :=
  .ofOutlines (finalRun job roots).phpOutlines

/-- Two classes have the same name. -/
def ClassEntry.sameName (a b : ClassEntry) : Bool :=
  a.type.qualifiedName == b.type.qualifiedName

/-- What the chunk's class declares as a model, if it is the first class of its name
    and a model. -/
def Listed.model? (g : ClassGraph) (x : Listed) : Option Model :=
  x.class?.bind fun e =>
    if !x.before.any (·.sameName e) && g.isModel e then some (Model.of e.imports e.type) else none

variable {job : Job} {roots : List String}

theorem map_chunk_listFrom (before : List ClassEntry) (ms : List Marked) :
    (listFrom before ms).map Listed.chunk = ms.map Prod.fst := by
  induction ms generalizing before with
  | nil => rfl
  | cons m ms ih => rw [listFrom, map_cons, map_cons, ih]

/-- The chunks that are listed are those of the run. -/
theorem map_chunk_listed : (listed job roots).map Listed.chunk = collected job roots := by
  rw [listed, map_chunk_listFrom, map_flatMap, collected]
  simp only [Batch.map_fst_marked]

theorem insert_eq_admitNew (g : ClassGraph) (e : ClassEntry) :
    g.insert e = admitNew ClassEntry.sameName g e := by
  rw [ClassGraph.insert, ClassGraph.get?, admitNew]
  cases h : g.find? (·.type.qualifiedName == e.type.qualifiedName) with
  | none =>
    simpa [ClassEntry.sameName] using h
  | some e' =>
    have hname := find?_some h
    rw [if_pos]
    exact any_eq_true.2 ⟨e', mem_of_find?_eq_some h, hname⟩

/-- The classes of a run are the first of their names. -/
theorem graphOf_eq :
    graphOf job roots =
      fresh ClassEntry.sameName []
        (((batches job roots).flatMap Batch.marked).filterMap Prod.snd) := by
  have hclasses : ∀ bs : List Batch, (bs.filterMap Batch.phpOutline?).flatMap
      ClassGraph.classesOf = (bs.flatMap Batch.marked).filterMap Prod.snd := by
    intro bs
    rw [filterMap_flatMap, filterMap_eq_flatMap_toList, flatMap_assoc]
    exact congrArg (bs.flatMap ·) (funext fun b => b.filterMap_snd_marked.symm)
  rw [← hclasses, graphOf, ClassGraph.ofOutlines, funext₂ insert_eq_admitNew, foldl_admitNew]
  · rfl
  · intro a b c hab hbc
    simp only [ClassEntry.sameName, beq_iff_eq] at *
    exact hab.trans hbc

theorem filterMap_model?_listFrom (g : ClassGraph) (before : List ClassEntry) (ms : List Marked) :
    (listFrom before ms).filterMap (·.model? g) =
      ((fresh ClassEntry.sameName before (ms.filterMap Prod.snd)).filter g.isModel).map
        fun e => Model.of e.imports e.type := by
  induction ms generalizing before with
  | nil => rfl
  | cons m ms ih =>
    obtain ⟨c, e⟩ := m
    cases e with
    | none =>
      -- A chunk of something else has no model, and hides none behind it.
      rw [listFrom, Option.toList_none, append_nil]
      exact ih before
    | some e =>
      rw [listFrom, filterMap_cons, filterMap_cons, ih, fresh]
      have hmodel? : Listed.model? g ⟨c, some e, before⟩ =
          if !before.any (·.sameName e) && g.isModel e then some (Model.of e.imports e.type)
          else none := rfl
      rw [hmodel?]
      cases before.any (·.sameName e) <;> cases hmodel : g.isModel e <;> simp [hmodel]

/-- The models of a run are those of its chunks, in their order. -/
theorem models_eq :
    (graphOf job roots).models =
      (listed job roots).filterMap (·.model? (graphOf job roots)) := by
  rw [listed, filterMap_model?_listFrom, ← graphOf_eq]
  rfl

/-! ## What a model describes -/

namespace Model

/-- By what a model is told to be that of a chunk. -/
def place (m : Model) : String × String × Nat :=
  (m.className, m.filePath, m.startLine)

theorem place_addProperty (m : Model) (p : Property) : (m.addProperty p).place = m.place := by
  rw [addProperty]
  split
  · rfl
  · split
    · split <;> rfl
    · split
      · dsimp only
        split <;> rfl
      · split
        · dsimp only
          split <;> rfl
        · rfl

theorem place_addMethod (imports : Imports) (namespaceName : String) (m : Model) (f : Callable) :
    (addMethod imports namespaceName m f).place = m.place := by
  rw [addMethod]
  split
  · rfl
  · split <;> rfl

/-- What a class declares does not move it. -/
theorem place_of (imports : Imports) (t : TypeDef) :
    (Model.of imports t).place = (t.qualifiedName, t.filePath, t.span.startLine) := by
  exact (foldl_keeps (place_addMethod imports t.namespaceName) _ _).trans
    (foldl_keeps place_addProperty _ _)

/-- The name of a class without its namespace, if there is no backslash in it. -/
theorem shortName_of {imports : Imports} {t : TypeDef} (h : '\\' ∉ t.name.toList) :
    (Model.of imports t).shortName = t.name := by
  have hname : (Model.of imports t).className = t.qualifiedName :=
    congrArg Prod.fst (place_of imports t)
  rw [shortName, hname, TypeDef.qualifiedName]
  split
  · rw [Text.afterLast_of_not_mem h, String.ofList_toList]
  · have hlist : (t.namespaceName ++ "\\" ++ t.name).toList =
        t.namespaceName.toList ++ '\\' :: t.name.toList := by
      simp only [String.toList_append, append_assoc]
      rfl
    rw [hlist, Text.afterLast_append h, String.ofList_toList]

end Model

/-- The second chunk is that of a class with the file, the line and the name of the
    first. -/
def Chunk.collides (a b : Chunk) : Prop :=
  b.kind = .class ∧ b.filePath = a.filePath ∧ b.startLine = a.startLine ∧ b.name = a.name

/-- The chunk of a class of a PHP file stands where the class does. -/
theorem Outline.place_of_marked (h : (c, some e) ∈ o.marked) :
    c.kind = .class ∧ c.filePath = e.type.filePath ∧
      c.startLine = max e.type.span.startLine 1 ∧ c.name = e.type.name := by
  obtain ⟨_, _, hclass, methods, rfl⟩ := o.mem_marked h
  have hbare : ((o.typeChunk e.type).setMeta "methods" methods).bare = _ :=
    (Chunk.bare_setMeta _ _).trans (o.bare_typeChunk e.type)
  rw [o.baseChunk_eq, hclass] at hbare
  exact ⟨congrArg Chunk.kind hbare, congrArg Chunk.filePath hbare,
    congrArg Chunk.startLine hbare, congrArg Chunk.name hbare⟩

/-- A model suits the chunks of classes that stand where its own chunk does. -/
theorem Outline.suits_of_marked (h : (c, some e) ∈ o.marked) (hnamed : Php.ClassIsNamed e.type)
    (c' : Chunk) : Run.suits (Model.of e.imports e.type) c' ↔ c.collides c' := by
  obtain ⟨_, hfile, hline, hname⟩ := o.place_of_marked h
  obtain ⟨_, _, hclass, _⟩ := o.mem_marked h
  obtain ⟨hpos, hplain⟩ := hnamed hclass
  have hplace := Model.place_of e.imports e.type
  simp only [Model.place, Prod.mk.injEq] at hplace
  simp only [Run.suits, Model.describes, Model.shortName_of hplain, hplace, decide_eq_true_eq,
    Bool.and_eq_true, beq_iff_eq, Chunk.collides, hfile, hline, hname, and_assoc,
    Nat.max_eq_left hpos]

theorem mem_of_mem_listFrom {before : List ClassEntry} {ms : List Marked}
    (hx : x ∈ listFrom before ms) : (x.chunk, x.class?) ∈ ms := by
  induction ms generalizing before with
  | nil => cases hx
  | cons m ms ih =>
    rcases mem_cons.1 hx with rfl | hx
    · exact mem_cons_self
    · exact mem_cons_of_mem _ (ih hx)

/-- The chunk of a class of a PHP file, in the outline of that file. -/
theorem exists_marked_of_mem_listed (hx : x ∈ listed job roots) (he : x.class? = some e) :
    ∃ o : Outline, (x.chunk, some e) ∈ o.marked ∧ Php.ClassIsNamed e.type := by
  obtain ⟨b, hb, hmem⟩ := mem_flatMap.1 (mem_of_mem_listFrom hx)
  rw [he] at hmem
  cases b with
  | unit o =>
    obtain ⟨hphp, htype, _⟩ := o.mem_marked hmem
    obtain ⟨path, source, ho⟩ := exists_php_of_mem_batches hb hphp
    exact ⟨o, hmem, (Php.isNamed_of_outline? ho).2 e.type htype⟩
  | routes rs => exact absurd hmem not_mem_unmarked

/-- The model of a listed chunk suits the chunks of classes with the file, the line and
    the name of that chunk. -/
theorem suits_of_model? {m : Model} {g : ClassGraph} (hx : x ∈ listed job roots)
    (hm : x.model? g = some m) :
    x.chunk.kind = .class ∧ ∀ c, Run.suits m c ↔ x.chunk.collides c := by
  obtain ⟨e, he, hm⟩ := Option.bind_eq_some_iff.1 hm
  obtain ⟨o, hmarked, hnamed⟩ := exists_marked_of_mem_listed hx he
  split at hm
  · cases hm
    exact ⟨(o.place_of_marked hmarked).1, o.suits_of_marked hmarked hnamed⟩
  · cases hm

end CodeAtlas
