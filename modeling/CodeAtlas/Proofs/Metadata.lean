import CodeAtlas.Chunking
import CodeAtlas.Php.Model
import CodeAtlas.Php.Route
import CodeAtlas.Proofs.List

/-!
# Fields and metadata of chunks

What is entered into the metadata of a chunk changes nothing else, neither its other
fields nor what stands under other keys. So the kind, the name and the place of a
chunk are those that it was made with, and what is told of a model can be taken away
again (`Chunk.withoutModel`): it stands under two keys that no class has otherwise.

* `kind_of_mem_chunks`: no chunk of an outline is that of a route;
* `Model.withoutModel_addTo`: entering a model concerns its two keys only;
* `Chunk.withoutModel_eq_self`: a chunk that says nothing of a model.
-/

namespace CodeAtlas

open List

namespace Json

variable {α : Type} {key key' : String} {value : α} (members : List (String × Json))

theorem filter_insertKey {p : String × α → Bool} (hp : ∀ v, p (key, v) = false)
    (members : List (String × α)) :
    (insertKey key value members).filter p = members.filter p := by
  induction members with
  | nil => simp [insertKey, hp]
  | cons m rest ih =>
    obtain ⟨k, v⟩ := m
    rw [insertKey]
    split
    · next hk => subst hk; simp [hp]
    · split
      · simp [hp]
      · rw [filter_cons, filter_cons, ih]

theorem lookup_insertKey (members : List (String × α)) :
    (insertKey key value members).lookup key' =
      if key' = key then some value else members.lookup key' := by
  induction members with
  | nil => exact lookup_cons_eq_ite ..
  | cons m rest ih =>
    obtain ⟨k, v⟩ := m
    rw [insertKey]
    split
    · next hk =>
      rw [lookup_cons_eq_ite, lookup_cons_eq_ite]
      split <;> simp_all
    · split
      · exact lookup_cons_eq_ite ..
      · rw [lookup_cons_eq_ite, ih, lookup_cons_eq_ite]
        grind

theorem member?_eq_lookup : member? key members = members.lookup key := by
  induction members with
  | nil => rfl
  | cons m rest ih =>
    rw [lookup_cons_eq_ite, ← ih, member?]
    simp only [eq_comm]

theorem member?_insertKey_of_ne {value : Json} (h : key ≠ key') (members : List (String × Json)) :
    member? key' (insertKey key value members) = member? key' members := by
  rw [member?_eq_lookup, member?_eq_lookup, lookup_insertKey, if_neg h.symm]

theorem insertKey_ne_nil (members : List (String × α)) : insertKey key value members ≠ [] := by
  cases members with
  | nil => exact cons_ne_nil _ _
  | cons m rest =>
    rw [insertKey]
    split
    · exact cons_ne_nil _ _
    · split <;> exact cons_ne_nil _ _

/-- Sorting by keys drops repeated ones, but never all. -/
theorem sortKeys_cons_ne_nil (m : String × α) (members : List (String × α)) :
    sortKeys (m :: members) ≠ [] := by
  rw [sortKeys, foldl_cons]
  exact List.foldlRecOn (motive := (· ≠ [])) members _ (insertKey_ne_nil [])
    fun sorted _ _ _ => insertKey_ne_nil sorted

theorem member?_eq_none {members : List (String × Json)} :
    member? key members = none ↔ ∀ m ∈ members, m.1 ≠ key := by
  induction members with
  | nil => simp [member?]
  | cons m rest ih =>
    obtain ⟨k, v⟩ := m
    rw [member?]
    split
    · next hk => simp [hk]
    · next hk => simp [hk, ih]

end Json

namespace Chunk

/-- The chunk without its metadata. -/
def bare (c : Chunk) : Chunk :=
  { c with metadata := [] }

variable (c : Chunk) {key key' : String} (value : Json)

/-! ## Setting metadata -/

@[simp] theorem bare_setMeta : (c.setMeta key value).bare = c.bare := by
  rw [setMeta]; split <;> rfl

theorem metaAt?_setMeta_of_ne (h : key ≠ key') :
    (c.setMeta key value).metaAt? key' = c.metaAt? key' := by
  rw [setMeta]
  split
  · rfl
  · exact Json.member?_insertKey_of_ne h _

theorem metaAt?_setMeta_self {value : Json} (h : value.isBare = false) :
    (c.setMeta key value).metaAt? key = some value := by
  rw [setMeta, h, metaAt?, Json.member?_eq_lookup]
  simp [Json.lookup_insertKey]

@[simp] theorem bare_setFlag (on : Bool) : (c.setFlag key on).bare = c.bare := by
  cases on <;> simp [setFlag]

/-! ## What is told of a model -/

/-- The chunk without what is told of a model. -/
def withoutModel : Chunk :=
  { c with metadata := c.metadata.filter fun m => m.1 != "orm" && m.1 != "relations" }

variable {c}

theorem withoutModel_setMeta (h : key = "orm" ∨ key = "relations") :
    (c.setMeta key value).withoutModel = c.withoutModel := by
  rw [setMeta]
  split
  · rfl
  · rw [withoutModel, withoutModel, Json.filter_insertKey]
    intro v
    rcases h with rfl | rfl <;> rfl

theorem withoutModel_eq_self (horm : c.metaAt? "orm" = none)
    (hrel : c.metaAt? "relations" = none) : c.withoutModel = c := by
  rw [metaAt?, Json.member?_eq_none] at horm hrel
  have hfilter : (c.metadata.filter fun m => m.1 != "orm" && m.1 != "relations") =
      c.metadata := by
    rw [filter_eq_self]
    intro m hm
    simp [horm m hm, hrel m hm]
  rw [withoutModel, hfilter]

end Chunk

namespace Model

variable (m : Model) (c : Chunk)

@[simp] theorem bare_addTo : (m.addTo c).bare = c.bare := by simp [addTo]

theorem isBare_summary : m.summary.isBare = false :=
  isEmpty_eq_false_iff.2 (Json.sortKeys_cons_ne_nil _ _)

/-- What is told of a model in a chunk that it was entered into. -/
theorem metaAt?_orm_addTo : (m.addTo c).metaAt? "orm" = some m.summary := by
  rw [addTo, Chunk.metaAt?_setMeta_of_ne _ _ (by decide)]
  exact Chunk.metaAt?_setMeta_self c m.isBare_summary

theorem withoutModel_addTo : (m.addTo c).withoutModel = c.withoutModel := by
  rw [addTo, Chunk.withoutModel_setMeta _ (.inr rfl), Chunk.withoutModel_setMeta _ (.inl rfl)]

end Model

namespace Outline

variable (o : Outline) {P : Chunk → Prop} {t : TypeDef}

/-! ## The chunks of an outline -/

@[simp] theorem bare_setOption (c : Chunk) (key : String) (s : Option String) :
    (setOption c key s).bare = c.bare := by
  cases s <;> simp [setOption]

/-- All fields of a chunk at the place of a symbol. -/
theorem baseChunk_eq (kind : ChunkKind) (name filePath : String) (span : Span) :
    o.baseChunk kind name filePath span =
      { kind, name, filePath
        package := o.package
        language := o.language.word
        startLine := max span.startLine 1
        endLine := max span.endLine (max span.startLine 1)
        selectionStart := if span.nameStart > 0 then some span.nameStart else none
        selectionEnd :=
          if span.nameStart > 0 then some (max span.nameEnd span.nameStart) else none } := by
  rw [baseChunk]
  split <;> simp_all [Chunk.new, Chunk.withSelection]

/-- All fields of the chunk of a function or method but its metadata. -/
theorem bare_callableChunk (f : Callable) (kind : ChunkKind) (parent : Option String) :
    (o.callableChunk f kind parent).bare =
      { o.baseChunk kind f.name f.filePath f.span with
        parent, signature := f.signature, docstring := f.doc, code := f.code } := by
  simp only [callableChunk, Chunk.bare_setMeta, Chunk.bare_setFlag, bare_setOption,
    apply_ite Chunk.bare, ite_self]
  simp [Chunk.bare, baseChunk_eq]

/-- All fields of the chunk of a type but its metadata. -/
theorem bare_typeChunk (t : TypeDef) :
    (o.typeChunk t).bare =
      { o.baseChunk (chunkKindOf t.kind) t.name t.filePath t.span with
        package := if t.namespaceName.isEmpty then o.package else t.namespaceName
        signature := t.signature, docstring := t.doc, code := t.code } := by
  simp only [typeChunk, Chunk.bare_setMeta, Chunk.bare_setFlag, bare_setOption,
    apply_ite Chunk.bare]
  split <;> simp [Chunk.bare, baseChunk_eq]

theorem bare_propertyChunk (p : Property) (parent : Option String) :
    (o.propertyChunk p parent).bare =
      { o.baseChunk .property p.name p.filePath p.span with
        parent, signature := p.signature, docstring := p.doc, code := p.code } := by
  rw [propertyChunk]
  split <;> simp only [Chunk.bare_setMeta, Chunk.bare_setFlag, apply_ite Chunk.bare, ite_self] <;>
    simp [Chunk.bare, baseChunk_eq]

theorem bare_bindingChunk (b : Binding) (kind : ChunkKind) (parent : Option String) :
    (o.bindingChunk b kind parent).bare =
      { o.baseChunk kind b.name b.filePath b.span with
        parent, signature := b.signature, docstring := b.doc, code := b.code } := by
  simp only [bindingChunk, Chunk.bare_setMeta, apply_ite Chunk.bare, ite_self]
  simp [Chunk.bare, baseChunk_eq]

theorem bare_sectionChunk (s : Section) :
    (o.sectionChunk s).bare =
      { o.baseChunk .section s.title s.filePath s.span with
        parent := s.path.dropLast.getLast?
        signature := String.ofList (List.replicate s.level '#') ++ " " ++ s.title
        docstring := s.summary, code := s.code } := by
  simp only [sectionChunk, Chunk.bare_setMeta]
  simp [Chunk.bare, baseChunk_eq]

theorem kind_baseChunk (kind : ChunkKind) (name filePath : String) (span : Span) :
    (o.baseChunk kind name filePath span).kind = kind := by
  rw [baseChunk_eq]

theorem kind_callableChunk (f : Callable) (kind : ChunkKind) (parent : Option String) :
    (o.callableChunk f kind parent).kind = kind :=
  (congrArg Chunk.kind (o.bare_callableChunk f kind parent)).trans (o.kind_baseChunk ..)

theorem kind_propertyChunk (p : Property) (parent : Option String) :
    (o.propertyChunk p parent).kind = .property :=
  (congrArg Chunk.kind (o.bare_propertyChunk p parent)).trans (o.kind_baseChunk ..)

theorem kind_bindingChunk (b : Binding) (kind : ChunkKind) (parent : Option String) :
    (o.bindingChunk b kind parent).kind = kind :=
  (congrArg Chunk.kind (o.bare_bindingChunk b kind parent)).trans (o.kind_baseChunk ..)

theorem kind_sectionChunk (s : Section) : (o.sectionChunk s).kind = .section := by
  rw [sectionChunk]
  exact (congrArg Chunk.kind (Chunk.bare_setMeta _ _)).trans (o.kind_baseChunk ..)

theorem kind_fileChunk? {c : Chunk} (hc : o.fileChunk? = some c) : c.kind = .file := by
  rw [fileChunk?] at hc
  split at hc
  · cases hc
  · cases hc
    exact (congrArg Chunk.kind (Chunk.bare_setMeta _ _)).trans (o.kind_baseChunk ..)

variable {o} {c : Chunk}

/-- What holds of the chunks of a type itself and of its members holds of all chunks of the type. -/
theorem forall_typeChunks
    (htype : ∀ methods ∈ [.arr (t.methods.map methodJson), Json.strings (t.methods.map (·.name))],
      P ((o.typeChunk t).setMeta "methods" methods))
    (hmethods : ∀ f ∈ t.methods, P (o.callableChunk f .method (some t.name)))
    (hproperties : ∀ p ∈ t.properties, P (o.propertyChunk p (some t.name)))
    (hconstants : ∀ b ∈ t.constants, P ((o.bindingChunk b .const (some t.name)).setFlag "enum_case"
      (b.isCase && t.kind = .enum))) : ∀ c ∈ o.typeChunks t, P c := by
  rw [typeChunks]
  split
  · exact forall_mem_singleton.2 (htype _ (by simp))
  · simp only [cons_append, forall_mem_cons, forall_mem_append, forall_mem_map]
    exact ⟨htype _ (by simp), ⟨hmethods, hproperties⟩, hconstants⟩

/-- What holds of the chunks of all that is in an outline holds of all its chunks. -/
theorem forall_chunks (hfile : ∀ c, o.fileChunk? = some c → P c)
    (hfunctions : ∀ f ∈ o.functions, P (o.callableChunk f .function f.constructs))
    (htypes : ∀ t ∈ o.types, ∀ c ∈ o.typeChunks t, P c)
    (hconstants : ∀ b ∈ o.constants, P (o.bindingChunk b .const none))
    (hvars : ∀ b ∈ o.vars, P (o.bindingChunk b .var none))
    (hsections : ∀ s ∈ o.sections, P (o.sectionChunk s)) : ∀ c ∈ o.chunks, P c := by
  simp only [chunks, forall_mem_append, Option.mem_toList, forall_mem_map, forall_mem_flatMap]
  exact ⟨⟨⟨⟨⟨hfile, hfunctions⟩, htypes⟩, hconstants⟩, hvars⟩, hsections⟩

/-- A chunk of a type is that of the type itself, or that of a member. -/
theorem mem_typeChunks : ∀ c ∈ o.typeChunks t,
    (∃ methods, c = (o.typeChunk t).setMeta "methods" methods) ∨
      c.kind ∈ [.method, .property, .const] := by
  refine forall_typeChunks (fun methods _ => .inl ⟨methods, rfl⟩)
    (fun f _ => .inr (by simp [kind_callableChunk]))
    (fun p _ => .inr (by simp [kind_propertyChunk])) fun b _ => .inr ?_
  -- The flag of a case leaves the kind alone.
  have hkind : ((o.bindingChunk b .const (some t.name)).setFlag "enum_case"
      (b.isCase && t.kind = .enum)).kind = .const :=
    (congrArg Chunk.kind (Chunk.bare_setFlag _ _)).trans (o.kind_bindingChunk ..)
  simp [hkind]

/-- A chunk of an outline is that of a type, of a function, or of something else that is
    no route. -/
theorem mem_chunks : ∀ c ∈ o.chunks,
    (∃ t ∈ o.types, ∃ methods, c = (o.typeChunk t).setMeta "methods" methods) ∨
      (∃ f ∈ o.functions, c = o.callableChunk f .function f.constructs) ∨
      c.kind ∈ [.file, .method, .property, .const, .var, .section] := by
  refine forall_chunks (fun c hc => .inr (.inr (by simp [kind_fileChunk? o hc])))
    (fun f hf => .inr (.inl ⟨f, hf, rfl⟩)) (fun t ht c hc => ?_)
    (fun b _ => .inr (.inr (by simp [kind_bindingChunk])))
    (fun b _ => .inr (.inr (by simp [kind_bindingChunk])))
    (fun s _ => .inr (.inr (by simp [kind_sectionChunk])))
  rcases mem_typeChunks c hc with ⟨methods, rfl⟩ | hkind
  · exact .inl ⟨t, ht, methods, rfl⟩
  · simp only [mem_cons, not_mem_nil, or_false] at hkind
    rcases hkind with hkind | hkind | hkind <;> exact .inr (.inr (by simp [hkind]))

theorem kind_typeChunk_setMeta (t : TypeDef) (methods : Json) :
    ((o.typeChunk t).setMeta "methods" methods).kind = chunkKindOf t.kind :=
  (congrArg Chunk.kind ((Chunk.bare_setMeta _ _).trans (o.bare_typeChunk t))).trans
    (o.kind_baseChunk ..)

theorem callableChunk_mem_chunks {f : Callable} (hf : f ∈ o.functions) :
    o.callableChunk f .function f.constructs ∈ o.chunks := by
  simp only [chunks, mem_append, mem_map]
  exact .inl (.inl (.inl (.inl (.inr ⟨f, hf, rfl⟩))))

/-- The chunks of functions. -/
theorem exists_function_of_mem_chunks (hc : c ∈ o.chunks) (hk : c.kind = .function) :
    ∃ f ∈ o.functions, c = o.callableChunk f .function f.constructs := by
  rcases mem_chunks _ hc with ⟨t, _, methods, rfl⟩ | hf | hkind
  · rw [kind_typeChunk_setMeta] at hk
    cases htype : t.kind <;> rw [htype] at hk <;> cases hk
  · exact hf
  · rw [hk] at hkind
    exact absurd hkind (by decide)

theorem kind_of_mem_chunks (hc : c ∈ o.chunks) : c.kind ≠ .route := by
  rcases mem_chunks _ hc with ⟨t, _, methods, rfl⟩ | ⟨f, _, rfl⟩ | hkind
  · rw [kind_typeChunk_setMeta]
    cases t.kind <;> decide
  · rw [kind_callableChunk]
    decide
  · intro h
    rw [h] at hkind
    exact absurd hkind (by decide)

end Outline

theorem Route.bare_toChunk (r : Route) :
    r.toChunk.bare =
      { Chunk.new .route (r.method ++ " " ++ r.uri) Language.php.word r.filePath r.line
          r.endLine with
        signature := r.method ++ " " ++ r.uri ++ handlerText r.controller r.action
        code := r.code } := by
  cases h : r.name <;> simp [toChunk, h] <;> rfl

theorem Route.kind_toChunk (r : Route) : r.toChunk.kind = .route :=
  congrArg Chunk.kind r.bare_toChunk

theorem Json.mem_insertKey {α : Type} {key : String} {value : α} {members : List (String × α)}
    {m : String × α} (hm : m ∈ insertKey key value members) : m = (key, value) ∨ m ∈ members := by
  induction members with
  | nil => exact .inl (mem_singleton.1 hm)
  | cons first rest ih =>
    obtain ⟨k, v⟩ := first
    rw [insertKey] at hm
    split at hm
    · exact (mem_cons.1 hm).imp_right (mem_cons_of_mem _)
    · split at hm
      · exact mem_cons.1 hm
      · rcases mem_cons.1 hm with rfl | hm
        · exact .inr mem_cons_self
        · exact (ih hm).imp_right (mem_cons_of_mem _)

end CodeAtlas
