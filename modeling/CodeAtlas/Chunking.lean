import CodeAtlas.Chunk
import CodeAtlas.Outline

/-!
# Chunks of an outline

One chunk for each function, type, member, constant, variable and section, and one
for the unit itself if it is documented. A member's parent is its type, a
section's the section around it, and a function that makes values of a type has
that type as its parent. Methods of a Go interface have no body, so they are
listed in the metadata of the interface only.
-/

namespace CodeAtlas.Outline

/-- A chunk at the place of a symbol. -/
def baseChunk (o : Outline) (kind : ChunkKind) (name filePath : String) (span : Span) : Chunk :=
  let c := Chunk.new kind name o.language.word filePath (max span.startLine 1) span.endLine
  let c := { c with package := o.package }
  if span.nameStart > 0 then c.withSelection span.nameStart span.nameEnd else c

/-- An import as JSON. -/
def importJson (i : Import) : Json :=
  .obj [("alias", .str i.name), ("target", .str i.target)]

/-- A parameter as JSON. -/
def paramJson (p : Param) : Json :=
  .obj (
    (match p.default with
      | some d => [("default", .str d)]
      | none => []) ++
    [("name", .str p.name)] ++
    (if p.type.isEmpty then [] else [("type", .str p.type)]) ++
    if p.variadic then [("variadic", .bool true)] else [])

/-- A field as JSON. -/
def fieldJson (f : Field) : Json :=
  .obj (
    (if f.doc.isEmpty then [] else [("doc", .str f.doc)]) ++
    (if f.embedded then [("embedded", .bool true)] else []) ++
    [("line", .nat f.line), ("name", .str f.name)] ++
    (match f.tag with
      | some t => [("tag", .str t)]
      | none => []) ++
    [("type", .str f.type)])

/-- The chunk of a documented unit. -/
def fileChunk? (o : Outline) : Option Chunk :=
  if o.doc.isEmpty then none
  else
    let signature := match o.language with
      | .go => "package " ++ o.package
      | .python => "module " ++ o.package
      | .php | .markdown => ""
    let c := { o.baseChunk .file o.package o.docFile o.docSpan with signature, docstring := o.doc }
    some (c.setMeta "imports" (.arr (o.imports.map importJson)))

/-- Enters a string into the metadata if there is one. -/
def setOption (c : Chunk) (key : String) : Option String → Chunk
  | some s => c.setMeta key (.str s)
  | none => c

/-- The chunk of a function or a method. -/
def callableChunk (o : Outline) (f : Callable) (kind : ChunkKind) (parent : Option String) :
    Chunk :=
  let c := { o.baseChunk kind f.name f.filePath f.span with
    parent, signature := f.signature, docstring := f.doc, code := f.code }
  let c := c.setMeta "params" (.arr (f.params.map paramJson))
  let c := c.setMeta "returns" (Json.strings f.returns)
  let c := c.setMeta "decorators" (Json.strings f.decorators)
  let c := setOption c "receiver" f.receiver
  let c := if o.language = .php ∧ kind = .method then
      c.setMeta "visibility" (.str f.visibility.word) else c
  let c := setOption c "constructor_of" f.constructs
  let c := c.setFlag "is_static" f.isStatic
  let c := c.setFlag "is_abstract" f.isAbstract
  let c := c.setFlag "is_async" f.isAsync
  let c := c.setFlag "is_classmethod" (f.decorators.contains "classmethod")
  let c := c.setMeta "calls" (Json.strings f.calls)
  c.setMeta "type_deps" (Json.strings f.typeDeps)

/-- The chunk of a property. -/
def propertyChunk (o : Outline) (p : Property) (parent : Option String) : Chunk :=
  let c := { o.baseChunk .property p.name p.filePath p.span with
    parent, signature := p.signature, docstring := p.doc, code := p.code }
  let c := c.setMeta "type" (.str p.type)
  let c := if o.language = .php then c.setMeta "visibility" (.str p.visibility.word) else c
  let c := c.setFlag "is_static" p.isStatic
  let c := c.setFlag "getter" p.hasGetter
  let c := c.setFlag "setter" p.hasSetter
  let c := c.setFlag "deleter" p.hasDeleter
  match p.default.bind Literal.toJson? with
  | some j => c.setMeta "default" j
  | none => c

/-- The chunk of a constant or a variable. -/
def bindingChunk (o : Outline) (b : Binding) (kind : ChunkKind) (parent : Option String) :
    Chunk :=
  let c := { o.baseChunk kind b.name b.filePath b.span with
    parent, signature := b.signature, docstring := b.doc, code := b.code }
  let c := if b.isCase then c else c.setMeta "type" (.str b.type)
  c.setMeta "value" (.str b.value)

/-- The kind of chunk that a type makes. -/
def chunkKindOf : TypeKind → ChunkKind
  | .class => .class
  | .interface => .interface
  | .trait => .trait
  | .struct | .synonym | .enum | .other => .type

/-- The chunk of a type, without those of its members and without its methods in
    the metadata. -/
def typeChunk (o : Outline) (t : TypeDef) : Chunk :=
  let c := { o.baseChunk (chunkKindOf t.kind) t.name t.filePath t.span with
    signature := t.signature, docstring := t.doc, code := t.code }
  let c := if t.namespaceName.isEmpty then c
    else { c with package := t.namespaceName }.setMeta "qualified_name" (.str t.qualifiedName)
  let c := c.setMeta "type_kind" (.str t.kind.word)
  let c := c.setMeta "fields" (.arr (t.fields.map fieldJson))
  let c := c.setMeta "bases" (Json.strings t.bases)
  let c := c.setMeta "interfaces" (Json.strings t.interfaces)
  let c := c.setMeta "traits" (Json.strings t.traits)
  let c := c.setMeta "decorators" (Json.strings t.decorators)
  let c := setOption c "metaclass" t.metaclass
  let c := c.setMeta "dependencies" (Json.strings t.dependencies)
  c.setFlag "is_abstract" t.isAbstract

/-- A method without a body, as JSON. -/
def methodJson (m : Callable) : Json :=
  .obj [("doc", .str m.doc), ("name", .str m.name), ("signature", .str m.signature)]

/-- The chunks of a type and of its members. -/
def typeChunks (o : Outline) (t : TypeDef) : List Chunk :=
  let c := o.typeChunk t
  if t.kind = .interface ∧ o.language = .go then
    [c.setMeta "methods" (.arr (t.methods.map methodJson))]
  else
    let parent := some t.name
    c.setMeta "methods" (Json.strings (t.methods.map (·.name))) ::
      t.methods.map (o.callableChunk · .method parent) ++
      t.properties.map (o.propertyChunk · parent) ++
      t.constants.map fun b =>
        (o.bindingChunk b .const parent).setFlag "enum_case" (b.isCase && t.kind = .enum)

/-- The chunk of a section. -/
def sectionChunk (o : Outline) (s : Section) : Chunk :=
  let c := { o.baseChunk .section s.title s.filePath s.span with
    parent := s.path.dropLast.getLast?
    signature := String.ofList (List.replicate s.level '#') ++ " " ++ s.title
    docstring := s.summary
    code := s.code }
  (c.setMeta "level" (.nat s.level)).setMeta "path" (Json.strings s.path)

/-- The chunks of an outline. -/
def chunks (o : Outline) : List Chunk :=
  o.fileChunk?.toList ++
    o.functions.map (fun f => o.callableChunk f .function f.constructs) ++
    o.types.flatMap o.typeChunks ++
    o.constants.map (o.bindingChunk · .const none) ++
    o.vars.map (o.bindingChunk · .var none) ++
    o.sections.map o.sectionChunk

end CodeAtlas.Outline
