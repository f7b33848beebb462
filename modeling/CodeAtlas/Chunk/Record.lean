import CodeAtlas.Chunk
import CodeAtlas.Json.Decode

/-!
# Chunks as JSON

A chunk is written as an object. The selection, the parent and the metadata are
left out when there are none; metadata come last.
-/

namespace CodeAtlas.Chunk

/-- The names of the fields, in the order in which they are written. -/
def fieldNames : List String :=
  ["kind", "name", "package", "language", "file_path", "start_line", "end_line",
   "selection_start", "selection_end", "parent", "signature", "docstring", "code", "metadata"]

/-- A field that is written only if it has a value. -/
def optField {α : Type} (name : String) (toJson : α → Json) : Option α → List (String × Json)
  | none => []
  | some value => [(name, toJson value)]

/-- A chunk as JSON. -/
def toJson (c : Chunk) : Json :=
  .obj (
    [("kind", .str c.kind.word), ("name", .str c.name), ("package", .str c.package),
     ("language", .str c.language), ("file_path", .str c.filePath),
     ("start_line", .nat c.startLine), ("end_line", .nat c.endLine)] ++
    optField "selection_start" .nat c.selectionStart ++
    optField "selection_end" .nat c.selectionEnd ++
    optField "parent" .str c.parent ++
    [("signature", .str c.signature), ("docstring", .str c.docstring), ("code", .str c.code)] ++
    if c.metadata.isEmpty then [] else [("metadata", .obj c.metadata)])

open Json in
/-- The chunk that a JSON value describes. -/
def ofJson? (j : Json) : Option Chunk := do
  let fs ← fields? fieldNames j
  return {
    kind := ← required (asWord? ChunkKind.ofWord?) "kind" fs
    name := ← required asString? "name" fs
    package := ← required asString? "package" fs
    language := ← required asString? "language" fs
    filePath := ← required asString? "file_path" fs
    startLine := ← required asNat? "start_line" fs
    endLine := ← required asNat? "end_line" fs
    selectionStart := ← withDefault none (asOption? asNat?) "selection_start" fs
    selectionEnd := ← withDefault none (asOption? asNat?) "selection_end" fs
    parent := ← withDefault none (asOption? asString?) "parent" fs
    signature := ← required asString? "signature" fs
    docstring := ← required asString? "docstring" fs
    code := ← required asString? "code" fs
    metadata := ← withDefault [] asMap? "metadata" fs }

end CodeAtlas.Chunk
