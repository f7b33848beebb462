import CodeAtlas.Json.Basic
import CodeAtlas.Text.Blank

/-!
# Chunks

A chunk is one indexed symbol: what it is called, where it stands, how it is
declared and documented, and its source. Lines count from one and both ends belong
to the chunk; the selection narrows it down to the symbol's name.

Metadata is a map sorted by key. Values that carry no information never enter it
through `Chunk.setMeta`.
-/

namespace CodeAtlas

/-- What kind of symbol a chunk describes. -/
inductive ChunkKind where
  | function | method | type | interface | const | var | «class» | property | trait | route
  | file | section
  deriving DecidableEq, Repr

namespace ChunkKind

/-- All kinds. -/
def all : List ChunkKind :=
  [.function, .method, .type, .interface, .const, .var, .class, .property, .trait, .route,
   .file, .section]

/-- The word for a kind. -/
def word : ChunkKind → String
  | .function => "function"
  | .method => "method"
  | .type => "type"
  | .interface => "interface"
  | .const => "const"
  | .var => "var"
  | .class => "class"
  | .property => "property"
  | .trait => "trait"
  | .route => "route"
  | .file => "file"
  | .section => "section"

/-- The kind that a word names. -/
def ofWord? (s : String) : Option ChunkKind :=
  all.find? (·.word == s)

end ChunkKind

/-- One indexed symbol. -/
structure Chunk where
  kind : ChunkKind
  name : String
  package : String := ""
  language : String
  filePath : String
  startLine : Nat
  endLine : Nat
  selectionStart : Option Nat := none
  selectionEnd : Option Nat := none
  parent : Option String := none
  signature : String := ""
  docstring : String := ""
  code : String := ""
  metadata : List (String × Json) := []

namespace Chunk

/-- A chunk with nothing but its place; it ends no earlier than it starts. -/
def new (kind : ChunkKind) (name language filePath : String) (startLine endLine : Nat) : Chunk :=
  { kind, name, language, filePath, startLine, endLine := max endLine startLine }

/-- Sets the selection, which ends no earlier than it starts. -/
def withSelection (c : Chunk) (start stop : Nat) : Chunk :=
  { c with selectionStart := some start, selectionEnd := some (max stop start) }

/-- Enters a value into the metadata, unless it carries no information. -/
def setMeta (c : Chunk) (key : String) (value : Json) : Chunk :=
  if value.isBare then c else { c with metadata := Json.insertKey key value c.metadata }

/-- Enters a flag into the metadata if it is set. -/
def setFlag (c : Chunk) (key : String) (on : Bool) : Chunk :=
  if on then c.setMeta key (.bool true) else c

/-- The metadata under a key. -/
def metaAt? (c : Chunk) (key : String) : Option Json :=
  Json.member? key c.metadata

/-- The text to search a chunk by: its signature, its documentation and its code,
    each on lines of its own, empty ones left out. -/
def embeddingText (c : Chunk) : String :=
  joinStrings "\n" ([c.signature, c.docstring, c.code].filter (!·.isEmpty))

end Chunk

end CodeAtlas
