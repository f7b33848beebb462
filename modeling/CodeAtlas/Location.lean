import CodeAtlas.Grammar.Tree
import CodeAtlas.Outline

/-!
# Where declarations stand

Each declaration of a unit has a key, by which its place is looked up. A name that
is declared again gets a number (`Keys.assign`), so that no two declarations share
a key; the first place entered under a key stays (`Index.insert`).
-/

namespace CodeAtlas

namespace Grammar.ParseTree

variable {κ : Type}

/-- The lines of a tree. -/
def span (t : ParseTree κ) : Span :=
  Span.lines t.startLine t.endLine

/-- The lines of a declaration and those of its name. -/
def spanWithName (decl : ParseTree κ) : Option (ParseTree κ) → Span
  | some name => decl.span.withName name.startLine name.endLine
  | none => decl.span

end Grammar.ParseTree

namespace Keys

/-- The key of a name, and the names seen from then on: the name itself at first,
    with its number behind it from the second time on. -/
def next (seen : List String) (base : String) : String × List String :=
  let count := seen.count base + 1
  (if count = 1 then base else base ++ "#" ++ toString count, base :: seen)

/-- The keys of names in their order, after those in `seen`. -/
def assignFrom (seen : List String) : List String → List String
  | [] => []
  | base :: bases => (next seen base).1 :: assignFrom (next seen base).2 bases

/-- The keys of names in their order. -/
def assign (bases : List String) : List String :=
  assignFrom [] bases

end Keys

/-- The place of a declaration: the number of its file, its bytes and its lines. -/
structure Location where
  file : Nat
  startByte : Nat
  endByte : Nat
  span : Span
  deriving DecidableEq, Repr

namespace Location

open Grammar in
/-- The place of a declaration with its name. -/
def ofTree {κ : Type} (file : Nat) (decl : ParseTree κ) (name : Option (ParseTree κ)) : Location :=
  ⟨file, decl.extent.start.byte, decl.extent.stop.byte, decl.spanWithName name⟩

/-- The source at a place. -/
def excerpt (l : Location) (source : Source) : String :=
  source.excerpt l.startByte l.endByte

/-- Places by key. -/
abbrev Index := List (String × Location)

/-- The place under a key. -/
def Index.get? (index : Index) (key : String) : Option Location :=
  (index.find? (·.1 == key)).map (·.2)

/-- Enters a place, unless there is one under its key. -/
def Index.insert (index : Index) (key : String) (l : Location) : Index :=
  match index.get? key with
  | some _ => index
  | none => index ++ [(key, l)]

/-- Enters places in their order. -/
def Index.ofList (entries : List (String × Location)) : Index :=
  entries.foldl (fun index (key, l) => index.insert key l) []

end Location

end CodeAtlas
