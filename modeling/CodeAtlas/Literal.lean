import CodeAtlas.Json.Basic

/-!
# Literals

The values of initializers and call arguments, as far as they can be read off the
source: strings, lists, maps, names, references to classes. All else is `unknown`,
and whatever is folded from a literal is all or nothing: one part
that is not a string empties the result.
-/

namespace CodeAtlas

/-- A value as it is written in the source. -/
inductive Literal where
  | text (s : String)
  | list (items : List Literal)
  | map (entries : List (Literal × Literal))
  /-- A bare name, such as that of a constant. -/
  | name (s : String)
  | qualifiedName (s : String)
  /-- A reference to a class, by its name as written. -/
  | classRef (s : String)
  | closure
  | unknown

namespace Literal

/-- The string that a literal is. -/
def string? : Literal → Option String
  | .text s => some s
  | _ => none

/-- The strings of a list that holds nothing else. -/
def strings : Literal → List String
  | .list items => (items.mapM string?).getD []
  | _ => []

/-- Key and value of an entry, if both are strings. -/
def stringPair? (entry : Literal × Literal) : Option (String × String) := do
  return (← entry.1.string?, ← entry.2.string?)

/-- The entries of a map whose keys and values are all strings. -/
def stringPairs : Literal → List (String × String)
  | .map entries => (entries.mapM stringPair?).getD []
  | _ => []

mutual

/-- A literal as JSON; none if a part of it has no value. -/
def toJson? : Literal → Option Json
  | .text s => some (.str s)
  | .list items => (itemsToJson? items).map .arr
  | .map entries => (entriesToJson? entries).map fun ms => .obj (Json.sortKeys ms)
  | .classRef s => some (.str (s ++ "::class"))
  | _ => none

/-- The items of a list as JSON. -/
def itemsToJson? : List Literal → Option (List Json)
  | [] => some []
  | item :: items => do return (← toJson? item) :: (← itemsToJson? items)

/-- The entries of a map as JSON, the keys being strings. -/
def entriesToJson? : List (Literal × Literal) → Option (List (String × Json))
  | [] => some []
  | (key, value) :: entries => do
    return (← key.string?, ← toJson? value) :: (← entriesToJson? entries)

end

end Literal

/-- A class as a literal names it: by a reference, which is resolved through
    imports, or by a string, which holds its full name. -/
inductive ClassToken where
  | reference (s : String)
  | literal (s : String)

/-- The class that a literal names. -/
def Literal.classToken? : Literal → Option ClassToken
  | .classRef s => some (.reference s)
  | .text s => if s.isEmpty then none else some (.literal s)
  | _ => none

end CodeAtlas
