import CodeAtlas.Json.Basic

/-!
# Records from JSON

A record with named fields is read from an object, or from an array that lists the
fields in their order. In an object unknown members are passed over, and a field
given twice is an error; in an array the fields at the end may be missing if they
have defaults. `Fields` holds what was given for each field.
-/

namespace CodeAtlas.Json

/-- What is given for the fields of a record, by name. -/
abbrev Fields := List (String × Json)

/-- No field of `names` is given twice. -/
def givenOnce (names : List String) (members : Fields) : Bool :=
  names.all fun name => members.countP (·.1 == name) ≤ 1

/-- The fields of a record with the field names `names`. -/
def fields? (names : List String) : Json → Option Fields
  | .obj members => if givenOnce names members then some members else none
  | .arr items => if items.length ≤ names.length then some (names.zip items) else none
  | _ => none

/-- A field that must be given. -/
def required {α : Type} (read : Json → Option α) (name : String) (fs : Fields) : Option α :=
  (member? name fs).bind read

/-- A field with a value for when it is not given. -/
def withDefault {α : Type} (fallback : α) (read : Json → Option α) (name : String)
    (fs : Fields) : Option α :=
  match member? name fs with
  | none => some fallback
  | some value => read value

/-- A string. -/
def asString? : Json → Option String
  | .str s => some s
  | _ => none

/-- A truth value. -/
def asBool? : Json → Option Bool
  | .bool b => some b
  | _ => none

/-- A natural number. -/
def asNat? : Json → Option Nat
  | .nat n => some n
  | _ => none

/-- A value that null stands for the lack of. -/
def asOption? {α : Type} (read : Json → Option α) : Json → Option (Option α)
  | .null => some none
  | value => (read value).map some

/-- A list. -/
def asList? {α : Type} (read : Json → Option α) : Json → Option (List α)
  | .arr items => items.mapM read
  | _ => none

/-- One of finitely many values, given by its word or as the only member, with the
    value null, of an object. -/
def asWord? {α : Type} (ofWord? : String → Option α) : Json → Option α
  | .str s => ofWord? s
  | .obj [(s, .null)] => ofWord? s
  | _ => none

mutual

/-- The value with the members of all its objects sorted by key. -/
def sorted : Json → Json
  | .arr items => .arr (sortedItems items)
  | .obj members => .obj (sortKeys (sortedMembers members))
  | value => value

/-- The items, each sorted. -/
def sortedItems : List Json → List Json
  | [] => []
  | item :: items => sorted item :: sortedItems items

/-- The members, their values sorted. -/
def sortedMembers : List (String × Json) → List (String × Json)
  | [] => []
  | (key, value) :: members => (key, sorted value) :: sortedMembers members

end

/-- A map from strings to any values. -/
def asMap? : Json → Option (List (String × Json))
  | .obj members => some (sortKeys (sortedMembers members))
  | _ => none

end CodeAtlas.Json
