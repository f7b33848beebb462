/-!
# JSON values

An object is the list of its members in the order in which they are written. Maps
whose order does not count are kept sorted by key (`Json.insertKey`), so that
equal maps are equal values.
-/

namespace CodeAtlas

/-- A JSON value. A number is a natural number, a negative one, or has a fraction
    or an exponent and is kept as it is written. -/
inductive Json where
  | null
  | bool (b : Bool)
  | nat (n : Nat)
  | negative (n : Nat)
  | decimal (text : String)
  | str (s : String)
  | arr (items : List Json)
  | obj (members : List (String × Json))

namespace Json

/-- Puts a member into a list sorted by key, in place of one with the same
    key. -/
def insertKey {α : Type} (key : String) (value : α) : List (String × α) → List (String × α)
  | [] => [(key, value)]
  | (k, v) :: rest =>
    if key = k then (key, value) :: rest
    else if key < k then (key, value) :: (k, v) :: rest
    else (k, v) :: insertKey key value rest

/-- Sorts members by key; of several with one key the last is kept. -/
def sortKeys {α : Type} (members : List (String × α)) : List (String × α) :=
  members.foldl (fun sorted (k, v) => insertKey k v sorted) []

/-- The value of the first member with the key `key`. -/
def member? (key : String) : List (String × Json) → Option Json
  | [] => none
  | (k, v) :: rest => if k = key then some v else member? key rest

/-- The value carries no information: it is null or an empty string, array or
    object. -/
def isBare : Json → Bool
  | .null => true
  | .str s => s.isEmpty
  | .arr items => items.isEmpty
  | .obj members => members.isEmpty
  | _ => false

/-- An array of strings. -/
def strings (ss : List String) : Json :=
  .arr (ss.map .str)

end Json

end CodeAtlas
