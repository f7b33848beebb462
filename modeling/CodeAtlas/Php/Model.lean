import CodeAtlas.Chunk
import CodeAtlas.ClassName
import CodeAtlas.Text.Snake

/-!
# Eloquent models

A class is a model if its namespace says so, or if its bases lead to a base class
of models (`ClassGraph.isModel`). The bases of a class are looked up among the
classes of the whole run, by their full names; of several classes of one name the
first counts.

What a model declares is read off its properties and methods (`Model.of`): table and
keys, lists of attributes, casts, relations to other models, scopes, accessors and
mutators. It is entered into the metadata of the chunk of the class
(`Model.addTo`).
-/

namespace CodeAtlas

/-- A relation to another model, by the name of the method that declares it. -/
structure Relation where
  name : String
  kind : String
  /-- The full name of the other model; empty if it is not written out. -/
  related : String
  foreignKey : Option String
  localKey : Option String
  deriving DecidableEq, Repr

/-- What a model declares. The properties are sorted by name. -/
structure Model where
  /-- The full name of the class. -/
  className : String
  filePath : String
  startLine : Nat
  strings : List (String × String) := []
  lists : List (String × List String) := []
  maps : List (String × List (String × String)) := []
  relations : List Relation := []
  scopes : List String := []
  accessors : List String := []
  mutators : List String := []

namespace Relation

/-- The methods that declare a relation. -/
def kinds : List String :=
  ["hasOne", "hasMany", "belongsTo", "belongsToMany", "hasManyThrough", "morphTo", "morphMany",
   "morphToMany", "morphedByMany"]

/-- The relation that a method declares: the first call of its body that makes
    one. -/
def of? (method : Callable) (imports : Imports) (namespaceName : String) : Option Relation := do
  let call ← method.bodyCalls.find? fun c => c.receiver = .this && kinds.contains c.name
  let args := if call.name == "morphTo" then [] else call.args
  let keys := (args.drop 1).map Literal.string?
  return {
    name := method.name
    kind := call.name
    related := match args.head?.bind Literal.classToken? with
      | some token => resolveClass token imports namespaceName
      | none => ""
    foreignKey := keys.head?.join
    localKey := (keys.drop 1).head?.join }

/-- A relation as JSON. -/
def toJson (r : Relation) : Json :=
  let optional (key : String) : Option String → List (String × Json)
    | some s => [(key, .str s)]
    | none => []
  .obj (optional "foreign_key" r.foreignKey ++ optional "local_key" r.localKey ++
    [("name", .str r.name), ("related_type", .str r.related), ("relation_kind", .str r.kind)])

end Relation

namespace Model

/-- The properties of a model that hold a string. -/
def stringProperties : List String := ["table", "primaryKey", "connection"]

/-- The properties of a model that hold a list of strings. -/
def listProperties : List String :=
  ["fillable", "guarded", "hidden", "visible", "appends", "with", "dates", "touches"]

/-- The properties of a model that hold a map of strings. -/
def mapProperties : List String := ["casts", "attributes"]

/-- Enters what a property holds, if that can be read off its default. -/
def addProperty (m : Model) (p : Property) : Model :=
  match p.default with
  | none => m
  | some value =>
    if stringProperties.contains p.name then
      match value.string? with
      | some s => { m with strings := Json.insertKey p.name s m.strings }
      | none => m
    else if listProperties.contains p.name then
      let items := value.strings
      if items.isEmpty then m else { m with lists := Json.insertKey p.name items m.lists }
    else if mapProperties.contains p.name then
      let entries := Json.sortKeys value.stringPairs
      if entries.isEmpty then m else { m with maps := Json.insertKey p.name entries m.maps }
    else m

/-- A name with its first letter in lower case. -/
def lowerFirst : List Char → List Char
  | [] => []
  | c :: cs => Text.lower c ++ cs

/-- The attribute whose accessor or mutator a method is by its name: `lead` and
    `Attribute` stand around it. -/
def attribute? (lead : String) (method : String) : Option String := do
  let rest ← Text.strip? lead.toList method.toList
  let inner ← Text.stripEnd? "Attribute".toList rest
  if Text.startsUpper inner then some (String.ofList (Text.snake inner)) else none

/-- The scope that a method makes by its name. -/
def scope? (method : String) : Option String := do
  let rest ← Text.strip? "scope".toList method.toList
  if Text.startsUpper rest then some (String.ofList (lowerFirst rest)) else none

/-- Enters what a method declares: a relation, and if it is public, a scope or how
    an attribute is read or written. -/
def addMethod (imports : Imports) (namespaceName : String) (m : Model) (f : Callable) : Model :=
  let m := { m with relations := m.relations ++ (Relation.of? f imports namespaceName).toList }
  if f.visibility ≠ .everyone then m
  else
    match scope? f.name, attribute? "get" f.name, attribute? "set" f.name with
    | some s, _, _ => { m with scopes := m.scopes ++ [s] }
    | none, some a, _ => { m with accessors := m.accessors ++ [a] }
    | none, none, some a => { m with mutators := m.mutators ++ [a] }
    | none, none, none => m

/-- What a class declares as a model. -/
def of (imports : Imports) (t : TypeDef) : Model :=
  let start : Model :=
    { className := t.qualifiedName, filePath := t.filePath, startLine := t.span.startLine }
  t.methods.foldl (addMethod imports t.namespaceName) (t.properties.foldl addProperty start)

/-- The name of the class without its namespace. -/
def shortName (m : Model) : String :=
  String.ofList (Text.afterLast '\\' m.className.toList)

/-- The chunk is that of the class. -/
def describes (m : Model) (c : Chunk) : Bool :=
  c.filePath == m.filePath && c.startLine == m.startLine && c.name == m.shortName

/-- Strings by key, as JSON. -/
def stringsJson (entries : List (String × String)) : Json :=
  .obj (entries.map fun (k, v) => (k, .str v))

/-- What is told of a model, its relations apart. -/
def summary (m : Model) : Json :=
  let named (key : String) (names : List String) : List (String × Json) :=
    if names.isEmpty then [] else [(key, Json.strings names)]
  .obj (Json.sortKeys (
    [("framework", .str "eloquent")] ++
    m.strings.map (fun (k, v) => (k, .str v)) ++
    m.lists.map (fun (k, v) => (k, Json.strings v)) ++
    m.maps.map (fun (k, v) => (k, stringsJson v)) ++
    named "scopes" m.scopes ++ named "accessors" m.accessors ++ named "mutators" m.mutators))

/-- Enters a model into the metadata of the chunk of its class. -/
def addTo (m : Model) (c : Chunk) : Chunk :=
  (c.setMeta "orm" m.summary).setMeta "relations" (.arr (m.relations.map Relation.toJson))

end Model

/-- A class of a run, with the imports of its file. -/
structure ClassEntry where
  imports : Imports
  type : TypeDef

/-- The classes of a run, no two of one name. -/
abbrev ClassGraph := List ClassEntry

namespace ClassGraph

/-- The class of that full name. -/
def get? (g : ClassGraph) (name : String) : Option ClassEntry :=
  g.find? (·.type.qualifiedName == name)

/-- Adds a class, unless there is one of its name. -/
def insert (g : ClassGraph) (e : ClassEntry) : ClassGraph :=
  match g.get? e.type.qualifiedName with
  | some _ => g
  | none => g ++ [e]

/-- The classes that an outline declares, repeated names included. -/
def classesOf (o : Outline) : List ClassEntry :=
  (o.types.filter (·.kind = .class)).map fun t => ⟨o.imports, t⟩

/-- The classes of some outlines. -/
def ofOutlines (outlines : List Outline) : ClassGraph :=
  (outlines.flatMap classesOf).foldl insert []

/-- The short names of base classes of models. -/
def modelBases : List String := ["Model", "Authenticatable", "Pivot", "MorphPivot"]

/-- Every class of this namespace is a base class of models. -/
def modelNamespace : String := "Illuminate\\Database\\Eloquent\\"

/-- A chain of bases is followed over no more classes than this. -/
def maxChain : Nat := 16

/-- The name starts with that of the namespace of models. -/
def inModelNamespace (name : String) : Bool :=
  (Text.strip? modelNamespace.toList name.toList).isSome

/-- The last part of a name is that of a base class of models. -/
def isModelBase (name : String) : Bool :=
  modelBases.contains (String.ofList (Text.afterLast '\\' name.toList))

/-- Whether the bases of a class lead to a base class of models within `n` classes,
    and the names of all classes visited on the way. No class is visited twice. -/
def chainReaches (g : ClassGraph) : Nat → ClassEntry → List String → Bool × List String
  | 0, _, seen => (false, seen)
  | n + 1, e, seen =>
    if seen.contains e.type.qualifiedName then (false, seen)
    else
      e.type.bases.foldl (fun (found, seen) base =>
        if found then (found, seen)
        else
          let full := resolveClass (.reference base) e.imports e.type.namespaceName
          if inModelNamespace full then (true, seen)
          else
            match g.get? full with
            | some parent => chainReaches g n parent seen
            | none => (isModelBase base, seen))
        (false, e.type.qualifiedName :: seen)

/-- The namespace is one that holds models. -/
def isModelHome (namespaceName : String) : Bool :=
  namespaceName == "App\\Models" ||
    (Text.stripEnd? "\\Models".toList namespaceName.toList).isSome

/-- The class is a model. -/
def isModel (g : ClassGraph) (e : ClassEntry) : Bool :=
  isModelHome e.type.namespaceName || (g.chainReaches maxChain e []).1

/-- The models of a run, in the order of their declaration. -/
def models (g : ClassGraph) : List Model :=
  (g.filter g.isModel).map fun e => Model.of e.imports e.type

end ClassGraph

end CodeAtlas
