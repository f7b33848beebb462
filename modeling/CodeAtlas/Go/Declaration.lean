import CodeAtlas.Comment
import CodeAtlas.Go.Rendering
import CodeAtlas.Location
import CodeAtlas.Text.Case

/-!
# Declarations of Go files

What the declarations of a file say: names, types, parameters and documentation,
each with a base name for its key. Functions are keyed by their name, methods by
their receiver's type and their name, constants and variables by their name behind
the word that declares them.

`locations` gives the same base names with the places of the declarations. A
specification that stands alone is located by its whole declaration.
-/

namespace CodeAtlas.Go

open Grammar

/-- A file of a package. -/
structure File where
  path : String
  source : Source
  tree : ParseTree Kind

/-- What a function or method declaration says. -/
structure FuncDoc where
  key : String := ""
  name : String
  /-- The type that the receiver is of, without pointer and type arguments. -/
  receiverType : Option String := none
  /-- The receiver as it is written. -/
  receiver : Option String := none
  typeParams : String := ""
  params : List Param := []
  returns : List String := []
  parenthesized : Bool := false
  doc : String := ""
  file : Nat := 0

/-- What a type declaration says, with the methods and constructors of the
    type. -/
structure TypeDoc where
  key : String := ""
  name : String
  kind : TypeKind := .other
  typeParams : String := ""
  underlying : String := ""
  fields : List Field := []
  interfaceMethods : List FuncDoc := []
  doc : String := ""
  file : Nat := 0
  methods : List FuncDoc := []
  constructors : List FuncDoc := []

/-- What the declaration of a constant or variable says. -/
structure ValueDoc where
  key : String := ""
  name : String
  type : String := ""
  value : String := ""
  isConst : Bool
  doc : String := ""
  file : Nat := 0

/-- A declaration. -/
inductive Declaration where
  | func (f : FuncDoc)
  | method (f : FuncDoc)
  | type (t : TypeDoc)
  | value (v : ValueDoc)

/-- The parameters and results behind a function's name. -/
def FuncDoc.shape (f : FuncDoc) : String :=
  "(" ++ paramsText f.params ++ ")" ++ resultsText f.returns f.parenthesized

/-- The declaration of a function without its body. -/
def FuncDoc.signature (f : FuncDoc) : String :=
  let receiver := match f.receiver with
    | some r => "(" ++ r ++ ") "
    | none => ""
  "func " ++ receiver ++ f.name ++ f.typeParams ++ f.shape

/-- A method as it is listed in an interface. -/
def FuncDoc.methodSpec (f : FuncDoc) : String :=
  f.name ++ f.shape

/-- The declaration of a type without its members. -/
def TypeDoc.signature (t : TypeDoc) : String :=
  let head := "type " ++ t.name ++ t.typeParams
  match t.kind with
  | .struct => head ++ " struct"
  | .interface => head ++ " interface"
  | .synonym => head ++ " = " ++ t.underlying
  | _ => head ++ " " ++ t.underlying

/-- The declaration of a constant or variable. -/
def ValueDoc.signature (v : ValueDoc) : String :=
  (if v.isConst then "const " else "var ") ++ v.name ++
    (if v.type.isEmpty then "" else " " ++ v.type) ++
    if v.value.isEmpty then "" else " = " ++ v.value

/-- The name is visible outside its package. -/
def isExported (name : String) : Bool :=
  Text.startsUpper name.toList

/-- The name of the type that a receiver is of: `*List[T]` is a `List`. -/
def receiverBase (type : String) : String :=
  String.ofList ((type.toList.dropWhile (· == '*')).takeWhile (· != '['))

/-- The receiver of a method as it is written, and the type it is of. -/
def receiverOf (source : Source) (method : ParseTree Kind) : Option (String × String) := do
  let list ← method.part? .receiver
  let p ← (paramsOf source list).head?
  return (Param.text p, receiverBase p.type)

/-- The specifications of the kinds `kinds` in a declaration, be they in a list of
    their own or not. -/
def specs (kinds : List Kind) (decl : ParseTree Kind) : List (Sited Kind) :=
  (Sited.partsOf decl).flatMap fun s =>
    if kinds.any s.tree.isKind then [s]
    else if s.tree.isKind .importList || s.tree.isKind .varList then
      (Sited.partsOf s.tree).filter fun u => kinds.any u.tree.isKind
    else []

/-- The declaration holds one specification and has no parenthesis of its own. -/
def isSingle (kinds : List Kind) (decl : ParseTree Kind) : Bool :=
  !decl.parts.any (ParseTree.isSign "(") && (specs kinds decl).length == 1

/-- The kinds of type specifications. -/
def typeKinds : List Kind := [.typeSpec, .typeAlias]

/-- The text of an optional part, on one line. -/
def partText (source : Source) (r : Role) (t : ParseTree Kind) : String :=
  match t.part? r with
  | some u => collapseString (u.text source)
  | none => ""

/-- The documentation of a node. -/
def docOf (source : Source) (s : Sited Kind) : String :=
  Comment.docOf isComment source s

/-- What a function, a method or an element of an interface says. -/
def funcDoc (source : Source) (file : Nat) (s : Sited Kind) (name : String)
    (receiver : Option (String × String)) : FuncDoc :=
  let t := s.tree
  let result := t.part? .result
  { name
    receiverType := receiver.map (·.2)
    receiver := receiver.map (·.1)
    typeParams := partText source .typeParameters t
    params := match t.part? .parameters with
      | some list => paramsOf source list
      | none => []
    returns := match result with
      | some r => resultsOf source r
      | none => []
    parenthesized := match result with
      | some r => r.isKind .paramList
      | none => false
    doc := docOf source s
    file }

/-- The name that an embedded type gives its field. -/
def embeddedName (type : String) : String :=
  String.ofList (Text.afterLast '.' (receiverBase type).toList)

/-- The fields of a structure: one for each name, or one for an embedded type. -/
def structFields (source : Source) (struct : ParseTree Kind) : List Field :=
  match struct.nodes.find? (ParseTree.isKind .fieldList) with
  | none => []
  | some list =>
    (Sited.partsOf list).flatMap fun s =>
      match s.tree.isKind .field, s.tree.part? .type with
      | true, some typeTree =>
        let plain := typeText source typeTree
        let tag := (s.tree.part? .tag).map (·.text source)
        let doc := docOf source s
        let line := s.tree.startLine
        match s.tree.partsAs .name with
        | [] =>
          let text := Text.trimStart (s.tree.text source).toList
          let type := if text.head? == some '*' then "*" ++ plain else plain
          [{ name := embeddedName type, type, tag, doc, embedded := true, line }]
        | names =>
          names.map fun name => { name := name.text source, type := plain, tag, doc, line }
      | _, _ => []

/-- The methods of an interface. -/
def interfaceMethods (source : Source) (file : Nat) (interface : ParseTree Kind) : List FuncDoc :=
  (Sited.partsOf interface).filterMap fun s =>
    if s.tree.isKind .methodElem then
      (s.tree.part? .name).map fun name => funcDoc source file s (name.text source) none
    else none

/-- What an interface embeds. -/
def interfaceEmbeds (source : Source) (interface : ParseTree Kind) : List Field :=
  (Sited.partsOf interface).filterMap fun s =>
    if s.tree.isKind .typeElem then
      let type := typeText source s.tree
      some {
        name := String.ofList (Text.afterLast '.' type.toList)
        type
        doc := docOf source s
        embedded := true
        line := s.tree.startLine }
    else none

/-- What the specification of a type says. -/
def typeDoc (source : Source) (file : Nat) (s : Sited Kind) (name : String) : TypeDoc :=
  let base : TypeDoc := {
    name, typeParams := partText source .typeParameters s.tree, doc := docOf source s, file }
  match s.tree.part? .type with
  | none => base
  | some type =>
    let base := { base with underlying := typeText source type }
    if s.tree.isKind .typeAlias then { base with kind := .synonym }
    else if type.isKind .struct then
      { base with kind := .struct, fields := structFields source type }
    else if type.isKind .interface then
      { base with
        kind := .interface
        fields := interfaceEmbeds source type
        interfaceMethods := interfaceMethods source file type }
    else base

/-- What the specification of constants or variables says, one value for each of
    its names. -/
def valueDocs (source : Source) (file : Nat) (isConst : Bool) (s : Sited Kind) :
    List ValueDoc :=
  let type := match s.tree.part? .type with
    | some u => typeText source u
    | none => ""
  let values := match s.tree.part? .value with
    | some list => (solidNodes list).map (valueText source)
    | none => []
  let doc := docOf source s
  (s.tree.partsAs .name).mapIdx fun i name =>
    { name := name.text source, type, value := values.getD i "", isConst, doc, file }

/-- The base name of a declaration's key. -/
def Declaration.base : Declaration → String
  | .func f => f.name
  | .method f => f.receiverType.getD "" ++ "." ++ f.name
  | .type t => t.name
  | .value v => (if v.isConst then "const:" else "var:") ++ v.name

/-- The declaration with its key. -/
def Declaration.withKey (key : String) : Declaration → Declaration
  | .func f => .func { f with key }
  | .method f => .method { f with key }
  | .type t => .type { t with key }
  | .value v => .value { v with key }

/-- The kind of the specifications in a declaration of constants (or variables). -/
def valueKind (isConst : Bool) : Kind :=
  if isConst then .constSpec else .varSpec

/-- What the constants (or variables) of a declaration say. Those without a
    comment of their own share that of the declaration. -/
def valueDeclarations (source : Source) (file : Nat) (isConst : Bool) (s : Sited Kind) :
    List Declaration :=
  let shared := docOf source s
  (specs [valueKind isConst] s.tree).flatMap fun spec =>
    (valueDocs source file isConst spec).map fun v =>
      .value (if v.doc.isEmpty then { v with doc := shared } else v)

/-- What the declarations of one node at the top of a file say. -/
def declarationsAt (source : Source) (file : Nat) (s : Sited Kind) : List Declaration :=
  match s.tree.kind? with
  | some .funcDecl =>
    match s.tree.part? .name with
    | some name => [.func (funcDoc source file s (name.text source) none)]
    | none => []
  | some .methodDecl =>
    match s.tree.part? .name with
    | some name =>
      [.method (funcDoc source file s (name.text source) (receiverOf source s.tree))]
    | none => []
  | some .typeDecl =>
    (specs typeKinds s.tree).filterMap fun spec =>
      (spec.tree.part? .name).map fun name =>
        let t := typeDoc source file spec (name.text source)
        .type (if t.doc.isEmpty then { t with doc := docOf source s } else t)
  | some .constDecl => valueDeclarations source file true s
  | some .varDecl => valueDeclarations source file false s
  | _ => []

/-- What the declarations of a file say, in source order. -/
def File.declarations (i : Nat) (f : File) : List Declaration :=
  (Sited.partsOf f.tree).flatMap (declarationsAt f.source i)

/-- The places of the names that a declaration of constants or variables makes. -/
def valueLocations (source : Source) (file : Nat) (isConst : Bool) (decl : ParseTree Kind) :
    List (String × Location) :=
  let kinds := [valueKind isConst]
  (specs kinds decl).flatMap fun spec =>
    let whole := if isSingle kinds decl then decl else spec.tree
    (spec.tree.partsAs .name).map fun name =>
      ((if isConst then "const:" else "var:") ++ name.text source,
        Location.ofTree file whole (some name))

/-- The base names and places of the declarations of one node at the top of a
    file. -/
def locationsAt (source : Source) (file : Nat) (t : ParseTree Kind) : List (String × Location) :=
  match t.kind? with
  | some .funcDecl =>
    match t.part? .name with
    | some name => [(name.text source, .ofTree file t (some name))]
    | none => []
  | some .methodDecl =>
    match t.part? .name with
    | some name =>
      let base := ((receiverOf source t).map (·.2)).getD ""
      [(base ++ "." ++ name.text source, .ofTree file t (some name))]
    | none => []
  | some .typeDecl =>
    (specs typeKinds t).filterMap fun spec =>
      (spec.tree.part? .name).map fun name =>
        let whole := if isSingle typeKinds t then t else spec.tree
        (name.text source, .ofTree file whole (some name))
  | some .constDecl => valueLocations source file true t
  | some .varDecl => valueLocations source file false t
  | _ => []

/-- The base names and places of the declarations of a file, in source order. -/
def File.locations (i : Nat) (f : File) : List (String × Location) :=
  f.tree.nodes.flatMap (locationsAt f.source i)

/-- The first specification of variables in a file. -/
def firstVariables? (tree : ParseTree Kind) : Option (ParseTree Kind) := do
  let decl ← tree.nodes.find? (ParseTree.isKind .varDecl)
  let spec ← (specs [.varSpec] decl).head?
  return spec.tree

/-- The text of the type that the first variables of a file are declared with. -/
def firstVariableType? (source : Source) (tree : ParseTree Kind) : Option String := do
  let type ← (← firstVariables? tree).part? .type
  return typeText source type

/-- The text of the first value that the first variables of a file are given. -/
def firstVariableValue? (source : Source) (tree : ParseTree Kind) : Option String := do
  let value ← (← (← firstVariables? tree).part? .value).nodes.head?
  return valueText source value

end CodeAtlas.Go
