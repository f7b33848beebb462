import CodeAtlas.Comment
import CodeAtlas.Location
import CodeAtlas.Path
import CodeAtlas.Php.Call
import CodeAtlas.Text.Case

/-!
# Outlines of PHP files

What a file declares at its top and in its namespaces: imports, classes,
interfaces, traits and enumerations with their members, functions and constants.
The package of a file is the first namespace it names. Documentation is the block
comment with two asterisks directly above a declaration.
-/

namespace CodeAtlas.Php

open Grammar

/-- The documentation of a declaration. -/
def docOf (source : Source) (s : Sited Kind) : String :=
  match (leadingComments isComment s).getLast? with
  | some c =>
    let text := c.text source
    if (Text.strip? ['/', '*', '*'] text.toList).isSome then Comment.clean text else ""
  | none => ""

/-- A declaration up to its body, on one line, without its attributes. -/
def headerOf (source : Source) (t : ParseTree Kind) : String :=
  let start := match t.parts.find? fun p => !p.isKind .attributes && !isComment p with
    | some p => p.extent.start.byte
    | none => t.extent.start.byte
  let stop := match t.part? .body with
    | some b => b.extent.start.byte
    | none => t.extent.stop.byte
  let text := (source.excerpt start stop).toList
  String.ofList (Text.collapse (Text.dropEnd (· == ';') (Text.trimEnd text)))

/-- The names among the parts of a clause. -/
def namesIn (source : Source) (clause : ParseTree Kind) : List String :=
  (clause.nodes.filter isName).map (·.text source)

/-- The text of a part, on one line. -/
def partText? (source : Source) (r : Role) (t : ParseTree Kind) : Option String :=
  (t.part? r).map fun p => collapseString (p.text source)

/-- The visibility that a mark stands for. -/
def visibilityOf (source : Source) (mark : ParseTree Kind) : Visibility :=
  match foldCase (mark.text source) with
  | "private" => .owner
  | "protected" => .heirs
  | _ => .everyone

/-- The visibility of a member: that of the last mark it has. -/
def memberVisibility (source : Source) (t : ParseTree Kind) : Visibility :=
  match (t.parts.filter (·.isKind .visibility)).getLast? with
  | some mark => visibilityOf source mark
  | none => .everyone

/-- A mark of the kind `k` stands among the parts. -/
def hasMark (k : Kind) (t : ParseTree Kind) : Bool :=
  t.parts.any (ParseTree.isKind k)

/-- The parameters in a list of them. -/
def paramsOf (source : Source) (list : ParseTree Kind) : List Param :=
  list.nodes.filterMap fun t =>
    if t.isKind .param || t.isKind .promotedParam || t.isKind .variadicParam then
      some
        { name := ((t.part? .name).map (·.text source)).getD ""
          type := (partText? source .type t).getD ""
          default := partText? source .default t
          variadic := t.isKind .variadicParam }
    else none

/-- The names of classes in a type: its parts that start with a capital letter. -/
def classesIn (type : String) : List String :=
  (Text.splitOn (fun c => ['|', '&', '?', '(', ')'].contains c) type.toList).filterMap fun part =>
    let part := (Text.trim part).dropWhile (· == '\\')
    if Text.startsUpper part then some (String.ofList part) else none

/-- A function or a method. -/
def callableOf (source : Source) (path : String) (s : Sited Kind) : Callable :=
  let t := s.tree
  let name := t.part? .name
  let params := ((t.part? .parameters).map (paramsOf source)).getD []
  let returns := (partText? source .result t).toList
  let body := t.part? .body
  { name := (name.map (·.text source)).getD ""
    filePath := path
    span := t.spanWithName name
    signature := headerOf source t
    doc := docOf source s
    code := t.text source
    params, returns
    visibility := memberVisibility source t
    isStatic := hasMark .staticMark t
    isAbstract := hasMark .abstractMark t
    calls := (body.map (callNames source)).getD []
    typeDeps := ((params.map (·.type) ++ returns).flatMap classesIn).foldl pushUnique []
    bodyCalls := (body.map (bodyCalls source)).getD [] }

/-- The properties that one declaration makes. -/
def propertiesOf (source : Source) (path : String) (s : Sited Kind) : List Property :=
  let t := s.tree
  let type := (partText? source .type t).getD ""
  let visibility := memberVisibility source t
  let isStatic := hasMark .staticMark t
  (t.nodes.filter (·.isKind .propertyElement)).filterMap fun element => do
    let var ← element.nodes.find? (·.isKind .variable)
    let name := String.ofList ((var.text source).toList.dropWhile (· == '$'))
    return {
      name
      filePath := path
      span := t.spanWithName (some var)
      signature := visibility.word ++ (if isStatic then " static" else "") ++
        (if type.isEmpty then "" else " " ++ type) ++ " $" ++ name
      doc := docOf source s
      code := t.text source
      type, visibility, isStatic
      default := (element.part? .default).map (literalOf source) }

/-- The constants that one declaration makes. What follows the name is the
    value. -/
def constantsOf (source : Source) (path : String) (s : Sited Kind) : List Binding :=
  let t := s.tree
  (t.nodes.filter (·.isKind .constElement)).filterMap fun element => do
    let name ← element.nodes.head?
    let value := ((element.nodes.drop 1).head?.map fun v => collapseString (v.text source)).getD ""
    return {
      name := name.text source
      filePath := path
      span := t.spanWithName (some name)
      signature := "const " ++ name.text source ++ " = " ++ value
      doc := docOf source s
      code := t.text source
      value }

/-- A case of an enumeration. -/
def enumCaseOf? (source : Source) (path : String) (s : Sited Kind) : Option Binding := do
  let name ← s.tree.part? .name
  let value := (partText? source .value s.tree).getD ""
  return {
    name := name.text source
    filePath := path
    span := s.tree.spanWithName (some name)
    signature := "case " ++ name.text source ++ (if value.isEmpty then "" else " = " ++ value)
    doc := docOf source s
    code := s.tree.text source
    type := "case"
    value }

/-- The members in the body of a type that satisfy `p`. -/
def membersOf (p : ParseTree Kind → Bool) (body : Option (ParseTree Kind)) : List (Sited Kind) :=
  match body with
  | some b => (Sited.partsOf b).filter fun s => p s.tree
  | none => []

/-- A declared type with its members. -/
def typeOf? (source : Source) (path namespaceName : String) (kind : TypeKind) (s : Sited Kind) :
    Option TypeDef := do
  let t := s.tree
  let name ← t.part? .name
  let clause (k : Kind) := (t.nodes.filter (·.isKind k)).flatMap (namesIn source)
  let members (k : Kind) := membersOf (ParseTree.isKind k) (t.part? .body)
  let bases := clause .bases
  let interfaces := clause .interfaces
  let traits := (members .traitUse).flatMap fun u => namesIn source u.tree
  return {
    name := name.text source
    kind
    filePath := path
    span := t.spanWithName (some name)
    signature := headerOf source t
    doc := docOf source s
    code := t.text source
    namespaceName, bases, interfaces, traits
    methods := (members .method).map (callableOf source path)
    properties := (members .property).flatMap (propertiesOf source path)
    constants :=
      (membersOf (fun m => m.isKind .constDecl || m.isKind .enumCase) (t.part? .body)).flatMap
        fun m =>
          if m.tree.isKind .constDecl then constantsOf source path m
          else (enumCaseOf? source path m).toList
    dependencies := (bases ++ interfaces ++ traits).foldl pushUnique []
    isAbstract := hasMark .abstractMark t }

/-- What one clause of an import declaration brings in, with the path in front of
    its group if it is in one. -/
def importOf (source : Source) (group : Option String) (clause : ParseTree Kind) : Import :=
  let text := Text.collapse (clause.text source).toList
  let text := match Text.strip? "function ".toList text, Text.strip? "const ".toList text with
    | some rest, _ => rest
    | none, some rest => rest
    | none, none => text
  let cut := match Text.cutAt? " as ".toList text, Text.cutAt? " AS ".toList text with
    | some cut, _ => some cut
    | none, cut => cut
  let target := (match cut with
    | some (target, _) => Text.trim target
    | none => Text.trim text).dropWhile (· == '\\')
  let target := match group with
    | some g => g.toList ++ '\\' :: target
    | none => target
  let name := match cut with
    | some (_, name) => Text.trim name
    | none => Text.afterLast '\\' target
  ⟨String.ofList name, String.ofList target⟩

/-- The imports of a declaration. One that is marked as a whole as importing
    functions or constants brings in no class. -/
def importsOf (source : Source) (t : ParseTree Kind) : Imports :=
  if t.parts.any fun p => p.isSign "function" || p.isSign "const" then []
  else
    let group := (t.nodes.find? (·.isKind .namespaceName)).map fun n =>
      String.ofList ((n.text source).toList.dropWhile (· == '\\'))
    t.nodes.flatMap fun p =>
      if p.isKind .useClause then [importOf source group p]
      else if p.isKind .useGroup then
        (p.nodes.filter (·.isKind .useClause)).map (importOf source group)
      else []

/-- What was read of a file, and the namespace in force. -/
structure Progress where
  outline : Outline
  namespaceName : String

/-- Enters a type. -/
def Progress.addType (p : Progress) (source : Source) (kind : TypeKind) (s : Sited Kind) :
    Progress :=
  let types := p.outline.types ++ (typeOf? source p.outline.path p.namespaceName kind s).toList
  { p with outline := { p.outline with types } }

/-- Enters a declaration that is no namespace. -/
def Progress.addDeclaration (p : Progress) (source : Source) (kind : Kind) (s : Sited Kind) :
    Progress :=
  let o := p.outline
  match kind with
  | .useDecl => { p with outline := { o with imports := o.imports ++ importsOf source s.tree } }
  | .classDecl => p.addType source .class s
  | .interfaceDecl => p.addType source .interface s
  | .traitDecl => p.addType source .trait s
  | .enumDecl => p.addType source .enum s
  | .functionDecl =>
    { p with outline := { o with functions := o.functions ++ [callableOf source o.path s] } }
  | .constDecl =>
    { p with outline := { o with constants := o.constants ++ constantsOf source o.path s } }
  | _ => p

/-- Enters the name of a namespace; the first one is the package. -/
def Progress.enterNamespace (p : Progress) (name : String) : Progress :=
  let o := p.outline
  { outline := if o.package.isEmpty then { o with package := name } else o
    namespaceName := name }

mutual

/-- Reads one of the parts of a file or a namespace; `before` are the nodes before
    it, nearest first. -/
def readPart (source : Source) (before : List (ParseTree Kind)) (p : Progress) :
    ParseTree Kind → Progress
  | .sign .. => p
  | .node kind r extent parts =>
    let t := ParseTree.node kind r extent parts
    match kind with
    | .namespaceDecl =>
      let name := ((t.part? .name).map (·.text source)).getD ""
      let inside := readBody source (p.enterNamespace name) parts
      if (t.part? .body).isSome then { inside with namespaceName := p.namespaceName } else inside
    | _ => p.addDeclaration source kind ⟨before, t⟩

/-- Reads the statements in the body of a namespace. -/
def readBody (source : Source) (p : Progress) : List (ParseTree Kind) → Progress
  | [] => p
  | .sign .. :: ts => readBody source p ts
  | .node kind _ _ parts :: ts =>
    match kind with
    | .block => readBody source (readParts source [] p parts) ts
    | _ => readBody source p ts

/-- Reads the parts of a file or a namespace. -/
def readParts (source : Source) (before : List (ParseTree Kind)) (p : Progress) :
    List (ParseTree Kind) → Progress
  | [] => p
  | t :: ts =>
    readParts source (if t.isNode then t :: before else before) (readPart source before p t) ts

end

/-- The outline of a file with the given tree. -/
def outlineOf (path : String) (source : Source) (file : ParseTree Kind) : Outline :=
  let start : Outline := { language := .php, path := Path.slashed path }
  (readParts source [] ⟨start, ""⟩ file.parts).outline

/-- The outline of a PHP file; none if it does not parse. -/
def outline? (path : String) (source : Source) : Option Outline :=
  (parse? source).map (outlineOf path source)

end CodeAtlas.Php
