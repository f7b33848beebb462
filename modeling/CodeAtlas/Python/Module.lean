import CodeAtlas.Path
import CodeAtlas.Python.Docstring
import CodeAtlas.Python.Statement

/-!
# Outlines of Python modules

A block is what follows a line with a greater indentation, up to its last line of
code; comments and blank lines never end one. Of a module, the statements without
indentation are read: classes and functions with their blocks, imports, and values.
Of a class, those with the indentation of its first statement. Decorators belong to
the statement that follows them.

The accessors of a property are merged into one symbol (`mergeAccessor`).
-/

namespace CodeAtlas.Python

open Text

/-- A text being read: its path and its physical lines. -/
structure Script where
  path : String
  physical : List (List Char)

namespace Script

/-- The text of some physical lines, both ends included. -/
def excerpt (s : Script) (first last : Nat) : List Char :=
  joinWith ['\n'] ((s.physical.take last).drop (first - 1))

/-- The text of a logical line. -/
def raw (s : Script) (l : LogicalLine) : List Char :=
  s.excerpt l.first l.last

end Script

/-- How many of the lines below a line with the indentation `indent` belong to its
    block: all up to its last line of code. `passed` counts those since the last
    one that is known to belong to it. -/
def blockLengthFrom (indent passed : Nat) : List LogicalLine → Nat
  | [] => 0
  | l :: rest =>
    if !l.isCode then blockLengthFrom indent (passed + 1) rest
    else if l.indent ≤ indent then 0
    else passed + 1 + blockLengthFrom indent 0 rest

/-- The block below a line. -/
def blockOf (head : LogicalLine) (below : List LogicalLine) : List LogicalLine :=
  below.take (blockLengthFrom head.indent 0 below)

/-- The first statement of a block if it is documentation: its line and its text. -/
def docOf? (s : Script) (block : List LogicalLine) : Option (LogicalLine × List Char) := do
  let line ← block.find? (·.isCode)
  let doc ← docstring? (s.raw line)
  return (line, doc)

/-- A decorator: what stands behind its sign, and its line. -/
structure Decorator where
  text : String
  line : Nat

/-- The decorator on a line. -/
def decoratorOf (l : LogicalLine) : Decorator :=
  ⟨String.ofList (collapse (l.code.dropWhile (· == '@'))), l.first⟩

/-- A declaration with the block below it. -/
structure Declared where
  head : LogicalLine
  block : List LogicalLine
  decorators : List Decorator

namespace Declared

/-- The line on which the declaration starts, its decorators included. -/
def firstLine (d : Declared) : Nat :=
  match d.decorators with
  | dec :: _ => dec.line
  | [] => d.head.first

/-- The last line of the declaration. -/
def lastLine (d : Declared) : Nat :=
  (d.block.getLast?.getD d.head).last

/-- The lines of the declaration, with its name on its own line. -/
def span (d : Declared) : Span :=
  (Span.lines d.firstLine d.lastLine).withName d.head.first d.head.first

/-- The text of the declaration. -/
def code (d : Declared) (s : Script) : String :=
  String.ofList (s.excerpt d.firstLine d.lastLine)

end Declared

/-- The string `s` ends with `tail`. -/
def hasTail (tail s : String) : Bool :=
  (stripEnd? tail.toList s.toList).isSome

/-- A function or a method; `owner` is the class of a method. -/
def callableOf (s : Script) (d : Declared) (header : DefHeader) (owner : Option String) :
    Callable :=
  let doc := docOf? s d.block
  let statements := d.block.filter fun l => l.kind = .code && some l ≠ doc.map (·.1)
  let params := paramsOf header.params
  let shown := trim (dropEnd (· == ',') (collapse header.params))
  let decorators := d.decorators.map (·.text)
  let annotations := params.map (·.type.toList) ++ header.returns.toList
  { name := String.ofList header.name
    filePath := s.path
    span := d.span
    signature := (if header.isAsync then "async " else "") ++ "def " ++ String.ofList header.name ++
      "(" ++ String.ofList shown ++ ")" ++
      match header.returns with
      | some type => " -> " ++ String.ofList type
      | none => ""
    doc := match doc with
      | some (_, text) => String.ofList text
      | none => ""
    code := d.code s
    receiver := owner
    params
    returns := (header.returns.map String.ofList).toList
    decorators
    isStatic := decorators.contains "staticmethod"
    isAbstract := decorators.any (hasTail "abstractmethod")
    isAsync := header.isAsync
    calls := (statements.flatMap fun l => callsIn l.code).foldl pushUnique []
    typeDeps := (annotations.flatMap typesIn).foldl pushUnique [] }

/-- What an accessor does with its property. -/
inductive Access where
  | get | set | delete
  deriving DecidableEq, Repr

/-- What a function does with a property by its first decorator that says so, and
    the name of the property if the decorator gives it. -/
def accessOf? : List String → Option (Access × Option String)
  | [] => none
  | dec :: rest =>
    if ["property", "cached_property", "functools.cached_property"].contains dec then
      some (.get, none)
    else
      match stripEnd? ".setter".toList dec.toList, stripEnd? ".deleter".toList dec.toList with
      | some name, _ => some (.set, some (String.ofList name))
      | none, some name => some (.delete, some (String.ofList name))
      | none, none => accessOf? rest

/-- A property with one more accessor. -/
def Property.withAccessor (s : Script) (access : Access) (f : Callable) (p : Property) : Property :=
  let first := min p.span.startLine f.span.startLine
  let last := max p.span.endLine f.span.endLine
  let p := { p with
    span := { p.span with startLine := first, endLine := last }
    code := String.ofList (s.excerpt first last) }
  match access with
  | .get =>
    let p := { p with
      hasGetter := true
      span := { p.span with nameStart := f.span.nameStart, nameEnd := f.span.nameEnd }
      doc := f.doc }
    match f.returns with
    | type :: _ => { p with type, signature := "@property " ++ p.name ++ " -> " ++ type }
    | [] => p
  | .set => { p with hasSetter := true }
  | .delete => { p with hasDeleter := true }

/-- Merges an accessor into the property of that name, the last of the properties if
    it is new. -/
def mergeAccessor (s : Script) (name : String) (access : Access) (f : Callable) :
    List Property → List Property
  | [] =>
    [Property.withAccessor s access f
      { name, filePath := s.path, span := f.span, signature := "@property " ++ name, code := "" }]
  | p :: ps =>
    if p.name == name then Property.withAccessor s access f p :: ps
    else p :: mergeAccessor s name access f ps

/-- The members of a class. -/
structure Members where
  fields : List Field := []
  methods : List Callable := []
  properties : List Property := []

/-- Enters a function of a class, as a method or as an accessor of a property. -/
def Members.addFunction (m : Members) (s : Script) (f : Callable) : Members :=
  match accessOf? f.decorators with
  | some (access, name) =>
    { m with properties := mergeAccessor s (name.getD f.name) access f m.properties }
  | none => { m with methods := m.methods ++ [f] }

/-- Enters the field that a line makes, if it makes one. -/
def Members.addField (m : Members) (l : LogicalLine) : Members :=
  match assigned? l.code with
  | some a =>
    let field : Field :=
      { name := String.ofList a.name, type := String.ofList a.type, line := l.first }
    { m with fields := m.fields ++ [field] }
  | none => m

/-- Reads the lines in the block of a class, the first `skip` of which belong to a
    member already read. -/
def readMembers (s : Script) (owner : String) (indent : Nat) (doc : Option LogicalLine)
    (skip : Nat) (decorators : List Decorator) (m : Members) : List LogicalLine → Members
  | [] => m
  | l :: rest =>
    match skip with
    | n + 1 => readMembers s owner indent doc n decorators m rest
    | 0 =>
      if !l.isCode || l.indent ≠ indent || some l = doc then
        readMembers s owner indent doc 0 decorators m rest
      else if l.kind = .decorator then
        readMembers s owner indent doc 0 (decorators ++ [decoratorOf l]) m rest
      else
        let block := blockOf l rest
        match defHeader? l.code, classHeader? l.code with
        | some header, _ =>
          let f := callableOf s ⟨l, block, decorators⟩ header (some owner)
          readMembers s owner indent doc block.length [] (m.addFunction s f) rest
        | none, some _ => readMembers s owner indent doc block.length [] m rest
        | none, none => readMembers s owner indent doc 0 [] (m.addField l) rest

/-- The members of a class. -/
def membersOf (s : Script) (owner : String) (doc : Option LogicalLine)
    (block : List LogicalLine) : Members :=
  match block.find? (·.isCode) with
  | some first => readMembers s owner first.indent doc 0 [] {} block
  | none => {}

/-- The metaclass among the arguments of a class, the last one if there are
    several. -/
def metaclassOf (args : List (List Char)) : Option String :=
  (args.filterMap fun arg => match cutAt? ['='] arg with
    | some (key, value) =>
      if trim key == "metaclass".toList then some (String.ofList (trim value)) else none
    | none => none).getLast?

/-- The bases among the arguments of a class: those without a name or a star. -/
def basesOf (args : List (List Char)) : List (List Char) :=
  args.filter fun arg => !arg.contains '=' && arg.head? != some '*'

/-- A class with its members. -/
def classOf (s : Script) (d : Declared) (header : ClassHeader) : TypeDef :=
  let name := String.ofList header.name
  let doc := docOf? s d.block
  let bases := basesOf header.args
  let metaclass := metaclassOf header.args
  let members := membersOf s name (doc.map (·.1)) d.block
  let dependencies :=
    (bases.flatMap basesIn ++ metaclass.toList ++ members.methods.flatMap (·.typeDeps)).foldl
      pushUnique []
  { name
    kind := .class
    filePath := s.path
    span := d.span
    signature := "class " ++ name ++
      if header.args.isEmpty then ""
      else "(" ++ String.ofList (joinWith [',', ' '] header.args) ++ ")"
    doc := match doc with
      | some (_, text) => String.ofList text
      | none => ""
    code := d.code s
    bases := bases.map String.ofList
    decorators := d.decorators.map (·.text)
    metaclass
    fields := members.fields
    methods := members.methods
    properties := members.properties
    dependencies := dependencies.filter (· != name) }

/-- The value that a line makes, if it makes one. -/
def bindingOf? (s : Script) (l : LogicalLine) : Option Binding := do
  let a ← assigned? l.code
  let name := String.ofList a.name
  let type := String.ofList a.type
  let value := String.ofList a.value
  return {
    name
    filePath := s.path
    span := Span.lines l.first l.last
    signature := name ++ (if type.isEmpty then "" else ": " ++ type) ++
      if value.isEmpty then "" else " = " ++ value
    code := String.ofList (s.raw l)
    type, value }

/-- Enters the imports or the value of a line. -/
def addStatement (s : Script) (l : LogicalLine) (o : Outline) : Outline :=
  match imports? l.code with
  | some is => { o with imports := o.imports ++ is }
  | none =>
    match bindingOf? s l with
    | some b =>
      if isConstantName b.name.toList then { o with constants := o.constants ++ [b] }
      else { o with vars := o.vars ++ [b] }
    | none => o

/-- Reads the lines of a module, the first `skip` of which belong to a declaration
    already read. -/
def readModule (s : Script) (skip : Nat) (decorators : List Decorator) (o : Outline) :
    List LogicalLine → Outline
  | [] => o
  | l :: rest =>
    match skip with
    | n + 1 => readModule s n decorators o rest
    | 0 =>
      if !l.isCode || l.indent > 0 then readModule s 0 decorators o rest
      else if l.kind = .decorator then readModule s 0 (decorators ++ [decoratorOf l]) o rest
      else
        let block := blockOf l rest
        match classHeader? l.code, defHeader? l.code with
        | some header, _ =>
          let t := classOf s ⟨l, block, decorators⟩ header
          readModule s block.length [] { o with types := o.types ++ [t] } rest
        | none, some header =>
          let f := callableOf s ⟨l, block, decorators⟩ header none
          readModule s block.length [] { o with functions := o.functions ++ [f] } rest
        | none, none => readModule s 0 [] (addStatement s l o) rest

/-- Enters the documentation of a module, which is its first statement. -/
def addDoc (s : Script) (lines : List LogicalLine) (o : Outline) : Outline :=
  match docOf? s lines with
  | some (l, doc) =>
    if l.indent = 0 then
      { o with doc := String.ofList doc, docFile := s.path, docSpan := Span.lines l.first l.last }
    else o
  | none => o

/-- The outline of a module with the given text. -/
def outline (path : String) (text : List Char) : Outline :=
  let s : Script := ⟨Path.slashed path, lines text⟩
  let logical := logicalLines s.physical
  let start : Outline :=
    { language := .python, path := s.path, package := (Path.stem? path).getD "" }
  readModule s 0 [] (addDoc s logical start) logical

end CodeAtlas.Python
