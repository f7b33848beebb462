import CodeAtlas.Language
import CodeAtlas.Literal

/-!
# Outlines

An outline lists the symbols of one unit: a file, or a package of files for a
language whose packages are directories. It is what the readers of the languages
produce, and what chunks are made from.
-/

namespace CodeAtlas

/-- The lines of a declaration and those of its name, both ends included. -/
structure Span where
  startLine : Nat := 0
  endLine : Nat := 0
  nameStart : Nat := 0
  nameEnd : Nat := 0
  deriving DecidableEq, Repr

namespace Span

/-- The given lines, the first of which holds the name. -/
def lines (start stop : Nat) : Span :=
  ⟨start, max stop start, start, start⟩

/-- The same lines, with the name on the given ones. -/
def withName (s : Span) (start stop : Nat) : Span :=
  { s with nameStart := start, nameEnd := max stop start }

end Span

/-- An imported name and what it stands for. -/
structure Import where
  name : String
  target : String
  deriving DecidableEq, Repr

/-- Imports in the order of their declaration. -/
abbrev Imports := List Import

/-- What a name stands for: the target of the first import under it. -/
def Imports.resolve? (imports : Imports) (name : String) : Option String :=
  (imports.find? (·.name == name)).map (·.target)

/-- A parameter of a function. -/
structure Param where
  name : String
  type : String := ""
  default : Option String := none
  variadic : Bool := false
  deriving DecidableEq, Repr

/-- What a call is addressed to. -/
inductive Receiver where
  | this
  | static (scope : String)
  | variable (name : String)
  | bare
  | other
  deriving DecidableEq, Repr

/-- A call in the body of a function. -/
structure CallSite where
  receiver : Receiver
  name : String
  args : List Literal
  line : Nat

/-- Who may use a member of a class. -/
inductive Visibility where
  | everyone | heirs | owner
  deriving DecidableEq, Repr

/-- The word for a visibility. -/
def Visibility.word : Visibility → String
  | .everyone => "public"
  | .heirs => "protected"
  | .owner => "private"

/-- A function or a method. -/
structure Callable where
  name : String
  filePath : String
  span : Span := {}
  signature : String := ""
  doc : String := ""
  code : String := ""
  receiver : Option String := none
  params : List Param := []
  returns : List String := []
  decorators : List String := []
  visibility : Visibility := .everyone
  isStatic : Bool := false
  isAbstract : Bool := false
  isAsync : Bool := false
  /-- The names of the functions called in the body, each once. -/
  calls : List String := []
  /-- The types that the signature mentions. -/
  typeDeps : List String := []
  /-- The calls that statements of the body consist of. -/
  bodyCalls : List CallSite := []
  /-- The type whose values the function makes. -/
  constructs : Option String := none

/-- A field of a structure or a class, or what an interface embeds. -/
structure Field where
  name : String
  type : String
  tag : Option String := none
  doc : String := ""
  embedded : Bool := false
  line : Nat
  deriving DecidableEq, Repr

/-- A property of a class. -/
structure Property where
  name : String
  filePath : String
  span : Span
  signature : String
  doc : String := ""
  code : String
  type : String := ""
  visibility : Visibility := .everyone
  isStatic : Bool := false
  hasGetter : Bool := false
  hasSetter : Bool := false
  hasDeleter : Bool := false
  default : Option Literal := none

/-- A constant or a variable. A case of an enumeration is a constant whose type is
    written `case`. -/
structure Binding where
  name : String
  filePath : String
  span : Span
  signature : String
  doc : String := ""
  code : String
  type : String := ""
  value : String := ""

/-- The binding is a case of an enumeration. -/
def Binding.isCase (b : Binding) : Bool :=
  b.type == "case"

/-- What kind of type a declaration makes. -/
inductive TypeKind where
  | struct | interface | synonym | «class» | trait | enum | other
  deriving DecidableEq, Repr

/-- The word for a kind of type. -/
def TypeKind.word : TypeKind → String
  | .struct => "struct"
  | .interface => "interface"
  | .synonym => "alias"
  | .class => "class"
  | .trait => "trait"
  | .enum => "enum"
  | .other => "other"

/-- A declared type with its members. -/
structure TypeDef where
  name : String
  kind : TypeKind
  filePath : String
  span : Span
  signature : String
  doc : String := ""
  code : String
  namespaceName : String := ""
  bases : List String := []
  interfaces : List String := []
  traits : List String := []
  decorators : List String := []
  metaclass : Option String := none
  fields : List Field := []
  methods : List Callable := []
  properties : List Property := []
  constants : List Binding := []
  dependencies : List String := []
  isAbstract : Bool := false

namespace TypeDef

/-- The name of the type behind that of its namespace. -/
def qualifiedName (t : TypeDef) : String :=
  if t.namespaceName.isEmpty then t.name else t.namespaceName ++ "\\" ++ t.name

/-- The first property of that name. -/
def property? (t : TypeDef) (name : String) : Option Property :=
  t.properties.find? (·.name == name)

end TypeDef

/-- A section of a document under its heading; `path` lists the titles of the
    headings around it and its own. -/
structure Section where
  title : String
  level : Nat
  path : List String
  filePath : String
  span : Span
  summary : String
  code : String

/-- The symbols of one unit. -/
structure Outline where
  language : Language
  /-- The path of the file, or of the directory of a package. -/
  path : String
  package : String := ""
  doc : String := ""
  /-- The file that `doc` stands in. -/
  docFile : String := ""
  docSpan : Span := {}
  imports : Imports := []
  functions : List Callable := []
  types : List TypeDef := []
  constants : List Binding := []
  vars : List Binding := []
  sections : List Section := []

namespace Outline

/-- The outline has no symbol and no documentation. -/
def isEmpty (o : Outline) : Bool :=
  o.functions.isEmpty && o.types.isEmpty && o.constants.isEmpty && o.vars.isEmpty &&
    o.sections.isEmpty && o.doc.isEmpty

end Outline

/-- Adds a string to the end of a list, unless it is empty or there already. -/
def pushUnique (list : List String) (s : String) : List String :=
  if s.isEmpty || list.contains s then list else list ++ [s]

end CodeAtlas
