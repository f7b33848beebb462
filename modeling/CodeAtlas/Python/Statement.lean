import CodeAtlas.Python.Reference

/-!
# Statements

What a line of code declares: a function, a class, imports, or a value. A line that
looks like none of these is passed over.
-/

namespace CodeAtlas.Python

open Text

/-- The head of a function. -/
structure DefHeader where
  isAsync : Bool
  name : List Char
  params : List Char
  returns : Option (List Char)

/-- The rest of a text behind the word `word` and white space. -/
def afterWord? (word : String) (s : List Char) : Option (List Char) :=
  (strip? word.toList s).bind afterBlank?

/-- The head of the function that a line declares. Its parameters stand in the first
    parentheses behind its name. -/
def defHeader? (code : List Char) : Option DefHeader := do
  let (isAsync, rest) ← match afterWord? "async" code with
    | some rest => (afterWord? "def" rest).map (true, ·)
    | none => (afterWord? "def" code).map (false, ·)
  let (name, rest) ← name? rest
  let (params, rest) ← bracketed? (rest.dropWhile (· != '('))
  let returns := (strip? ['-', '>'] (trimStart rest)).map fun rest =>
    let rest := trimStart rest
    trim (match cutOutside? ':' rest with
      | some (type, _) => type
      | none => rest)
  return ⟨isAsync, name, params, returns⟩

/-- The head of a class: its name, and what stands in its parentheses. -/
structure ClassHeader where
  name : List Char
  args : List (List Char)

/-- The head of the class that a line declares. Type parameters are passed over. -/
def classHeader? (code : List Char) : Option ClassHeader := do
  let rest ← afterWord? "class" code
  let (name, rest) ← name? rest
  let rest := trimStart rest
  let rest := match rest with
    | '[' :: _ =>
      match bracketed? rest with
      | some (_, after) => trimStart after
      | none => rest
    | _ => rest
  match rest with
  | '(' :: _ =>
    let (args, _) ← bracketed? rest
    return ⟨name, splitCommas args⟩
  | _ => return ⟨name, []⟩

/-- A parameter: its name, and its type and default if it has them. -/
def paramOf (text : List Char) : Param :=
  let (left, default) := match cutOutside? '=' text with
    | some (left, value) => (trim left, some (String.ofList (collapse value)))
    | none => (text, none)
  let (name, type) := match cutAt? [':'] left with
    | some (name, type) => (trim name, collapse type)
    | none => (trim left, [])
  { name := String.ofList name
    type := String.ofList type
    default
    variadic := name.head? == some '*' }

/-- The parameters of a function. The marks between kinds of parameters are none. -/
def paramsOf (text : List Char) : List Param :=
  ((splitCommas text).filter fun p => !p.isEmpty && p != ['/'] && p != ['*']).map paramOf

/-- What a line assigns or annotates. -/
structure Assigned where
  name : List Char
  type : List Char
  value : List Char

/-- A name, its annotation if it has one, and a value behind an equals sign. -/
def assignment? (code : List Char) : Option Assigned := do
  let (name, rest) ← name? code
  let rest := trimStart rest
  match rest with
  | '=' :: value => return ⟨name, [], trimStart value⟩
  | ':' :: rest =>
    let type := rest.takeWhile (· != '=')
    match rest.drop type.length with
    | '=' :: value => if type.isEmpty then none else return ⟨name, type, trimStart value⟩
    | _ => none
  | _ => none

/-- A name and its annotation. -/
def typed? (code : List Char) : Option Assigned := do
  let (name, rest) ← name? code
  let type ← strip? [':'] (trimStart rest)
  let type := trimStart type
  if type.isEmpty then none else return ⟨name, type, []⟩

/-- What a line gives a value or a type to. A comparison does neither. -/
def assigned? (code : List Char) : Option Assigned := do
  let a ← match assignment? code with
    | some a => if a.value.head? == some '=' then none else some a
    | none => typed? code
  if keywords.contains (String.ofList a.name) then none
  else return ⟨a.name, collapse a.type, collapse a.value⟩

/-- A name written as those of constants are: in capitals. -/
def isConstantName (name : List Char) : Bool :=
  match name.dropWhile (· == '_') with
  | [] => false
  | c :: rest => c.isUpper && rest.all fun d => d.isUpper || d.isDigit || d == '_'

/-- A name with another one behind `as`, or by itself: both without white space. -/
def aliased (s : List Char) : List Char × List Char :=
  match cutAt? " as ".toList s with
  | some (name, known) => (trim name, trim known)
  | none => (trim s, trim s)

/-- The imports of names from a module. -/
def fromImports? (code : List Char) : Option Imports := do
  let rest ← afterWord? "from" code
  let module := rest.takeWhile (!isBlank ·)
  let rest ← afterBlank? (rest.drop module.length)
  let names ← afterWord? "import" rest
  if module.isEmpty || names.isEmpty then none
  else
    let names := dropEnd (· == ')') ((trim names).dropWhile (· == '('))
    return (splitCommas names).filterMap fun item =>
      let (name, known) := aliased item
      let lead := if module.all (· == '.') then module else module ++ ['.']
      if name.isEmpty then none
      else some ⟨String.ofList known, String.ofList (lead ++ name)⟩

/-- The imports of modules. -/
def moduleImports? (code : List Char) : Option Imports := do
  let names ← afterWord? "import" code
  if names.isEmpty then none
  else
    return (splitCommas names).map fun item =>
      let (name, known) := aliased item
      ⟨String.ofList known, String.ofList name⟩

/-- The imports of a line. -/
def imports? (code : List Char) : Option Imports :=
  match fromImports? code with
  | some is => some is
  | none => moduleImports? code

end CodeAtlas.Python
