import CodeAtlas.Outline
import CodeAtlas.Python.Nesting
import CodeAtlas.Text.Case
import CodeAtlas.Text.Word

/-!
# What Python code refers to

The functions that a line of code calls, the types that an annotation names, and
the classes that a base stands for. All are found by their look alone.
-/

namespace CodeAtlas.Python

open Text

/-- Names of built-in types, which are no dependencies. -/
def builtinTypes : List String :=
  ["Any", "Annotated", "AsyncGenerator", "AsyncIterator", "Awaitable", "Callable", "ClassVar",
   "Coroutine", "Dict", "Final", "FrozenSet", "Generator", "Generic", "Iterable", "Iterator",
   "List", "Literal", "Mapping", "MutableMapping", "MutableSequence", "Never", "NoReturn", "None",
   "Optional", "Protocol", "Self", "Sequence", "Set", "Tuple", "Type", "TypeVar", "Union", "True",
   "False"]

/-- Words of the language that are no names of functions or variables. -/
def keywords : List String :=
  ["and", "as", "assert", "await", "class", "def", "del", "elif", "else", "except", "for", "from",
   "if", "import", "in", "is", "lambda", "not", "or", "raise", "return", "while", "with", "yield"]

/-- The rest behind an opening parenthesis, which white space may stand before. -/
def afterParen? (s : List Char) : Option (List Char) :=
  strip? ['('] (trimStart s)

/-- A call of a member: a point, a name and a parenthesis; the name, and the rest. -/
def memberCall? (s : List Char) : Option (List Char × List Char) := do
  let rest ← strip? ['.'] s
  let (name, rest) ← name? rest
  let rest ← afterParen? rest
  return (name, rest)

/-- A name that starts with a capital letter of ASCII, and the rest. -/
def capitalName? (s : List Char) : Option (List Char × List Char) :=
  match name? s with
  | some (c :: name, rest) => if c.isUpper then some (c :: name, rest) else none
  | _ => none

/-- Calls on the object, the class or the base class at hand. -/
def receiverCall : Pattern String := fun before s =>
  if !atBoundary before s then none
  else
    let on (receiver : String) : Option (String × Nat) := do
      let rest ← strip? receiver.toList s
      let (name, rest) ← memberCall? rest
      return (receiver ++ "." ++ String.ofList name, s.length - rest.length)
    match on "self", on "cls", on "super()" with
    | some r, _, _ => some r
    | none, some r, _ => some r
    | none, none, r => r

/-- Calls on something with a capital, unless that is itself a member. -/
def qualifiedCall : Pattern (Option String) := fun before s => do
  if !atBoundary before s then none
  else
    let (owner, rest) ← capitalName? s
    let (name, rest) ← memberCall? rest
    let call := String.ofList owner ++ "." ++ String.ofList name
    return (if before.head? == some '.' then none else some call, s.length - rest.length)

/-- What stands before a name so that it is not called: a point, or the word of a
    declaration. -/
def isNoCall (before : List Char) : Bool :=
  [".", "def ", "class "].any fun lead => (strip? lead.toList.reverse before).isSome

/-- Calls of a name. -/
def bareCall : Pattern (Option String) := fun before s => do
  if !atBoundary before s then none
  else
    let (name, rest) ← name? s
    let rest ← afterParen? rest
    let called := String.ofList name
    let skipped := isNoCall before || (["self", "cls", "super"] ++ keywords).contains called
    return (if skipped then none else some called, s.length - rest.length)

/-- The functions that a line of code calls: those of receivers, then those of
    classes, then bare ones. -/
def callsIn (code : List Char) : List String :=
  findAll receiverCall code ++ (findAll qualifiedCall code).filterMap id ++
    (findAll bareCall code).filterMap id

/-- A name with a capital. -/
def typeName : Pattern String := fun before s => do
  if !atBoundary before s then none
  else
    let (name, _) ← capitalName? s
    return (String.ofList name, name.length)

/-- The types that an annotation names. -/
def typesIn (type : List Char) : List String :=
  (findAll typeName type).filter fun name => !builtinTypes.contains name

/-- What stands between the first opening and the last closing square bracket, if
    they stand in this order. -/
def squareInside? (s : List Char) : Option (List Char) :=
  let start := (s.takeWhile (· != '[')).length
  let inside := (s.drop (start + 1)).reverse.dropWhile (· != ']')
  match inside with
  | [] => none
  | _ :: inside => some inside.reverse

/-- The classes that a base stands for: itself, or those in its brackets. The fuel
    bounds how deep brackets are nested. -/
def basesFrom : Nat → List Char → List String
  | 0, _ => []
  | n + 1, base =>
    match squareInside? base with
    | some inside => (splitCommas inside).flatMap (basesFrom n)
    | none =>
      let base := dropEnd isQuote ((trim base).dropWhile isQuote)
      let last := afterLast '.' base
      if startsUpper last && !builtinTypes.contains (String.ofList last) then
        [String.ofList base]
      else []

/-- The classes that a base stands for: itself, or those in its brackets. -/
def basesIn (base : List Char) : List String :=
  basesFrom (base.length + 1) base

end CodeAtlas.Python
