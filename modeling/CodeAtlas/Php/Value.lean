import CodeAtlas.Literal
import CodeAtlas.Php.Grammar
import CodeAtlas.Text.Blank

/-!
# Values of PHP expressions

What an expression says as a literal: strings without parts, arrays, names,
references to classes, closures. An array is a list or a map, but not both: one
whose elements are partly keyed, or that another array is spread into, has no
value.
-/

namespace CodeAtlas.Php

open Grammar

/-- The text between the quotes of a string, which may be marked as binary. -/
def unquote? (quote : Char) (s : List Char) : Option (List Char) :=
  let s := match s with
    | 'b' :: rest | 'B' :: rest => rest
    | _ => s
  match s with
  | c :: rest => if c == quote then Text.stripEnd? [quote] rest else none
  | [] => none

/-- Resolves the escapes of a string in single quotes: a backslash before a quote
    or another backslash. -/
def unescapeSingle : List Char → List Char
  | '\\' :: '\\' :: s => '\\' :: unescapeSingle s
  | '\\' :: '\x27' :: s => '\x27' :: unescapeSingle s
  | c :: s => c :: unescapeSingle s
  | [] => []

/-- Resolves the escapes of a string in double quotes. A backslash before any other
    character stays, and so does that character. -/
def unescapeDouble : List Char → List Char
  | '\\' :: c :: s =>
    match c with
    | 'n' => '\n' :: unescapeDouble s
    | 't' => '\t' :: unescapeDouble s
    | 'r' => '\r' :: unescapeDouble s
    | '"' | '\\' | '$' => c :: unescapeDouble s
    | _ => '\\' :: c :: unescapeDouble s
  | c :: s => c :: unescapeDouble s
  | [] => []

/-- The string that a quoted text stands for. -/
def stringLiteral (quote : Char) (unescape : List Char → List Char) (text : String) : Literal :=
  match unquote? quote text.toList with
  | some inner => .text (String.ofList (unescape inner))
  | none => .unknown

/-- The array of some elements, each with its key if it has one. -/
def arrayLiteral (elements : List (Option Literal × Literal)) : Literal :=
  if elements.all (·.1.isNone) then .list (elements.map (·.2))
  else
    match elements.mapM fun (key, value) => key.map (·, value) with
    | some entries => .map entries
    | none => .unknown

/-- The name is written `class`, in whatever letter case. -/
def isClassWord (source : Source) (t : ParseTree Kind) : Bool :=
  foldCase (t.text source) == "class"

/-- A name of one word or more, but none that is relative. -/
def isName (t : ParseTree Kind) : Bool :=
  t.isKind .name || t.isKind .qualifiedName

mutual

/-- The value of an expression. -/
def literalOf (source : Source) : ParseTree Kind → Literal
  | .sign .. => .unknown
  | .node kind r extent parts =>
    let text := source.excerpt extent.start.byte extent.stop.byte
    match kind with
    | .string => stringLiteral '\x27' unescapeSingle text
    | .encapsed =>
      if parts.all fun p => !p.isNode || p.isKind .content then
        stringLiteral '"' unescapeDouble text
      else .unknown
    | .array =>
      match elementsOf source parts with
      | some elements => arrayLiteral elements
      | none => .unknown
    | .classConstant =>
      match (ParseTree.node kind r extent parts).nodes with
      | [scope, constant] =>
        if isClassWord source constant && isName scope then .classRef (scope.text source)
        else .unknown
      | _ => .unknown
    | .name => .name text
    | .qualifiedName => .qualifiedName text
    | .closure => .closure
    | .paren => (literalsOf source parts).headD .unknown
    | _ => .unknown

/-- The values of the nodes among some trees, comments apart. -/
def literalsOf (source : Source) : List (ParseTree Kind) → List Literal
  | [] => []
  | t :: ts =>
    if t.isNode && !isComment t then literalOf source t :: literalsOf source ts
    else literalsOf source ts

/-- The elements of an array, each with its key if it has one; none if the array
    holds something else. -/
def elementsOf (source : Source) : List (ParseTree Kind) → Option (List (Option Literal × Literal))
  | [] => some []
  | .sign .. :: ts => elementsOf source ts
  | .node kind _ _ parts :: ts =>
    match kind with
    | .comment => elementsOf source ts
    | .element =>
      let keyed := parts.any (ParseTree.isSign "=>")
      match keyed, literalsOf source parts with
      | true, [key, value] => (elementsOf source ts).map ((some key, value) :: ·)
      | false, [value] =>
        if parts.any (ParseTree.isKind .spread) then none
        else (elementsOf source ts).map ((none, value) :: ·)
      | _, _ => none
    | _ => none

end

/-- The values of the arguments in a list of them. The name of an argument does not
    count. -/
def argumentsOf (source : Source) (args : ParseTree Kind) : List Literal :=
  (args.nodes.filter (!isComment ·)).map fun arg =>
    if arg.isKind .arg then (literalsOf source arg.parts).getLast?.getD .unknown else .unknown

/-- The value that the first statement made of an expression assigns. -/
def assignedValue? (source : Source) (file : ParseTree Kind) : Option Literal := do
  let statement ← file.nodes.find? (·.isKind .expressionStatement)
  let expression ← statement.nodes.head?
  let value ← expression.part? .right
  return literalOf source value

end CodeAtlas.Php
