import CodeAtlas.Go.Grammar
import CodeAtlas.Outline

/-!
# Types, parameters and values as text

A type is written in one way, whatever its spacing in the source, with the members
of structures and interfaces left out. A parameter list is spread to one parameter
for each name. Of initializers only literals, names and signs before them are
written out; any other is `complexValue`.
-/

namespace CodeAtlas.Grammar.ParseTree

mutual

/-- How deep the tree is nested. -/
def depth {κ : Type} : ParseTree κ → Nat
  | .sign .. => 1
  | .node _ _ _ parts => depthOfList parts + 1

/-- How deep the deepest tree of a list is nested. -/
def depthOfList {κ : Type} : List (ParseTree κ) → Nat
  | [] => 0
  | t :: ts => max (depth t) (depthOfList ts)

end

end CodeAtlas.Grammar.ParseTree

namespace CodeAtlas.Go

open Grammar

/-- What stands for an initializer that is not written out. -/
def complexValue : String := "<complex>"

/-- A parameter as it is written: its name, if it has one, and its type. -/
def Param.text (p : Param) : String :=
  if p.name.isEmpty then p.type else p.name ++ " " ++ p.type

/-- Parameters as they are written between parentheses. -/
def paramsText (ps : List Param) : String :=
  joinStrings ", " (ps.map Param.text)

/-- Results as they are written behind the parameters. A single one that is not
    named stands without parentheses. -/
def resultsText (results : List String) (parenthesized : Bool) : String :=
  match results with
  | [] => ""
  | [single] =>
    if !parenthesized || !single.toList.contains ' ' then " " ++ single
    else " (" ++ single ++ ")"
  | _ => " (" ++ joinStrings ", " results ++ ")"

/-- The nodes of a tree that are not comments. -/
def solidNodes (t : ParseTree Kind) : List (ParseTree Kind) :=
  t.nodes.filter (!isComment ·)

/-- Whether a text starts with another. -/
def startsWith (s lead : String) : Bool :=
  lead.toList.isPrefixOf s.toList

mutual

/-- The text of a type; the fuel bounds its depth. -/
def typeTextFrom (source : Source) : Nat → ParseTree Kind → String
  | 0, _ => ""
  | n + 1, t =>
    let at_ (r : Role) := match t.part? r with
      | some u => typeTextFrom source n u
      | none => ""
    let inner := match (solidNodes t).head? with
      | some u => typeTextFrom source n u
      | none => ""
    match t.kind? with
    | some .typeName | some .identifier | some .packageName => t.text source
    | some .pointer => "*" ++ inner
    | some .slice => "[]" ++ at_ .element
    | some .array =>
      let length := match t.part? .length with
        | some u => collapseString (u.text source)
        | none => ""
      "[" ++ length ++ "]" ++ at_ .element
    | some .openArray => "[...]" ++ at_ .element
    | some .map => "map[" ++ at_ .key ++ "]" ++ at_ .value
    | some .qualified => joinStrings "." ((solidNodes t).map (·.text source))
    | some .interface => "interface\x7b\x7d"
    | some .struct => "struct\x7b\x7d"
    | some .function =>
      let params := match t.part? .parameters with
        | some list => paramsText (paramsFrom source n list)
        | none => ""
      let result := match t.part? .result with
        | some r => resultsText (resultsFrom source n r) (r.isKind .paramList)
        | none => ""
      "func(" ++ params ++ ")" ++ result
    | some .channel =>
      let text := t.text source
      if startsWith text "<-" then "<-chan " ++ at_ .value
      else if startsWith text "chan<-" || startsWith text "chan <-" then "chan<- " ++ at_ .value
      else "chan " ++ at_ .value
    | some .generic =>
      let args := match t.part? .typeArguments with
        | some list => (solidNodes list).map (typeTextFrom source n)
        | none => []
      inner ++ "[" ++ joinStrings ", " args ++ "]"
    | some .typeElem => joinStrings " | " (t.nodes.map (typeTextFrom source n))
    | some .parenType => "(" ++ inner ++ ")"
    | some .negated => "~" ++ inner
    | _ => collapseString (t.text source)

/-- One parameter for each name of a parameter list, or for each type that stands
    without a name. -/
def paramsFrom (source : Source) : Nat → ParseTree Kind → List Param
  | 0, _ => []
  | n + 1, list =>
    list.nodes.flatMap fun decl =>
      if decl.isKind .param || decl.isKind .variadicParam then
        let variadic := decl.isKind .variadicParam
        let plain := match decl.part? .type with
          | some u => typeTextFrom source n u
          | none => ""
        let type := if variadic then "..." ++ plain else plain
        match decl.partsAs .name with
        | [] => [{ name := "", type, variadic }]
        | names => names.map fun name => { name := name.text source, type, variadic }
      else []

/-- The results of a function: a parameter list, or one type. -/
def resultsFrom (source : Source) : Nat → ParseTree Kind → List String
  | 0, _ => []
  | n + 1, r =>
    if r.isKind .paramList then (paramsFrom source n r).map Param.text
    else [typeTextFrom source n r]

end

/-- Fuel for a tree. -/
def fuelOf (t : ParseTree Kind) : Nat :=
  3 * t.depth + 3

/-- The text of a type. -/
def typeText (source : Source) (t : ParseTree Kind) : String :=
  typeTextFrom source (fuelOf t) t

/-- The parameters of a parameter list. -/
def paramsOf (source : Source) (list : ParseTree Kind) : List Param :=
  paramsFrom source (fuelOf list) list

/-- The results of a function. -/
def resultsOf (source : Source) (r : ParseTree Kind) : List String :=
  resultsFrom source (fuelOf r) r

/-- The text of an initializer; the fuel bounds its depth. -/
def valueTextFrom (source : Source) : Nat → ParseTree Kind → String
  | 0, _ => complexValue
  | n + 1, t =>
    match t.kind? with
    | some .text | some .rawText | some .int | some .float | some .imaginary | some .rune
    | some .yes | some .no | some .nothing | some .iota | some .identifier => t.text source
    | some .selector =>
      match t.parts.head?, t.part? .field with
      | some operand, some field =>
        if operand.isKind .identifier then operand.text source ++ "." ++ field.text source
        else complexValue
      | _, _ => complexValue
    | some .unary =>
      match t.part? .operator, t.part? .operand with
      | some operator, some operand =>
        let sign := operator.text source
        if ["-", "+", "^", "!"].contains sign then
          let inner := valueTextFrom source n operand
          if inner == complexValue then inner else sign ++ inner
        else complexValue
      | _, _ => complexValue
    | some .paren =>
      match t.nodes.head? with
      | some inner => valueTextFrom source n inner
      | none => complexValue
    | _ => complexValue

/-- The text of an initializer. -/
def valueText (source : Source) (t : ParseTree Kind) : String :=
  valueTextFrom source t.depth t

end CodeAtlas.Go
