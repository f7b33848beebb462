import CodeAtlas.Python.Line

/-!
# Docstrings

The first statement of a module, a class or a function is its documentation if it
is a string in triple quotes. The text of it starts on the line of the quotes; the
lines below lose the indentation they have in common (`cleanDocstring`).
-/

namespace CodeAtlas.Python

open Text

/-- The letters that may stand before a string. -/
def isStringMark (c : Char) : Bool :=
  ['r', 'R', 'u', 'U', 'b', 'B', 'f', 'F'].contains c

/-- Drops leading white space as long as fewer than `margin` bytes are dropped. -/
def dropMargin (margin : Nat) : List Char → List Char
  | [] => []
  | c :: s =>
    if 0 < margin && isBlank c then dropMargin (margin - (String.singleton c).utf8ByteSize) s
    else c :: s

/-- The least indentation of the lines that are not blank. -/
def marginOf (ls : List (List Char)) : Nat :=
  (((ls.filter fun l => !(trim l).isEmpty).map indentOf).min?).getD 0

/-- The text of a docstring: the first line without white space around it, the
    others without their common indentation. -/
def cleanDocstring (body : List Char) : List Char :=
  match lines body with
  | [] => []
  | first :: rest =>
    let margin := marginOf rest
    trim (joinWith ['\n'] (trim first :: rest.map fun l => trimEnd (dropMargin margin l)))

/-- The text that a statement documents something with, if it is a string in triple
    quotes. The string ends with the first three quotes of its kind. -/
def docstring? (raw : List Char) : Option (List Char) :=
  let text := trimStart raw
  let marks := text.takeWhile isStringMark
  let rest := text.drop marks.length
  if marks.length > 2 then none
  else
    match rest with
    | a :: b :: c :: body =>
      if isQuote a && a == b && b == c then
        (cutAt? [a, b, c] body).map fun (inside, _) => cleanDocstring inside
      else none
    | _ => none

end CodeAtlas.Python
