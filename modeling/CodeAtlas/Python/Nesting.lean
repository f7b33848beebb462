import CodeAtlas.Python.Line

/-!
# Commas and brackets

Cutting a line of code where no bracket is open: at its commas, at the bracket that
closes the first one, or at a given character. Strings are passed over as they are
quoted, without regard to escapes; `cutOutside?` does not know strings.
-/

namespace CodeAtlas.Python

open Text

/-- Cuts a text at the commas outside brackets and strings. `piece` is the piece
    being read, last character first. -/
def splitCommasFrom (depth : Nat) (quote : Option Char) (piece : List Char) :
    List Char → List (List Char)
  | [] => [piece.reverse]
  | c :: s =>
    match quote with
    | some q => splitCommasFrom depth (if c == q then none else quote) (c :: piece) s
    | none =>
      if c == ',' && depth == 0 then piece.reverse :: splitCommasFrom 0 none [] s
      else
        splitCommasFrom (depthAfter c depth) (if isQuote c then some c else none) (c :: piece) s

/-- The pieces of a text between the commas outside brackets and strings, without
    the white space around them. A last piece that is blank does not count. -/
def splitCommas (s : List Char) : List (List Char) :=
  let pieces := (splitCommasFrom 0 none [] s).map trim
  if pieces.getLast? == some [] then pieces.dropLast else pieces

/-- What stands before and behind the bracket that closes the innermost of `depth`
    open ones. -/
def closeFrom? (depth : Nat) (quote : Option Char) : List Char → Option (List Char × List Char)
  | [] => none
  | c :: s =>
    let keep (r : Option (List Char × List Char)) :=
      r.map fun (inside, after) => (c :: inside, after)
    match quote with
    | some q => keep (closeFrom? depth (if c == q then none else quote) s)
    | none =>
      if isClosing c && depth ≤ 1 then some ([], s)
      else keep (closeFrom? (depthAfter c depth) (if isQuote c then some c else none) s)

/-- Of a text that starts with a bracket: what stands in it, and what stands
    behind. -/
def bracketed? : List Char → Option (List Char × List Char)
  | [] => none
  | _ :: s => closeFrom? 1 none s

/-- What stands before and behind the first `mark` outside brackets. -/
def cutOutsideFrom? (mark : Char) (depth : Nat) : List Char → Option (List Char × List Char)
  | [] => none
  | c :: s =>
    if !isOpening c && !isClosing c && c == mark && depth == 0 then some ([], s)
    else
      (cutOutsideFrom? mark (depthAfter c depth) s).map fun (before, after) =>
        (c :: before, after)

/-- What stands before and behind the first `mark` outside brackets. -/
def cutOutside? (mark : Char) (s : List Char) : Option (List Char × List Char) :=
  cutOutsideFrom? mark 0 s

end CodeAtlas.Python
