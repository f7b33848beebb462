import CodeAtlas.Text.Case

/-!
# Snake case

`FirstName` is written `first_name`: capitals become small, and an underscore marks
where a word starts, which is at a capital behind a small letter, and at the last
capital of a row that a small letter follows.
-/

namespace CodeAtlas.Text

/-- Writes the rest of a name in snake case; `before` is the character in front of
    it. -/
def snakeFrom (before : Option Char) : List Char → List Char
  | [] => []
  | c :: s =>
    if isUpper c then
      let breaks := match before with
        | none => false
        | some b =>
          if isUpper b then
            match s with
            | [] => false
            | d :: _ => isLower d
          else b != '_'
      (if breaks then ['_'] else []) ++ lower c ++ snakeFrom (some c) s
    else c :: snakeFrom (some c) s

/-- A name in snake case. -/
def snake (s : List Char) : List Char :=
  snakeFrom none s

end CodeAtlas.Text
