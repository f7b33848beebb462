import CodeAtlas.FileTree
import CodeAtlas.Glob.Pattern

/-!
# Ignore files

A directory may tell which of its files are to be passed over, in three places: in the
file `.ignore`, in `.gitignore`, and in `.git/info/exclude`. Each line is a pattern. The
last line that matches decides, a line that starts with `!` for the file; and a file in
an inner directory decides before those around it. What `.ignore` files say goes before
`.gitignore` files, and these before the excludes.
-/

namespace CodeAtlas

open Text

/-- A line of an ignore file. -/
structure IgnoreRule where
  glob : Glob
  /-- What matches is kept, not ignored. -/
  keeps : Bool
  /-- Only directories match. -/
  onlyDirectories : Bool

namespace IgnoreRule

/-- The pattern for a line without its signs: it matches at any depth if it has no
    slash, and everything within if it ends with two stars. -/
def fullPattern (anchored : Bool) (line : List Char) : List Char :=
  let deep := anchored || line.contains '/' || line == ['*', '*'] ||
    (strip? "**/".toList line).isSome
  let pattern := if deep then line else "**/".toList ++ line
  if (stripEnd? "/**".toList pattern).isSome then pattern ++ "/*".toList else pattern

/-- The rule of a line that is neither blank nor a comment, unless its pattern is not
    well-formed. -/
def ofPattern? (line : List Char) : Option IgnoreRule :=
  let escaped := line.take 2 == ['\\', '!'] || line.take 2 == ['\\', '#']
  let keeps := !escaped && line.head? == some '!'
  let body := if escaped || keeps then line.drop 1 else line
  let anchored := body.head? == some '/'
  let body := if anchored && !escaped then body.drop 1 else body
  let onlyDirectories := body.getLast? == some '/'
  let body := if onlyDirectories then dropTail ['\\'] body.dropLast else body
  match Glob.parse .ignoring (String.ofList (fullPattern anchored body)) with
  | .ok glob => some { glob, keeps, onlyDirectories }
  | .error _ => none

/-- The rule of a line. -/
def ofLine? (line : List Char) : Option IgnoreRule :=
  let line := if (stripEnd? ['\\', ' '] line).isSome then line else trimEnd line
  if line.isEmpty || line.head? == some '#' then none else ofPattern? line

/-- The lines of a file, up to the first that is not well-formed text. -/
def textLines (content : Bytes) : List (List Char) :=
  let rec cut (line : Bytes) : Bytes → List Bytes
    | [] => if line.isEmpty then [] else [line.reverse]
    | b :: rest => if b = 0x0A then line.reverse :: cut [] rest else cut (b :: line) rest
  let rec decodeAll : List Bytes → List (List Char)
    | [] => []
    | line :: rest =>
      match decode? line with
      | some text => dropTail ['\r'] text :: decodeAll rest
      | none => []
  decodeAll (cut [] content)

/-- The rules of an ignore file. Byte order marks at its start do not count. -/
def ofFile (content : Bytes) : List IgnoreRule :=
  match textLines content with
  | [] => []
  | first :: rest =>
    (first.dropWhile (· == Char.ofNat 0xFEFF) :: rest).filterMap ofLine?

/-- Whether the last rule that matches a path ignores it; none if no rule matches. -/
def verdict? (rules : List IgnoreRule) (path : String) (isDirectory : Bool) : Option Bool :=
  let last? := rules.reverse.find? fun r =>
    (isDirectory || !r.onlyDirectories) && r.glob.isMatch path
  last?.map fun r => !r.keeps

end IgnoreRule

/-- What a directory tells about the files in it. Paths are told from the root of a
    walk: those of the directory are behind their first `depth` names, with `lead`
    before them. -/
structure IgnoreLayer where
  lead : List String
  depth : Nat
  ignore : List IgnoreRule
  gitignore : List IgnoreRule
  exclude : List IgnoreRule

namespace IgnoreLayer

/-- The rules of a file in a directory, if there is one. -/
def rulesAt (names : List String) (t : FileTree) : List IgnoreRule :=
  match t.content? names with
  | some content => IgnoreRule.ofFile content
  | none => []

/-- The layer of a directory with the given entries. -/
def ofTree (lead : List String) (depth : Nat) (t : FileTree) : IgnoreLayer :=
  { lead, depth
    ignore := rulesAt [".ignore"] t
    gitignore := rulesAt [".gitignore"] t
    exclude := rulesAt [".git", "info", "exclude"] t }

/-- The path of some names as the directory sees it. -/
def pathOf (l : IgnoreLayer) (names : List String) : String :=
  String.ofList (joinWith ['/'] ((l.lead ++ names.drop l.depth).map String.toList))

/-- The verdict of the innermost layer that has one, by its rules of one kind. -/
def firstVerdict? (kind : IgnoreLayer → List IgnoreRule) (names : List String)
    (isDirectory : Bool) : List IgnoreLayer → Option Bool
  | [] => none
  | l :: rest =>
    match IgnoreRule.verdict? (kind l) (l.pathOf names) isDirectory with
    | some ignored => some ignored
    | none => firstVerdict? kind names isDirectory rest

/-- Whether the layers, innermost first, ignore what the names lead to. -/
def ignored (layers : List IgnoreLayer) (names : List String) (isDirectory : Bool) : Bool :=
  let verdict? := (firstVerdict? ignore names isDirectory layers).orElse fun _ =>
    (firstVerdict? gitignore names isDirectory layers).orElse fun _ =>
      firstVerdict? exclude names isDirectory layers
  verdict?.getD false

end IgnoreLayer

end CodeAtlas
