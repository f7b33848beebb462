import CodeAtlas.Text.Blank

/-!
# Paths

A path is written with slashes. Its parts are what stands between them; empty
parts and the part `.`, except at the start, do not count. The last part is the
file's name, unless it is `..`, and a name may have an extension: what follows its
last point, if something stands before that point.
-/

namespace CodeAtlas.Path

/-- The parts of a path, without its empty ones and without `.` parts behind the
    first. -/
def parts (path : String) : List String :=
  let pieces := (Text.splitOn (· == '/') path.toList).map String.ofList
  match pieces with
  | [] => []
  | first :: rest =>
    let later := rest.filter fun p => p != "" && p != "."
    if first == "" then later else first :: later

/-- The path starts at the root of the file system. -/
def isAbsolute (path : String) : Bool :=
  path.toList.head? == some '/'

/-- The last part, unless it is `.` or `..`. -/
def fileName? (path : String) : Option String :=
  match (parts path).getLast? with
  | some name => if name == "." || name == ".." then none else some name
  | none => none

/-- A name split at its last point, if something stands before it. -/
def splitName (name : String) : String × Option String :=
  let chars := name.toList
  let tail := chars.reverse.takeWhile (· != '.')
  let stem := chars.reverse.drop (tail.length + 1)
  if tail.length = chars.length || stem.isEmpty then (name, none)
  else (String.ofList stem.reverse, some (String.ofList tail.reverse))

/-- The extension of the file's name. -/
def extension? (path : String) : Option String :=
  (fileName? path).bind fun name => (splitName name).2

/-- The file's name without its extension. -/
def stem? (path : String) : Option String :=
  (fileName? path).map fun name => (splitName name).1

/-- A path read backwards without the slashes and `.` parts it ends with; the
    slash of the root stays. -/
def dropClosing : List Char → List Char
  | [] => []
  | c :: s =>
    if c == '/' then if s.isEmpty then [c] else dropClosing s
    else if c == '.' && s.head? == some '/' then dropClosing s
    else c :: s

/-- The path of the directory around, if there is one. -/
def parent? (path : String) : Option String :=
  if (parts path).isEmpty then none
  else
    let rest := (dropClosing path.toList.reverse).dropWhile (· != '/')
    some (String.ofList (dropClosing rest).reverse)

/-- The path of a file in a directory. -/
def join (directory name : String) : String :=
  if isAbsolute name then name
  else if directory.isEmpty then name
  else if directory.toList.getLast? == some '/' then directory ++ name
  else directory ++ "/" ++ name

/-- The path with slashes in place of backslashes. -/
def slashed (path : String) : String :=
  String.ofList (path.toList.map fun c => if c == '\\' then '/' else c)

end CodeAtlas.Path
