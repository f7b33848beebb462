import CodeAtlas.Path
import CodeAtlas.Text.Utf8

/-!
# Trees of files

The entries of a directory in the order of their names (`FileTree`), and a file system
that holds such a tree and knows the directory it works in (`Disk`). Paths are looked
up part by part: `..` leads to the directory around, and only a directory has parts, so
that no file is found behind a slash at the end of a path.
-/

namespace CodeAtlas

/-- The entries of a directory: none, or a first one and the others. -/
inductive FileTree where
  | empty
  | file (name : String) (content : Bytes) (rest : FileTree)
  | directory (name : String) (inner rest : FileTree)

/-- What stands at a path. -/
inductive Entry where
  | file (content : Bytes)
  | directory (inner : FileTree)

namespace FileTree

/-- The entry of that name. -/
def get? (name : String) : FileTree → Option Entry
  | .empty => none
  | .file n content rest => if n = name then some (.file content) else get? name rest
  | .directory n inner rest => if n = name then some (.directory inner) else get? name rest

/-- The entry at the end of some names. -/
def find? : List String → FileTree → Option Entry
  | [], t => some (.directory t)
  | [name], t => t.get? name
  | name :: names, t =>
    match t.get? name with
    | some (.directory inner) => find? names inner
    | _ => none

/-- An entry before the others. -/
def cons (name : String) (e : Entry) (rest : FileTree) : FileTree :=
  match e with
  | .file content => .file name content rest
  | .directory inner => .directory name inner rest

/-- Puts an entry in its place among the others, instead of one of the same name. -/
def insert (name : String) (e : Entry) : FileTree → FileTree
  | .empty => cons name e .empty
  | .file n content rest =>
    if n = name then cons name e rest
    else if name < n then cons name e (.file n content rest)
    else .file n content (insert name e rest)
  | .directory n inner rest =>
    if n = name then cons name e rest
    else if name < n then cons name e (.directory n inner rest)
    else .directory n inner (insert name e rest)

/-- Puts an entry at the end of some names, with the directories on the way to it. What
    stands in the way as a file stays. -/
def put : List String → Entry → FileTree → FileTree
  | [], _, t => t
  | [name], e, t => t.insert name e
  | name :: names, e, t =>
    match t.get? name with
    | some (.file _) => t
    | some (.directory inner) => t.insert name (.directory (put names e inner))
    | none => t.insert name (.directory (put names e .empty))

/-- Makes a directory, unless something stands there. -/
def makeDirectory (names : List String) (t : FileTree) : FileTree :=
  match t.find? names with
  | some _ => t
  | none => t.put names (.directory .empty)

/-- The content of the file at the end of some names. -/
def content? (names : List String) (t : FileTree) : Option Bytes :=
  match t.find? names with
  | some (.file content) => some content
  | _ => none

end FileTree

/-- Why a file cannot be read or written. -/
inductive DiskFault where
  | notFound
  | notDirectory
  | isDirectory
  | notText
  deriving DecidableEq, Repr

/-- What to tell of a fault. -/
def DiskFault.message : DiskFault → String
  | .notFound => "No such file or directory (os error 2)"
  | .notDirectory => "Not a directory (os error 20)"
  | .isDirectory => "Is a directory (os error 21)"
  | .notText => "stream did not contain valid UTF-8"

/-- A file system and the directory that it works in. -/
structure Disk where
  root : FileTree
  here : List String := []

namespace Disk

/-- What is written between the slashes of a path. -/
def pieces (path : String) : List String :=
  (Text.splitOn (· == '/') path.toList).map String.ofList

/-- Follows the pieces of a path from the directory `place`, given with its last name
    first. -/
def follow (d : Disk) (place : List String) : List String → Except DiskFault (List String)
  | [] => .ok place
  | piece :: rest =>
    match d.root.find? place.reverse with
    | none => .error .notFound
    | some (.file _) => .error .notDirectory
    | some (.directory _) =>
      if piece == "" || piece == "." then d.follow place rest
      else if piece == ".." then d.follow place.tail rest
      else d.follow (piece :: place) rest

/-- The names that lead to a path from the root, and what stands there. -/
def resolve (d : Disk) (path : String) : Except DiskFault (List String × Entry) :=
  if path.isEmpty then .error .notFound
  else
    let start := if Path.isAbsolute path then [] else d.here.reverse
    match d.follow start (pieces path) with
    | .error fault => .error fault
    | .ok place =>
      match d.root.find? place.reverse with
      | some e => .ok (place.reverse, e)
      | none => .error .notFound

/-- Something stands at a path. -/
def exists? (d : Disk) (path : String) : Bool :=
  match d.resolve path with
  | .ok _ => true
  | .error _ => false

/-- The content of a file. -/
def read (d : Disk) (path : String) : Except DiskFault Bytes :=
  match d.resolve path with
  | .error fault => .error fault
  | .ok (_, .directory _) => .error .isDirectory
  | .ok (_, .file content) => .ok content

/-- The text of a file. -/
def readText (d : Disk) (path : String) : Except DiskFault (List Char) :=
  match d.read path with
  | .error fault => .error fault
  | .ok content =>
    match Text.decode? content with
    | some text => .ok text
    | none => .error .notText

/-- Writes a file, in place of the one that stands there. What is written with a slash
    behind it can only be a directory. -/
def write (d : Disk) (path : String) (content : Bytes) : Except DiskFault Disk :=
  let start := if Path.isAbsolute path then [] else d.here.reverse
  match (pieces path).reverse.dropWhile (·.isEmpty) with
  | [] => .error (if path.isEmpty then .notFound else .isDirectory)
  | name :: before =>
    match d.follow start before.reverse with
    | .error fault => .error fault
    | .ok place =>
      match d.root.find? place.reverse with
      | none => .error .notFound
      | some (.file _) => .error .notDirectory
      | some (.directory inner) =>
        if (pieces path).getLast? == some "" || name == "." || name == ".." then
          .error .isDirectory
        else
          match inner.get? name with
          | some (.directory _) => .error .isDirectory
          | _ => .ok { d with root := d.root.put (place.reverse ++ [name]) (.file content) }

end Disk

end CodeAtlas
