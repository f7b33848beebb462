import CodeAtlas.Config
import CodeAtlas.Ignore

/-!
# Walking a tree

The files under a root that are indexed, in the order of their names part by part
(`Walk.sources?`), and the files with routes among them (`Walk.routeFiles?`). Directories
are left out as a whole if they are hidden, ignored or known to hold nothing of
interest; the root itself is never left out. Of the files found, those that match an
exclude pattern or are too large do not count (`Walk.files?`).
-/

namespace CodeAtlas

/-- A file to index. -/
structure SourceFile where
  path : String
  language : Language
  deriving DecidableEq, Repr

namespace Walk

/-- A file under a root: its path, the names that lead to it from the root, and its
    size. -/
structure Found where
  path : String
  names : List String
  size : Nat

/-- How a tree is walked. -/
structure Filter where
  /-- Names of directories that are not entered. -/
  skipDirs : List String
  /-- Ignore files are respected. -/
  ignores : Bool

/-- An entry is passed over for its name. -/
def Filter.skips (f : Filter) (name : String) (isDirectory : Bool) : Bool :=
  name.toList.head? == some '.' || (isDirectory && f.skipDirs.contains name)

/-- The files among entries and below, given the path of their directory, the names
    that lead to it and its ignore layers, innermost first. -/
def filesIn (f : Filter) (path : String) (names : List String) (layers : List IgnoreLayer) :
    FileTree → List Found
  | .empty => []
  | .file name content rest =>
    let here := names ++ [name]
    let others := filesIn f path names layers rest
    if IgnoreLayer.ignored layers here false || f.skips name false then others
    else ⟨Path.join path name, here, content.length⟩ :: others
  | .directory name inner rest =>
    let here := names ++ [name]
    let others := filesIn f path names layers rest
    if IgnoreLayer.ignored layers here true || f.skips name true then others
    else
      let layer := if f.ignores then [IgnoreLayer.ofTree [] here.length inner] else []
      filesIn f (Path.join path name) here (layer ++ layers) inner ++ others

/-- The layers of the directories around a root at the end of `place`, innermost first.
    A root that is written with `./` before it comes a second time in their paths. -/
def outerLayers (d : Disk) (root : String) (place : List String) : List IgnoreLayer :=
  let again := match Text.strip? ['.', '/'] root.toList with
    | some (c :: rest) => [String.ofList (c :: rest)]
    | _ => []
  (List.range place.length).reverse.filterMap fun n =>
    match d.root.find? (place.take n) with
    | some (.directory t) => some (IgnoreLayer.ofTree (place.drop n ++ again) 0 t)
    | _ => none

/-- The path, however it is written, is the name `-`, which stands for standard input. -/
def isStandardInput (root : String) : Bool :=
  !Path.isAbsolute root && Path.parts root == ["-"]

/-- All files under a root that are not passed over; none if there is no root. Standard
    input holds no files. -/
def allFiles? (c : Config) (d : Disk) (root : String) : Option (List Found) :=
  let f : Filter := ⟨Language.commonSkips ++ c.extraSkipDirs, c.respectGitignore⟩
  match d.resolve root with
  | .error _ => none
  | .ok (_, .file content) =>
    some (if isStandardInput root then [] else [⟨root, [], content.length⟩])
  | .ok (place, .directory t) =>
    let layers :=
      if f.ignores then IgnoreLayer.ofTree [] 0 t :: outerLayers d root place else []
    some (if isStandardInput root then [] else filesIn f root [] layers t)

/-- The exclude patterns of a configuration that are well-formed. -/
def excludes (c : Config) : List Glob :=
  c.exclude.filterMap fun pattern => (Glob.parse .plain pattern).toOption

/-- The path from the root to a file. -/
def Found.relative (f : Found) : String :=
  String.ofList (Text.joinWith ['/'] (f.names.map String.toList))

/-- The files under a root that may be indexed; none if there is no root. -/
def files? (c : Config) (d : Disk) (root : String) : Option (List Found) :=
  let globs := excludes c
  (allFiles? c d root).map fun found => found.filter fun f =>
    !(globs.any (·.isMatch f.relative)) && f.size ≤ c.maxFileBytes

/-- The file as one to index, unless its language is not enabled, it holds tests, or it
    stands in a directory that its language passes over. -/
def source? (c : Config) (f : Found) : Option SourceFile :=
  match Language.ofPath? f.path with
  | none => none
  | some l =>
    let isTest := l.isTestFile ((Path.fileName? f.path).getD "")
    if c.isEnabled l && (c.includeTests || !isTest) && !(f.names.dropLast.any l.skipsDir) then
      some ⟨f.path, l⟩
    else none

/-- The files to index under a root; none if there is no root. -/
def sources? (c : Config) (d : Disk) (root : String) : Option (List SourceFile) :=
  (files? c d root).map fun found => found.filterMap (source? c)

/-- The files with routes under a root; none if there is no root. -/
def routeFiles? (c : Config) (d : Disk) (root : String) : Option (List String) :=
  (files? c d root).map fun found => (found.map Found.path).filter isRouteFile

end Walk

end CodeAtlas
