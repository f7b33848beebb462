import CodeAtlas.Path

/-!
# Languages

The four languages, how their files are recognised, and which directories and
files are passed over: dependencies and build output for every language, some
more for each, and test files by their names.
-/

namespace CodeAtlas

/-- A language whose files are indexed. -/
inductive Language where
  | go | php | python | markdown
  deriving DecidableEq, Repr

namespace Language

/-- All languages. -/
def all : List Language := [.go, .php, .python, .markdown]

/-- The word for a language. -/
def word : Language → String
  | .go => "go"
  | .php => "php"
  | .python => "python"
  | .markdown => "markdown"

/-- The language that a word names. -/
def ofWord? (s : String) : Option Language :=
  all.find? (·.word == s)

/-- The language that a user names, in any letter case and also by a short
    name. -/
def ofName? (s : String) : Option Language :=
  match String.ofList (s.toList.map Char.toLower) with
  | "go" | "golang" => some .go
  | "php" => some .php
  | "python" | "py" => some .python
  | "markdown" | "md" => some .markdown
  | _ => none

/-- The extensions of a language's files. -/
def extensions : Language → List String
  | .go => ["go"]
  | .php => ["php"]
  | .python => ["py"]
  | .markdown => ["md", "markdown"]

/-- The language of a file, by its extension. -/
def ofPath? (path : String) : Option Language :=
  (Path.extension? path).bind fun ext => all.find? (·.extensions.contains ext)

/-- The directories that are never entered. -/
def commonSkips : List String :=
  [".git", ".hg", ".svn", ".bzr", "node_modules", "vendor", "bower_components", "build", "dist",
   "out", "target", "bin", "obj", ".cache", "__pycache__", "testdata", "fixtures",
   "__fixtures__", ".idea", ".vscode"]

/-- Whether a string ends with another. -/
def endsWith (s tail : String) : Bool :=
  tail.toList.isSuffixOf s.toList

/-- Whether the files of a language are passed over in a directory. -/
def skipsDir (l : Language) (name : String) : Bool :=
  commonSkips.contains name ||
    match l with
    | .go | .markdown => false
    | .php => ["storage", "bootstrap"].contains name
    | .python =>
      ["venv", ".venv", "env", "site-packages", ".tox", ".mypy_cache", ".pytest_cache"].contains
        name || endsWith name ".egg-info"

/-- Whether a file of a language holds tests, by its name. -/
def isTestFile (l : Language) (name : String) : Bool :=
  match l with
  | .go => endsWith name "_test.go"
  | .php => endsWith name "Test.php"
  | .python =>
    name == "conftest.py" ||
      ("test_".toList.isPrefixOf name.toList && endsWith name ".py") || endsWith name "_test.py"
  | .markdown => false

end Language

/-- Whether a file holds routes: one of four names in a directory called
    `routes`. -/
def isRouteFile (path : String) : Bool :=
  ((Path.parent? path).bind Path.fileName?) == some "routes" &&
    ["web.php", "api.php", "console.php", "channels.php"].contains
      ((Path.fileName? path).getD "")

end CodeAtlas
