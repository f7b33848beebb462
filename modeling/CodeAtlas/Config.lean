import CodeAtlas.FileTree
import CodeAtlas.Glob.Pattern
import CodeAtlas.Json.Decode
import CodeAtlas.Json.Printer
import CodeAtlas.Json.Reader
import CodeAtlas.Language

/-!
# Configuration

What is indexed and how. A configuration is written as JSON (`Config.toJson`) and read
back from it (`Config.ofJson?`), where every field may be left out. Loading one never
fails for what the file says: a file that is no configuration counts as the default one.
-/

namespace CodeAtlas

/-- What is indexed and how. -/
structure Config where
  /-- Files with tests are indexed as well. -/
  includeTests : Bool := false
  /-- Ignore files are respected. -/
  respectGitignore : Bool := true
  languages : List Language := Language.all
  /-- Patterns of files to leave out. -/
  exclude : List String := []
  /-- Names of further directories that are not entered. -/
  extraSkipDirs : List String := []
  /-- Files with routes; if there is none, they are looked for. -/
  routeFiles : List String := []
  /-- Files with routes are looked for. -/
  discoverRoutes : Bool := true
  /-- Of Go only exported declarations are indexed. -/
  exportedOnly : Bool := false
  /-- Larger files are left out. -/
  maxFileBytes : Nat := 2 * 1024 * 1024
  deriving DecidableEq, Repr

/-- What is wrong with a configuration or its file. -/
inductive ConfigFault where
  | unreadable (path : String) (cause : DiskFault)
  | unwritable (path : String) (cause : DiskFault)
  | noFileFits
  | noLanguage
  | badPattern (pattern : String) (flaw : Glob.Flaw)
  | pathAsName

/-- What to tell of a fault, from the outermost cause inwards. -/
def ConfigFault.messages : ConfigFault → List String
  | .unreadable path cause => ["failed to read config: " ++ path, cause.message]
  | .unwritable path cause => ["failed to write config: " ++ path, cause.message]
  | .noFileFits => ["max_file_bytes must be positive"]
  | .noLanguage => ["at least one language must be enabled"]
  | .badPattern pattern flaw =>
    ["invalid exclude pattern: " ++ pattern,
     "error parsing glob \x27" ++ pattern ++ "\x27: " ++ flaw.message]
  | .pathAsName => ["extra_skip_dirs takes directory names, not paths"]

namespace Config

/-- The language is indexed. -/
def isEnabled (c : Config) (l : Language) : Bool :=
  c.languages.contains l

/-! ## JSON -/

/-- The names of the fields, in the order in which they are written. -/
def fieldNames : List String :=
  ["include_tests", "respect_gitignore", "languages", "exclude", "extra_skip_dirs",
   "route_files", "discover_routes", "go", "max_file_bytes"]

/-- A configuration as JSON. -/
def toJson (c : Config) : Json :=
  .obj [("include_tests", .bool c.includeTests), ("respect_gitignore", .bool c.respectGitignore),
    ("languages", Json.strings (c.languages.map Language.word)),
    ("exclude", Json.strings c.exclude), ("extra_skip_dirs", Json.strings c.extraSkipDirs),
    ("route_files", Json.strings c.routeFiles), ("discover_routes", .bool c.discoverRoutes),
    ("go", .obj [("exported_only", .bool c.exportedOnly)]),
    ("max_file_bytes", .nat c.maxFileBytes)]

open Json in
/-- The settings for Go: whether only exported declarations are indexed. -/
def goOfJson? (j : Json) : Option Bool := do
  let fs ← fields? ["exported_only"] j
  withDefault false asBool? "exported_only" fs

open Json in
/-- The configuration that a JSON value describes. -/
def ofJson? (j : Json) : Option Config := do
  let fs ← fields? fieldNames j
  return {
    includeTests := ← withDefault false asBool? "include_tests" fs
    respectGitignore := ← withDefault true asBool? "respect_gitignore" fs
    languages := ← withDefault Language.all (asList? (asWord? Language.ofWord?)) "languages" fs
    exclude := ← withDefault [] (asList? asString?) "exclude" fs
    extraSkipDirs := ← withDefault [] (asList? asString?) "extra_skip_dirs" fs
    routeFiles := ← withDefault [] (asList? asString?) "route_files" fs
    discoverRoutes := ← withDefault true asBool? "discover_routes" fs
    exportedOnly := ← withDefault false goOfJson? "go" fs
    maxFileBytes := ← withDefault (2 * 1024 * 1024) asNat? "max_file_bytes" fs }

/-! ## Files -/

/-- The file that is read if no other is named. -/
def defaultFile : String := "symdex.json"

/-- A list without those of its items that equal the one before. -/
def dropRepeats : List Language → List Language
  | a :: b :: rest => if a = b then dropRepeats (b :: rest) else a :: dropRepeats (b :: rest)
  | short => short

/-- A configuration as it was read, with all languages if it names none. -/
def normalized (c : Config) : Config :=
  { c with languages := dropRepeats (if c.languages.isEmpty then Language.all else c.languages) }

/-- The configuration that a text describes; the default one if it describes none. -/
def ofText (text : List Char) : Config :=
  match (Json.readChars? text).bind ofJson? with
  | some c => c.normalized
  | none => {}

/-- The configuration in a file. No file means the default configuration. -/
def load (d : Disk) (path : String) : Except ConfigFault Config :=
  let path := if path.isEmpty then defaultFile else path
  if d.exists? path then
    match d.readText path with
    | .ok text => .ok (ofText text)
    | .error cause => .error (.unreadable path cause)
  else .ok {}

/-- The text that a configuration is saved as. -/
def text (c : Config) : String :=
  c.toJson.pretty

/-- Saves a configuration in a file. -/
def save (c : Config) (d : Disk) (path : String) : Except ConfigFault Disk :=
  match d.write path (bytesOf c.text) with
  | .ok d => .ok d
  | .error cause => .error (.unwritable path cause)

/-! ## Validity -/

/-- The first pattern that is not well-formed. -/
def badPattern? : List String → Option (String × Glob.Flaw)
  | [] => none
  | pattern :: rest =>
    match Glob.parse .plain pattern with
    | .error flaw => some (pattern, flaw)
    | .ok _ => badPattern? rest

/-- The first thing that is wrong with a configuration. -/
def fault? (c : Config) : Option ConfigFault :=
  if c.maxFileBytes = 0 then some .noFileFits
  else if c.languages.isEmpty then some .noLanguage
  else
    match badPattern? c.exclude with
    | some (pattern, flaw) => some (.badPattern pattern flaw)
    | none =>
      if c.extraSkipDirs.any fun name => name.toList.any fun ch => ch == '/' || ch == '\\' then
        some .pathAsName
      else none

end Config

end CodeAtlas
