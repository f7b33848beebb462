import CodeAtlas.Chunk.Record
import CodeAtlas.Index

/-!
# The command line

What the program does with its arguments (`CommandLine.run`): it indexes the roots they
name and prints the chunks as JSON, one after the other, or it writes the default
configuration. Arguments are read from left to right, and the first that is wrong, or
asks for help or the version, decides (`Options.read`).
-/

namespace CodeAtlas.CommandLine

/-- What the arguments ask for. -/
structure Options where
  /-- What to index, in order. -/
  roots : List String := []
  /-- The file with the configuration. -/
  config : Option String := none
  /-- Files with tests are indexed as well. -/
  includeTests : Bool := false
  /-- The languages to index, if not those of the configuration. -/
  languages : List Language := []
  /-- Further files with routes. -/
  routes : List String := []
  /-- Chunks are printed over several lines. -/
  pretty : Bool := false
  /-- The default configuration is written, and nothing is indexed. -/
  initConfig : Bool := false

/-- Why arguments are not followed. -/
inductive Refusal where
  | usage
  | help
  | version

/-- An option that takes a value. -/
inductive ValueOption where
  | config
  | language
  | routes

/-- An option without a value. -/
inductive FlagOption where
  | includeTests
  | pretty
  | initConfig
  | help
  | version

/-- An option of either kind. -/
inductive OptionName where
  | value (o : ValueOption)
  | flag (o : FlagOption)

/-- The option of a long name. -/
def OptionName.ofLong? : String → Option OptionName
  | "config" => some (.value .config)
  | "language" => some (.value .language)
  | "routes" => some (.value .routes)
  | "include-tests" => some (.flag .includeTests)
  | "pretty" => some (.flag .pretty)
  | "init-config" => some (.flag .initConfig)
  | "help" => some (.flag .help)
  | "version" => some (.flag .version)
  | _ => none

/-- The option of a letter. -/
def OptionName.ofLetter? : Char → Option OptionName
  | 'c' => some (.value .config)
  | 'l' => some (.value .language)
  | 'h' => some (.flag .help)
  | 'V' => some (.flag .version)
  | _ => none

namespace Options

/-- Adds a root. -/
def addRoot (o : Options) (root : String) : Except Refusal Options :=
  if root.isEmpty then .error .usage else .ok { o with roots := o.roots ++ [root] }

/-- Enters the value of an option. -/
def enter (o : Options) (name : ValueOption) (value : String) : Except Refusal Options :=
  match name with
  | .config => if o.config.isSome then .error .usage else .ok { o with config := some value }
  | .language =>
    match Language.ofName? value with
    | some l => .ok { o with languages := o.languages ++ [l] }
    | none => .error .usage
  | .routes =>
    if value.isEmpty then .error .usage else .ok { o with routes := o.routes ++ [value] }

/-- Sets an option without a value, which may be given once. -/
def set (o : Options) : FlagOption → Except Refusal Options
  | .includeTests => if o.includeTests then .error .usage else .ok { o with includeTests := true }
  | .pretty => if o.pretty then .error .usage else .ok { o with pretty := true }
  | .initConfig => if o.initConfig then .error .usage else .ok { o with initConfig := true }
  | .help => .error .help
  | .version => .error .version

/-- An argument could be an option, so it is no value. -/
def isOptionLike (arg : String) : Bool :=
  arg.toList.head? == some '-' && arg.length > 1

/-- What reading an argument leads to. -/
inductive Step where
  | done (o : Options)
  /-- The next argument is the value of an option. -/
  | needsValue (o : Options) (name : ValueOption)

/-- Reads an argument that starts with two hyphens, given what follows them. -/
def readLong (o : Options) (body : List Char) : Except Refusal Step :=
  let name := body.takeWhile (· != '=')
  let value? := match body.drop name.length with
    | _ :: value => some (String.ofList value)
    | [] => none
  match OptionName.ofLong? (String.ofList name), value? with
  | some (.value v), some value => (o.enter v value).map .done
  | some (.value v), none => .ok (.needsValue o v)
  | some (.flag f), none => (o.set f).map .done
  | _, _ => .error .usage

/-- Reads the letters behind one hyphen. A letter whose option takes a value takes
    what follows it, behind an equals sign if there is one. -/
def readLetters (o : Options) : List Char → Except Refusal Step
  | [] => .ok (.done o)
  | c :: rest =>
    match OptionName.ofLetter? c with
    | none => .error .usage
    | some (.flag f) =>
      match o.set f with
      | .error refusal => .error refusal
      | .ok o => readLetters o rest
    | some (.value v) =>
      if rest.isEmpty then .ok (.needsValue o v)
      else (o.enter v (String.ofList (Text.dropLead ['='] rest))).map .done

/-- Adds roots. -/
def addRoots (o : Options) : List String → Except Refusal Options
  | [] => .ok o
  | root :: rest =>
    match o.addRoot root with
    | .error refusal => .error refusal
    | .ok o => addRoots o rest

/-- Reads arguments; `waiting` is the option whose value comes next. -/
def readFrom (o : Options) (waiting : Option ValueOption) : List String → Except Refusal Options
  | [] => if waiting.isSome then .error .usage else .ok o
  | arg :: rest =>
    match waiting with
    | some v =>
      if isOptionLike arg then .error .usage
      else
        match o.enter v arg with
        | .error refusal => .error refusal
        | .ok o => readFrom o none rest
    | none =>
      if arg == "--" then addRoots o rest
      else
        let step := match arg.toList with
          | '-' :: '-' :: body => o.readLong body
          | '-' :: c :: letters => o.readLetters (c :: letters)
          | _ => (o.addRoot arg).map .done
        match step with
        | .error refusal => .error refusal
        | .ok (.done o) => readFrom o none rest
        | .ok (.needsValue o v) => readFrom o (some v) rest

/-- Reads the arguments. There must be something to do. -/
def read (args : List String) : Except Refusal Options :=
  match readFrom {} none args with
  | .error refusal => .error refusal
  | .ok o => if o.roots.isEmpty && !o.initConfig then .error .usage else .ok o

end Options

/-! ## Running -/

/-- What a run of the program leaves behind. -/
structure Outcome where
  exitCode : Nat
  stdout : String := ""
  stderr : String := ""
  disk : Disk

/-- The name and version of the program. -/
def versionText : String := "symdex 0.3.0\n"

/-- How the program is called. -/
def usageText : String := "Usage: symdex [OPTIONS] [ROOTS]...\n"

/-- What the program can do. -/
def helpText : String :=
  String.intercalate "\n" [
    "Turn Go, PHP, Python and Markdown trees into symbol chunks (JSON lines)",
    "",
    "Usage: symdex [OPTIONS] [ROOTS]...",
    "",
    "Arguments:",
    "  [ROOTS]...  Files or directories to index, in order",
    "",
    "Options:",
    "  -c, --config <CONFIG>       JSON config file (defaults to ./symdex.json when present)",
    "      --include-tests         Index test files too",
    "  -l, --language <LANGUAGES>  Restrict to a language; repeatable (go, php, python, markdown)",
    "      --routes <ROUTES>       Route file to parse; repeatable. Disables route discovery",
    "      --pretty                Pretty-print each chunk",
    "      --init-config           Write the default configuration to ./symdex.json and exit",
    "  -h, --help                  Print help",
    "  -V, --version               Print version",
    ""]

/-- A cause of an error, its further lines indented under the first. -/
def causeLines (first next : String) (cause : String) : String :=
  let lines := (Text.splitOn (· == '\n') cause.toList).map String.ofList
  first ++ String.intercalate ("\n" ++ next) lines

/-- The causes of an error, numbered if there are several. -/
def causeList (numbered : Bool) (n : Nat) : List String → List String
  | [] => []
  | cause :: rest =>
    let text :=
      if numbered then causeLines ("    " ++ toString n ++ ": ") "       " cause
      else causeLines "    " "    " cause
    text :: causeList numbered (n + 1) rest

/-- What is printed of an error, from the outermost message inwards. -/
def errorText : List String → String
  | [] => "Error: \n"
  | [message] => "Error: " ++ message ++ "\n"
  | message :: causes =>
    "Error: " ++ message ++ "\n\nCaused by:\n" ++
      String.intercalate "\n" (causeList (causes.length > 1) 0 causes) ++ "\n"

/-- A run that failed. -/
def failure (d : Disk) (messages : List String) : Outcome :=
  { exitCode := 1, stderr := errorText messages, disk := d }

/-- What is printed of the chunks. -/
def chunkLines (pretty : Bool) (chunks : List Chunk) : String :=
  String.join (chunks.map fun c =>
    (if pretty then c.toJson.pretty else c.toJson.compress) ++ "\n")

/-- The configuration with what the arguments say. -/
def adjust (o : Options) (c : Config) : Config :=
  { c with
    includeTests := c.includeTests || o.includeTests
    languages := if o.languages.isEmpty then c.languages else o.languages
    routeFiles := c.routeFiles ++ o.routes }

/-- Indexes what the arguments ask for. -/
def indexAll (d : Disk) (o : Options) : Outcome :=
  match Config.load d (o.config.getD "") with
  | .error fault => failure d fault.messages
  | .ok config =>
    let config := adjust o config
    match config.fault? with
    | some fault => failure d ("invalid configuration" :: fault.messages)
    | none =>
      match index { config, disk := d } o.roots with
      | .error fault => failure d ["indexing failed", fault.message]
      | .ok report => { exitCode := 0, stdout := chunkLines o.pretty report.chunks, disk := d }

/-- Runs the program. -/
def run (d : Disk) (args : List String) : Outcome :=
  match Options.read args with
  | .error .usage => { exitCode := 2, stderr := usageText, disk := d }
  | .error .help => { exitCode := 0, stdout := helpText, disk := d }
  | .error .version => { exitCode := 0, stdout := versionText, disk := d }
  | .ok o =>
    if o.initConfig then
      match Config.save {} d Config.defaultFile with
      | .ok d => { exitCode := 0, disk := d }
      | .error fault => failure d fault.messages
    else indexAll d o

end CodeAtlas.CommandLine
