import CodeAtlas.CommandLine

/-!
# The program

Loads what the arguments name from the file system, runs `CommandLine.run` on it, and
prints the outcome. Nothing is decided here.
-/

namespace CodeAtlas.Program

/-- The bytes of a file. -/
def readBytes (path : String) : IO Bytes := do
  return (← IO.FS.readBinFile path).data.toList

/-- The entries of a directory. What is neither a file nor a directory, or cannot be
    read, is left out. -/
partial def readTree (path : String) : IO FileTree := do
  let mut tree := FileTree.empty
  for e in ← (← IO.FS.realPath path).readDir do
    let inner := Path.join path e.fileName
    try
      let info ← e.path.symlinkMetadata
      match info.type with
      | .dir => tree := tree.insert e.fileName (.directory (← readTree inner))
      | .file => tree := tree.insert e.fileName (.file (← readBytes inner))
      | _ => pure ()
    catch _ => pure ()
  return tree

/-- What stands at a path. -/
def readEntry? (path : String) : IO (Option Entry) := do
  try
    let info ← (← IO.FS.realPath path).metadata
    match info.type with
    | .dir => return some (.directory (← readTree path))
    | _ => return some (.file (← readBytes path))
  catch _ => return none

/-- The file system with what stands at a path. -/
def load (d : Disk) (path : String) : IO Disk := do
  match ← readEntry? path with
  | none => return d
  | some e =>
    let place := Path.parts (← IO.FS.realPath path).toString
    return { d with root := d.root.put place e }

/-- The file system with the directories that a path leads through. -/
def loadWay (d : Disk) (path : String) : IO Disk := do
  let mut disk := d
  let mut way := if Path.isAbsolute path then "/" else "."
  for part in Path.parts path do
    way := Path.join way part
    try
      let real ← IO.FS.realPath way
      if ← real.isDir then
        disk := { disk with root := disk.root.makeDirectory (Path.parts real.toString) }
    catch _ => pure ()
  return disk

/-- The file system with the ignore files of the directories around a path. -/
def loadIgnores (d : Disk) (path : String) : IO Disk := do
  let mut disk := d
  try
    let mut way := "/"
    for part in Path.parts (← IO.FS.realPath path).toString do
      for name in [".ignore", ".gitignore", ".git/info/exclude"] do
        disk ← load disk (Path.join way name)
      way := Path.join way part
  catch _ => pure ()
  return disk

/-- The file system with all that the arguments name. -/
def loadAll (d : Disk) (o : CommandLine.Options) : IO Disk := do
  let mut disk ← load d (o.config.getD Config.defaultFile)
  let listed := match Config.load disk (o.config.getD "") with
    | .ok config => config.routeFiles
    | .error _ => []
  for path in o.roots ++ o.routes ++ listed do
    disk ← load disk path
  for path in o.roots ++ o.routes ++ listed do
    disk ← loadWay disk path
  for root in o.roots do
    disk ← loadIgnores disk root
  return disk

/-- Loads, runs and prints. -/
def run (args : List String) : IO UInt32 := do
  let here := Path.parts (← IO.currentDir).toString
  let empty : Disk := { root := FileTree.empty.makeDirectory here, here }
  let disk ← match CommandLine.Options.read args with
    | .ok o => loadAll empty o
    | .error _ => pure empty
  let outcome := CommandLine.run disk args
  (← IO.getStdout).putStr outcome.stdout
  (← IO.getStderr).putStr outcome.stderr
  match CommandLine.Options.read args, outcome.disk.read Config.defaultFile with
  | .ok o, .ok content =>
    if o.initConfig then IO.FS.writeBinFile Config.defaultFile ⟨content.toArray⟩
  | _, _ => pure ()
  return UInt32.ofNat outcome.exitCode

end CodeAtlas.Program

/-- The program. -/
def main (args : List String) : IO UInt32 :=
  CodeAtlas.Program.run args
