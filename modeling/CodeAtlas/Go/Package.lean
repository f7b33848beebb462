import CodeAtlas.Go.Declaration

/-!
# Go packages

The files of a directory make one package. Its outline is put together from what
the declarations say (`PackageDoc`) and where they stand (`locationIndex`), joined
by their keys.

Methods go to the type they are declared on, in whatever file that is. A plain
function whose first result is a type of the package, or a pointer to one, is a
constructor of that type.
-/

namespace CodeAtlas.Go

open Grammar

/-- What a package says. -/
structure PackageDoc where
  name : String := ""
  doc : String := ""
  /-- The number of the file with the package's documentation. -/
  docFile : Option Nat := none
  docSpan : Span := {}
  types : List TypeDoc := []
  funcs : List FuncDoc := []
  consts : List ValueDoc := []
  vars : List ValueDoc := []

/-- Adds the name and the documentation in a package clause, unless there are
    such already. -/
def PackageDoc.addClause (p : PackageDoc) (file : Nat) (source : Source) (s : Sited Kind) :
    PackageDoc :=
  let p :=
    if p.name.isEmpty then
      match s.tree.nodes.find? (ParseTree.isKind .packageName) with
      | some name => { p with name := name.text source }
      | none => p
    else p
  let doc := docOf source s
  if p.doc.isEmpty && !doc.isEmpty then
    let first := match (leadingComments isComment s).head? with
      | some c => c.startLine
      | none => s.tree.startLine
    { p with doc, docFile := some file, docSpan := Span.lines first s.tree.endLine }
  else p

/-- Adds the package clauses of a file. -/
def PackageDoc.addFile (p : PackageDoc) (file : Nat) (f : File) : PackageDoc :=
  ((Sited.partsOf f.tree).filter (·.tree.isKind .packageClause)).foldl
    (fun p s => p.addClause file f.source s) p

/-- Changes the first element that satisfies `p`; none if there is no such. -/
def updateFirst? {α : Type} (p : α → Bool) (f : α → α) : List α → Option (List α)
  | [] => none
  | a :: as => if p a then some (f a :: as) else (updateFirst? p f as).map (a :: ·)

/-- Gives a method to the first type of its receiver's name; without one it is a
    function of the package. -/
def PackageDoc.attachMethod (p : PackageDoc) (m : FuncDoc) : PackageDoc :=
  let attached := m.receiverType.bind fun base =>
    updateFirst? (·.name == base)
      (fun (t : TypeDoc) => { t with methods := t.methods ++ [m] }) p.types
  match attached with
  | some types => { p with types }
  | none => { p with funcs := p.funcs ++ [m] }

/-- The name of the type that a function makes values of, if it is one of the
    package. -/
def FuncDoc.produces? (f : FuncDoc) : Option String :=
  match f.receiver with
  | some _ => none
  | none =>
    f.returns.head?.map fun r => receiverBase (String.ofList (Text.afterLast ' ' r.toList))

/-- Gives a function to the first type of the name that it produces; without one
    it stays a function of the package. -/
def PackageDoc.attachConstructor (p : PackageDoc) (f : FuncDoc) : PackageDoc :=
  let attached := f.produces?.bind fun name =>
    updateFirst? (·.name == name)
      (fun (t : TypeDoc) => { t with constructors := t.constructors ++ [f] }) p.types
  match attached with
  | some types => { p with types }
  | none => { p with funcs := p.funcs ++ [f] }

/-- The package with what is visible outside of it only. -/
def PackageDoc.exported (p : PackageDoc) : PackageDoc :=
  { p with
    funcs := p.funcs.filter fun f =>
      isExported f.name && (f.receiverType.map isExported).getD true
    consts := p.consts.filter (isExported ·.name)
    vars := p.vars.filter (isExported ·.name)
    types := (p.types.filter (isExported ·.name)).map fun t =>
      { t with
        methods := t.methods.filter (isExported ·.name)
        constructors := t.constructors.filter (isExported ·.name)
        fields := t.fields.filter fun f => f.embedded || isExported f.name } }

/-- The declarations of all files in order, with their keys. -/
def keyedDeclarations (files : List File) : List Declaration :=
  let decls := (files.mapIdx fun i f => f.declarations i).flatten
  List.zipWith Declaration.withKey (Keys.assign (decls.map Declaration.base)) decls

/-- What a package says, with methods and constructors at their types. -/
def PackageDoc.ofFiles (files : List File) (exportedOnly : Bool) : PackageDoc :=
  let decls := keyedDeclarations files
  let clauses := files.zipIdx.foldl (fun p (f, i) => p.addFile i f) ({} : PackageDoc)
  let plain : PackageDoc := { clauses with
    types := decls.filterMap fun d => match d with
      | .type t => some t
      | _ => none
    funcs := decls.filterMap fun d => match d with
      | .func f => some f
      | _ => none
    consts := decls.filterMap fun d => match d with
      | .value v => if v.isConst then some v else none
      | _ => none
    vars := decls.filterMap fun d => match d with
      | .value v => if v.isConst then none else some v
      | _ => none }
  let methods := decls.filterMap fun d => match d with
    | .method m => some m
    | _ => none
  let withMethods := methods.foldl PackageDoc.attachMethod plain
  let complete := withMethods.funcs.foldl PackageDoc.attachConstructor
    { withMethods with funcs := [] }
  if exportedOnly then complete.exported else complete

/-- The places of all declarations of the files, by key. -/
def locationIndex (files : List File) : Location.Index :=
  let entries := (files.mapIdx fun i f => f.locations i).flatten
  .ofList ((Keys.assign (entries.map (·.1))).zip (entries.map (·.2)))

/-- Takes quotes off both ends. -/
def unquoted (s : String) : String :=
  let isQuote (c : Char) := c == '"' || c == '\x60'
  String.ofList (Text.dropEnd isQuote (s.toList.dropWhile isQuote))

/-- The imports of a file. One without a name goes by the last part of its
    path. -/
def File.imports (f : File) : Imports :=
  (f.tree.nodes.filter (ParseTree.isKind .importDecl)).flatMap fun decl =>
    (specs [.importSpec] decl).filterMap fun spec =>
      (spec.tree.part? .path).map fun path =>
        let target := unquoted (path.text f.source)
        let name := match spec.tree.part? .name with
          | some name => name.text f.source
          | none => String.ofList (Text.afterLast '/' target.toList)
        { name, target }

/-- The path, lines and source of the declaration with a key. -/
def locate (files : List File) (index : Location.Index) (key : String) :
    String × Span × String :=
  match index.get? key with
  | some l =>
    match files[l.file]? with
    | some f => (f.path, l.span, l.excerpt f.source)
    | none => ("", l.span, "")
  | none => ("", Span.lines 1 1, "")

/-- The path of a declaration, or else that of its file. -/
def pathOr (files : List File) (path : String) (file : Nat) : String :=
  if path.isEmpty then ((files[file]?).map (·.path)).getD "" else path

/-- The symbol of a function or method. -/
def callable (files : List File) (index : Location.Index) (f : FuncDoc) : Callable :=
  let (path, span, code) := locate files index f.key
  { name := f.name
    filePath := pathOr files path f.file
    span
    signature := f.signature
    doc := f.doc
    code
    receiver := f.receiverType
    params := f.params
    returns := f.returns }

/-- The symbol of a method that an interface lists. -/
def interfaceMethod (path : String) (m : FuncDoc) : Callable :=
  { name := m.name
    filePath := path
    signature := m.methodSpec
    doc := m.doc
    params := m.params
    returns := m.returns
    isAbstract := true }

/-- The symbol of a type. -/
def typeDef (files : List File) (index : Location.Index) (t : TypeDoc) : TypeDef :=
  let (path, span, code) := locate files index t.key
  { name := t.name
    kind := t.kind
    filePath := pathOr files path t.file
    span
    signature := t.signature
    doc := t.doc
    code
    fields := t.fields
    methods :=
      if t.kind = .interface then t.interfaceMethods.map (interfaceMethod path)
      else t.methods.map (callable files index)
    dependencies := (t.fields.filter (·.embedded)).map fun f =>
      String.ofList (f.type.toList.dropWhile (· == '*')) }

/-- The symbol of a constant or variable. -/
def binding (files : List File) (index : Location.Index) (v : ValueDoc) : Binding :=
  let (path, span, code) := locate files index v.key
  { name := v.name
    filePath := pathOr files path v.file
    span
    signature := v.signature
    doc := v.doc
    code
    type := v.type
    value := v.value }

/-- The symbol of a constructor. -/
def constructor (files : List File) (index : Location.Index) (type : String) (f : FuncDoc) :
    Callable :=
  { callable files index f with typeDeps := [type], constructs := some type }

/-- The outline of the package that the files in a directory make. -/
def packageOutline (directory : String) (files : List File) (exportedOnly : Bool) : Outline :=
  let index := locationIndex files
  let p := PackageDoc.ofFiles files exportedOnly
  let documented : Outline := match p.docFile with
    | some i => {
        language := .go, path := Path.slashed directory, package := p.name, doc := p.doc
        docFile := ((files[i]?).map (·.path)).getD "", docSpan := p.docSpan }
    | none => { language := .go, path := Path.slashed directory, package := p.name }
  { documented with
    imports := files.flatMap File.imports
    types := p.types.map (typeDef files index)
    functions :=
      p.types.flatMap (fun t => t.constructors.map (constructor files index t.name)) ++
        p.funcs.map (callable files index)
    constants := p.consts.map (binding files index)
    vars := p.vars.map (binding files index) }

/-- The file at a path with a content, if it is a Go file. -/
def File.ofBytes? (path : String) (content : Bytes) : Option File :=
  let source := Source.ofBytes content
  (parse? source).map fun tree => { path := Path.slashed path, source, tree }

/-- The outline of the package made of the given files of a directory. Files that
    are not Go are left out; none if no file remains. -/
def outline? (directory : String) (contents : List (String × Bytes)) (exportedOnly : Bool) :
    Option Outline :=
  match contents.filterMap fun (path, content) => File.ofBytes? path content with
  | [] => none
  | files => some (packageOutline directory files exportedOnly)

end CodeAtlas.Go
