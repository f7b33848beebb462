import CodeAtlas.Chunk
import CodeAtlas.Language
import CodeAtlas.Path
import CodeAtlas.Php.Call

/-!
# Routes

A route file registers routes by calls on `Route`, or on a variable that holds a
router. Every call in the file is looked at. A call of a verb makes a route, `match`
one for each of its verbs, and a resource one for each of its conventional actions.
A group makes none; those inside it are found on their own.

The calls chained to a route give it its name and middleware: a prefix such as
`Route::middleware('auth')->get(…)` and what follows, as in `…->name('home')`.
-/

namespace CodeAtlas

open Grammar Php

/-- A registered route. -/
structure Route where
  method : String
  uri : String
  controller : String
  action : String
  filePath : String
  line : Nat
  endLine : Nat
  name : Option String := none
  middleware : List String := []
  code : String

namespace Route

/-- What handles a route: a controller and one of its actions. -/
structure Handler where
  controller : String := ""
  action : String := ""
  deriving DecidableEq, Repr

/-- A handler as it is written behind a route. -/
def handlerText (controller action : String) : String :=
  if controller.isEmpty then ""
  else if action.isEmpty then " " ++ controller
  else " " ++ controller ++ "@" ++ action

/-- The chunk of a route. -/
def toChunk (r : Route) : Chunk :=
  let name := r.method ++ " " ++ r.uri
  let c := { Chunk.new .route name Language.php.word r.filePath r.line r.endLine with
    signature := name ++ handlerText r.controller r.action, code := r.code }
  let c := c.setMeta "method" (.str r.method)
  let c := c.setMeta "uri" (.str r.uri)
  let c := c.setMeta "controller" (.str r.controller)
  let c := c.setMeta "action" (.str r.action)
  let c := match r.name with
    | some n => c.setMeta "route_name" (.str n)
    | none => c
  c.setMeta "middleware" (Json.strings r.middleware)

/-- The methods that register a route for one verb. -/
def verbs : List String := ["get", "post", "put", "patch", "delete", "options", "any"]

/-- The names of the class that routes are registered on. -/
def facades : List String := ["Route", "Illuminate\\Support\\Facades\\Route"]

/-- The variables that hold a router. -/
def routers : List String := ["router", "route"]

/-- The actions of a resource: name, verb, and what follows the name of the resource
    in the address. -/
def resourceActions : List (String × String × String) :=
  [("index", "GET", ""), ("create", "GET", "/create"), ("store", "POST", ""),
   ("show", "GET", "/\x7bid\x7d"), ("edit", "GET", "/\x7bid\x7d/edit"),
   ("update", "PUT/PATCH", "/\x7bid\x7d"), ("destroy", "DELETE", "/\x7bid\x7d")]

/-- The actions of a resource that have no form to show. -/
def apiActions : List String := ["index", "store", "show", "update", "destroy"]

/-- Routes are registered on that class. -/
def isFacade (scope : String) : Bool :=
  facades.contains (String.ofList (scope.toList.dropWhile (· == '\\')))

/-- A string with the letters of ASCII in upper case. -/
def upperCase (s : String) : String :=
  String.ofList (s.toList.map Char.toUpper)

/-- The string that an argument is; empty if it is none. -/
def uriOf (arg : Option Literal) : String :=
  (arg.bind Literal.string?).getD ""

/-- The controller that an argument names. -/
def controllerOf? : Literal → Option String
  | .classRef s => some s
  | .text s => some s
  | _ => none

/-- The handler that an argument names: a controller and an action in a list or with
    an `@` between them, or a closure. -/
def handlerOf : Option Literal → Handler
  | some (.list [controller, .text action]) =>
    match controllerOf? controller with
    | some c => ⟨c, action⟩
    | none => {}
  | some (.text s) =>
    match Text.cutAt? ['@'] s.toList with
    | some (controller, action) => ⟨String.ofList controller, String.ofList action⟩
    | none => {}
  | some .closure => ⟨"Closure", ""⟩
  | _ => {}

/-- The middleware that the arguments of a call name. -/
def middlewareOf (args : List Literal) : List String :=
  args.flatMap fun arg => match arg with
    | .list _ => arg.strings
    | _ => arg.string?.toList

/-- The middleware that a chain of calls names, from its first call to the given
    one. -/
def chainMiddleware (source : Source) : ParseTree Kind → List String
  | .node kind r extent parts =>
    let own := match callSite? source (.node kind r extent parts) with
      | some call => if call.name == "middleware" then middlewareOf call.args else []
      | none => []
    match parts with
    | object :: _ =>
      if kind = .memberCall && (object.isKind .memberCall || object.isKind .scopedCall) then
        chainMiddleware source object ++ own
      else own
    | [] => own
  | .sign .. => []

/-- Whether a call is addressed to a router; if so, the middleware that the calls
    before it in its chain name. -/
def lead? (source : Source) (call : ParseTree Kind) : Option (List String) := do
  let subject ← subject? call
  if call.isKind .scopedCall then
    if isFacade (subject.text source) then some [] else none
  else if call.isKind .memberCall then
    if subject.isKind .variable then
      let name := String.ofList ((subject.text source).toList.dropWhile (· == '$'))
      if routers.contains name then some [] else none
    else
      let first ← callSite? source (innermostCall subject)
      match first.receiver with
      | .static scope => if isFacade scope then some (chainMiddleware source subject) else none
      | _ => none
  else none

/-- Takes up what a call chained behind a route says of it. -/
def addChained (source : Source) (r : Route) (call : ParseTree Kind) : Route :=
  match callSite? source call with
  | none => r
  | some site =>
    if site.name == "name" then { r with name := site.args.head?.bind Literal.string? }
    else if site.name == "middleware" then
      { r with middleware := r.middleware ++ middlewareOf site.args }
    else r

/-- The routes that a call registers, given what they have in common. -/
def register (call : CallSite) (base : Route) : List Route :=
  let args := call.args
  if verbs.contains call.name then
    let handler := handlerOf (args.drop 1).head?
    [{ base with
      method := upperCase call.name, uri := uriOf args.head?
      controller := handler.controller, action := handler.action }]
  else if call.name == "match" then
    let handler := handlerOf (args.drop 2).head?
    ((args.head?.map Literal.strings).getD []).map fun verb =>
      { base with
        method := upperCase verb, uri := uriOf (args.drop 1).head?
        controller := handler.controller, action := handler.action }
  else if call.name == "resource" || call.name == "apiResource" then
    let name := Text.dropEnd (· == '/') (uriOf args.head?).toList
    let controller := ((args.drop 1).head?.bind controllerOf?).getD ""
    (resourceActions.filter fun (action, _) =>
      call.name == "resource" || apiActions.contains action).map
      fun (action, verb, suffix) =>
        { base with method := verb, uri := String.ofList name ++ suffix, controller, action }
  else []

/-- The routes that a call registers. `chain` holds the calls chained behind it,
    nearest first. -/
def ofCall (source : Source) (path : String) (chain : List (ParseTree Kind))
    (call : ParseTree Kind) : List Route :=
  match lead? source call, callSite? source call with
  | some middleware, some site =>
    let whole := chain.getLast?.getD call
    let base : Route :=
      { method := "", uri := "", controller := "", action := "", filePath := path
        line := site.line, endLine := whole.endLine, middleware, code := whole.text source }
    register site (chain.foldl (addChained source) base)
  | _, _ => []

mutual

/-- The routes that the calls in a tree register. `chain` holds the calls chained
    behind the tree, nearest first. -/
def inTree (source : Source) (path : String) (chain : List (ParseTree Kind)) :
    ParseTree Kind → List Route
  | .sign .. => []
  | .node kind r extent parts =>
    let t := ParseTree.node kind r extent parts
    ofCall source path chain t ++
      inTrees source path (if kind = .memberCall then t :: chain else []) parts

/-- The routes that the calls in some trees register. `chain` holds the calls
    chained behind the first of them. -/
def inTrees (source : Source) (path : String) (chain : List (ParseTree Kind)) :
    List (ParseTree Kind) → List Route
  | [] => []
  | t :: ts => inTree source path chain t ++ inTrees source path [] ts

end

/-- The routes of a file, in the order of the calls that register them; none if it
    does not parse. -/
def ofFile? (path : String) (source : Source) : Option (List Route) :=
  (parse? source).map (inTree source (Path.slashed path) [])

end Route

end CodeAtlas
