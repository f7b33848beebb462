import CodeAtlas.Outline
import CodeAtlas.Php.Value

/-!
# Calls

Two views of the calls in a body. `callNames` lists the names of all that is called
anywhere in it, an outer call before those inside. `bodyCalls` lists the calls that
its statements consist of; of a chain such as `$this->hasMany(Post::class)->latest()`
that is the first one.
-/

namespace CodeAtlas.Php

open Grammar

/-- The kinds of calls. -/
def callKinds : List Kind := [.memberCall, .nullsafeCall, .scopedCall, .functionCall]

/-- The node is a call. -/
def isCall (t : ParseTree Kind) : Bool :=
  callKinds.any t.isKind

/-- What is called, or what it is called on: the operand in front of a call. -/
def subject? (call : ParseTree Kind) : Option (ParseTree Kind) :=
  call.nodes.head?

/-- The name of what is called, be it a name or not. -/
def calleeOf? (call : ParseTree Kind) : Option (ParseTree Kind) :=
  if call.isKind .functionCall then subject? call else call.part? .name

/-- The first call of a chain. Every step goes from a call of a member to the call
    that the member belongs to. -/
def innermostCall : ParseTree Kind → ParseTree Kind
  | .node kind r extent (object :: parts) =>
    if (kind = .memberCall || kind = .nullsafeCall) && isCall object then innermostCall object
    else .node kind r extent (object :: parts)
  | t => t

/-- What a call of a member is addressed to. -/
def receiverOf (source : Source) (object : ParseTree Kind) : Receiver :=
  if object.isKind .variable then
    let text := object.text source
    if text == "$this" then .this
    else .variable (String.ofList (text.toList.dropWhile (· == '$')))
  else .other

/-- A call as a call site, if what is called has a name. -/
def callSite? (source : Source) (call : ParseTree Kind) : Option CallSite := do
  let subject ← subject? call
  let receiver :=
    if call.isKind .memberCall || call.isKind .nullsafeCall then receiverOf source subject
    else if call.isKind .scopedCall then .static (subject.text source)
    else .bare
  let name ← calleeOf? call
  if isCall call && isName name then
    some
      { receiver
        name := name.text source
        args := ((call.part? .arguments).map (argumentsOf source)).getD []
        line := call.startLine }
  else none

/-- The calls that the statements of a body consist of. -/
def bodyCalls (source : Source) (body : ParseTree Kind) : List CallSite :=
  body.nodes.filterMap fun statement => do
    let expression ←
      if statement.isKind .returning || statement.isKind .expressionStatement then
        statement.nodes.find? (!isComment ·)
      else none
    if isCall expression then callSite? source (innermostCall expression) else none

mutual

/-- Adds the names of all calls in a tree to `names`. -/
def addCallNames (source : Source) (names : List String) : ParseTree Kind → List String
  | .sign .. => names
  | .node kind r extent parts =>
    let call := ParseTree.node kind r extent parts
    let names :=
      if isCall call then
        match calleeOf? call with
        | some name => if isName name then pushUnique names (name.text source) else names
        | none => names
      else names
    addAllCallNames source names parts

/-- Adds the names of all calls in some trees to `names`. -/
def addAllCallNames (source : Source) (names : List String) : List (ParseTree Kind) → List String
  | [] => names
  | t :: ts => addAllCallNames source (addCallNames source names t) ts

end

/-- The names of all calls in a body, each once. -/
def callNames (source : Source) (body : ParseTree Kind) : List String :=
  addCallNames source [] body

end CodeAtlas.Php
