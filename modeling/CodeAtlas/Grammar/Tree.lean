import CodeAtlas.Text.Utf8

/-!
# Syntax trees

A tree keeps all of its source: words and signs, named nodes, and the comments
between them, each with the place where it stands. What a part is to the tree
around it (its name, its type, its body) is its `Role`.

`leadingComments` finds the comments that document a node: those directly above
it, with no line between them, unless the topmost candidate stands at the end of
a line of something else.
-/

namespace CodeAtlas.Grammar

/-- A place in a source text: the number of bytes before it, its line, counted
    from one, and the number of bytes before it on that line. -/
structure Position where
  byte : Nat
  line : Nat
  column : Nat
  deriving DecidableEq, Repr

/-- The place where a source text starts. -/
def Position.origin : Position := ⟨0, 1, 0⟩

/-- The place after the glyph `g` that stands at `p`. -/
def Position.advance (p : Position) (g : Glyph) : Position :=
  if g.is '\n' then ⟨p.byte + 1, p.line + 1, 0⟩
  else ⟨p.byte + g.size, p.line, p.column + g.size⟩

/-- A stretch of source, up to the place `stop`. -/
structure Extent where
  start : Position
  stop : Position
  deriving DecidableEq, Repr

/-- What a part is to the tree around it. -/
inductive Role where
  | name | type | value | path | body | parameters | result | receiver
  | typeParameters | typeArguments | tag | length | element | key | operator | operand
  | field | arguments | object | scope | callee | default | left | right
  deriving DecidableEq, Repr

/-- A syntax tree over the kinds `κ`: a word or sign as it is written, or a node
    of some kind with its parts. -/
inductive ParseTree (κ : Type) where
  | sign (text : String) (role : Option Role) (extent : Extent)
  | node (kind : κ) (role : Option Role) (extent : Extent) (parts : List (ParseTree κ))

namespace ParseTree

variable {κ : Type}

/-- Where the tree stands. -/
def extent : ParseTree κ → Extent
  | .sign _ _ e => e
  | .node _ _ e _ => e

/-- The role of the tree in the tree around it. -/
def role : ParseTree κ → Option Role
  | .sign _ r _ => r
  | .node _ r _ _ => r

/-- The parts of a node. -/
def parts : ParseTree κ → List (ParseTree κ)
  | .sign .. => []
  | .node _ _ _ ps => ps

/-- The kind of a node. -/
def kind? : ParseTree κ → Option κ
  | .sign .. => none
  | .node k _ _ _ => some k

/-- The tree is a node. -/
def isNode : ParseTree κ → Bool
  | .sign .. => false
  | .node .. => true

/-- The tree is a node of the kind `k`. -/
def isKind [DecidableEq κ] (k : κ) : ParseTree κ → Bool
  | .sign .. => false
  | .node k' _ _ _ => k = k'

/-- The tree is the sign or word `s`. -/
def isSign (s : String) : ParseTree κ → Bool
  | .sign t _ _ => s == t
  | .node .. => false

/-- The parts that are nodes. -/
def nodes (t : ParseTree κ) : List (ParseTree κ) :=
  t.parts.filter isNode

/-- The first part with the role `r`. -/
def part? (r : Role) (t : ParseTree κ) : Option (ParseTree κ) :=
  t.parts.find? (·.role == some r)

/-- All parts with the role `r`. -/
def partsAs (r : Role) (t : ParseTree κ) : List (ParseTree κ) :=
  t.parts.filter (·.role == some r)

/-- Gives the tree a role, unless it has one. -/
def withRole (r : Role) : ParseTree κ → ParseTree κ
  | .sign s none e => .sign s (some r) e
  | .node k none e ps => .node k (some r) e ps
  | t => t

/-- The source text of the tree. -/
def text (source : Source) (t : ParseTree κ) : String :=
  source.excerpt t.extent.start.byte t.extent.stop.byte

/-- The line on which the tree starts. -/
def startLine (t : ParseTree κ) : Nat :=
  t.extent.start.line

/-- The last line of the tree. A tree that stops before the first character of a
    line ends on the line before. -/
def endLine (t : ParseTree κ) : Nat :=
  let stop := t.extent.stop
  let line := if stop.column == 0 && stop.line > t.startLine then stop.line - 1 else stop.line
  max line t.startLine

end ParseTree

/-- The stretch from the start of the first tree to the end of the last. -/
def extentOf {κ : Type} (fallback : Position) (ts : List (ParseTree κ)) : Extent :=
  match ts.head?, ts.getLast? with
  | some first, some last => ⟨first.extent.start, last.extent.stop⟩
  | _, _ => ⟨fallback, fallback⟩

/-- A node among its siblings: the sibling nodes before it, nearest first. -/
structure Sited (κ : Type) where
  before : List (ParseTree κ)
  tree : ParseTree κ

namespace Sited

variable {κ : Type}

/-- Pairs each node of a list with the nodes before it; `before` holds those
    already passed, nearest first. -/
def listFrom (before : List (ParseTree κ)) : List (ParseTree κ) → List (Sited κ)
  | [] => []
  | t :: ts => ⟨before, t⟩ :: listFrom (t :: before) ts

/-- The nodes that are parts of `t`, each among its siblings. -/
def partsOf (t : ParseTree κ) : List (Sited κ) :=
  listFrom [] t.nodes

end Sited

/-- The comments directly above line `line`, nearest first, among the siblings
    `before`. A comment counts when it ends on the line just above and does not
    stand behind something else on its own first line. -/
def commentsAbove {κ : Type} (isComment : ParseTree κ → Bool) (line : Nat) :
    List (ParseTree κ) → List (ParseTree κ)
  | [] => []
  | t :: before =>
    let trailing := match before with
      | [] => false
      | b :: _ => !isComment b && b.endLine == t.startLine
    if isComment t && !trailing && t.endLine + 1 == line then
      t :: commentsAbove isComment t.startLine before
    else []

/-- The comments that document a node, in source order. -/
def leadingComments {κ : Type} (isComment : ParseTree κ → Bool) (s : Sited κ) :
    List (ParseTree κ) :=
  (commentsAbove isComment s.tree.startLine s.before).reverse

end CodeAtlas.Grammar
