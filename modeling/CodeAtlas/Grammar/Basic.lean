import CodeAtlas.Grammar.Tree

/-!
# Grammars

A source text is cut into lexemes first: solid ones (words, signs, literals),
asides such as comments, which may stand between any two solid ones, and line
ends. A `Grammar` then says which sequences of solid lexemes are accepted and
what tree they make. Choices are ordered: the first alternative that matches is
taken (`Grammar.alt`). A line end separates nothing by itself; a grammar asks for
one (`Grammar.lineEnd`), or forbids to pass one (`Grammar.sameLine`), where its
language needs it.

Where an aside goes in the tree is fixed by where it stands: it becomes a part of
the innermost node that has parts on both sides of it. So a node never starts or
ends with an aside.

Left recursion is written with `Grammar.grow`: what was read so far becomes the
first part of the node that the next step makes, as in `a.b().c`.
-/

namespace CodeAtlas.Grammar

/-- What a lexeme is: an aside that makes a node of its own, the end of a line,
    or a solid lexeme of some sort. -/
inductive Form (κ φ : Type) where
  | aside (kind : κ)
  | lineEnd
  | solid (sort : φ)

/-- A piece of source text. `text` is what grammars compare; a lexer may write it
    in one letter case. -/
structure Lexeme (κ φ : Type) where
  form : Form κ φ
  text : String
  extent : Extent

/-- A condition on a solid lexeme: one given text, or any but some. -/
inductive Terminal (φ : Type) where
  | exactly (sort : φ) (text : String)
  | any (sort : φ) (except : List String)

/-- Whether a solid lexeme of the sort `sort` and the text `text` satisfies a
    condition. -/
def Terminal.accepts {φ : Type} [DecidableEq φ] : Terminal φ → φ → String → Bool
  | .exactly s t, sort, text => s = sort && t == text
  | .any s except, sort, text => s = sort && !except.contains text

end Grammar

open Grammar in
/-- A grammar over node kinds `κ`, lexeme sorts `φ` and rule names `ρ`. -/
inductive Grammar (κ φ ρ : Type) where
  /-- Matches without reading anything. -/
  | empty
  /-- Never matches. -/
  | reject
  /-- A word or sign. -/
  | sign (t : Terminal φ)
  /-- A lexeme that makes a node of the kind `kind`. -/
  | leaf (t : Terminal φ) (kind : κ)
  /-- The end of a line. -/
  | lineEnd
  /-- The end of the text. -/
  | finish
  /-- Matches without reading anything where an aside of the kind `kind` stands
      before the next lexeme. -/
  | aside (kind : κ)
  /-- What the rule of that name says. -/
  | rule (r : ρ)
  /-- The first, then the second. -/
  | seq (a b : Grammar κ φ ρ)
  /-- The first, or else the second. -/
  | alt (a b : Grammar κ φ ρ)
  /-- Any number of times. -/
  | many (a : Grammar κ φ ρ)
  /-- Groups what it reads into a node. -/
  | node (kind : κ) (a : Grammar κ φ ρ)
  /-- The first, then steps: each makes a node that takes what was read so far as
      its first part, as long as that has a kind in `onto`. -/
  | grow (onto : κ → Bool) (first step : Grammar κ φ ρ)
  /-- Gives what it reads a role. -/
  | role (r : Role) (a : Grammar κ φ ρ)
  /-- The second, if the first would match here. -/
  | ahead (a b : Grammar κ φ ρ)
  /-- The second, if the first would not match here. -/
  | notAhead (a b : Grammar κ φ ρ)
  /-- Matches without reading anything if `a` would match behind the bracketed
      group that starts here. -/
  | behindGroup (a : Grammar κ φ ρ)

namespace Grammar

variable {κ φ ρ : Type}

/-- One after the other. -/
def all : List (Grammar κ φ ρ) → Grammar κ φ ρ
  | [] => .empty
  | [a] => a
  | a :: as => .seq a (all as)

/-- The first that matches. -/
def oneOf : List (Grammar κ φ ρ) → Grammar κ φ ρ
  | [] => .reject
  | [a] => a
  | a :: as => .alt a (oneOf as)

/-- If it matches, or nothing. -/
def opt (a : Grammar κ φ ρ) : Grammar κ φ ρ :=
  .alt a .empty

/-- `a`, if no line ends before it. -/
def sameLine (a : Grammar κ φ ρ) : Grammar κ φ ρ :=
  .notAhead .lineEnd a

/-- At least one `a`, with a `sep` between any two. -/
def sepBy (sep a : Grammar κ φ ρ) : Grammar κ φ ρ :=
  .seq a (.many (.seq sep a))

/-- A language: its rules, and which solid lexemes open (`some true`) and close
    (`some false`) a bracketed group. -/
structure Dialect (κ φ ρ : Type) where
  rules : ρ → Grammar κ φ ρ
  bracket : φ → String → Option Bool

/-- What a grammar read, and what remains. -/
abbrev Outcome (κ φ : Type) := Option (List (ParseTree κ) × List (Lexeme κ φ))

/-- The asides before the next solid lexeme, and the input from there on. Line
    ends are passed only if `across` is set. -/
def passAsides (across : Bool) : List (Lexeme κ φ) → List (ParseTree κ) × List (Lexeme κ φ)
  | [] => ([], [])
  | l :: rest =>
    match l.form with
    | .aside k =>
      let (asides, input) := passAsides across rest
      (.node k none l.extent [] :: asides, input)
    | .lineEnd => if across then passAsides across rest else ([], l :: rest)
    | .solid _ => ([], l :: rest)

/-- Reads one solid lexeme that satisfies `t`, making a tree of it by `make`. -/
def readSolid [DecidableEq φ] (t : Terminal φ) (make : Lexeme κ φ → ParseTree κ)
    (input : List (Lexeme κ φ)) : Outcome κ φ :=
  match passAsides true input with
  | (asides, l :: rest) =>
    match l.form with
    | .solid sort => if t.accepts sort l.text then some (asides ++ [make l], rest) else none
    | _ => none
  | _ => none

/-- The input behind the bracketed group whose opening signs, `depth` of them, are
    read already. -/
def closeGroup (bracket : φ → String → Option Bool) (depth : Nat) :
    List (Lexeme κ φ) → List (Lexeme κ φ)
  | [] => []
  | l :: rest =>
    match l.form with
    | .solid sort =>
      match bracket sort l.text with
      | some true => closeGroup bracket (depth + 1) rest
      | some false => if depth ≤ 1 then rest else closeGroup bracket (depth - 1) rest
      | none => closeGroup bracket depth rest
    | _ => closeGroup bracket depth rest

/-- The input behind the bracketed group that starts here, if one does. -/
def behind? (bracket : φ → String → Option Bool) (input : List (Lexeme κ φ)) :
    Option (List (Lexeme κ φ)) :=
  match (passAsides true input : List (ParseTree κ) × List (Lexeme κ φ)).2 with
  | l :: rest =>
    match l.form with
    | .solid sort =>
      if bracket sort l.text == some true then some (closeGroup bracket 1 rest) else none
    | _ => none
  | [] => none

/-- Splits off the asides at the start of a list of trees. -/
def splitAsides (isAside : ParseTree κ → Bool) (ts : List (ParseTree κ)) :
    List (ParseTree κ) × List (ParseTree κ) :=
  ts.span isAside

/-- Makes a node of what was read; asides at its start stay outside. -/
def enclose (isAside : ParseTree κ → Bool) (kind : κ) (ts : List (ParseTree κ)) :
    List (ParseTree κ) :=
  let (asides, parts) := splitAsides isAside ts
  asides ++ [.node kind none (extentOf .origin parts) parts]

/-- Puts the tree read so far, the last of `left`, in front of the parts of the
    node that a step made, together with the asides before that node. -/
def graft (isAside : ParseTree κ → Bool) (left step : List (ParseTree κ)) : List (ParseTree κ) :=
  match left.getLast?, splitAsides isAside step with
  | some t, (asides, .node k r e ps :: rest) =>
    left.dropLast ++ .node k r ⟨t.extent.start, e.stop⟩ (t :: asides ++ ps) :: rest
  | _, _ => left ++ step

/-- Whether the last tree is a node with a kind in `onto`. -/
def endsIn (onto : κ → Bool) (ts : List (ParseTree κ)) : Bool :=
  match ts.getLast? with
  | some (.node k _ _ _) => onto k
  | _ => false

/-- Whether an aside of the kind `kind` stands before the next solid lexeme. -/
def asideAhead [DecidableEq κ] (kind : κ) (input : List (Lexeme κ φ)) : Bool :=
  (passAsides true input).1.any (ParseTree.isKind kind)

/-- Nothing solid is left. -/
def atEnd (input : List (Lexeme κ φ)) : Bool :=
  (passAsides true input : List (ParseTree κ) × List (Lexeme κ φ)).2.isEmpty

variable [DecidableEq κ] [DecidableEq φ]

mutual

/-- Runs a grammar on the input. The fuel bounds the depth of the run: nested
    rules, and repetitions as well. -/
def run (d : Dialect κ φ ρ) (isAside : ParseTree κ → Bool) :
    Nat → Grammar κ φ ρ → List (Lexeme κ φ) → Outcome κ φ
  | 0, _, _ => none
  | n + 1, g, input =>
    match g with
    | .empty => some ([], input)
    | .reject => none
    | .sign t => readSolid t (fun l => .sign l.text none l.extent) input
    | .leaf t k => readSolid t (fun l => .node k none l.extent []) input
    | .lineEnd =>
      match passAsides false input with
      | (asides, l :: rest) =>
        match l.form with
        | .lineEnd => some (asides, rest)
        | _ => none
      | _ => none
    | .finish => if atEnd input then some ([], input) else none
    | .aside k => if asideAhead k input then some ([], input) else none
    | .rule r => run d isAside n (d.rules r) input
    | .seq a b =>
      match run d isAside n a input with
      | none => none
      | some (ts, input') =>
        match run d isAside n b input' with
        | none => none
        | some (us, input'') => some (ts ++ us, input'')
    | .alt a b =>
      match run d isAside n a input with
      | some o => some o
      | none => run d isAside n b input
    | .many a =>
      match run d isAside n a input with
      | none => some ([], input)
      | some (ts, input') =>
        match run d isAside n (.many a) input' with
        | none => none
        | some (us, input'') => some (ts ++ us, input'')
    | .node k a =>
      match run d isAside n a input with
      | none => none
      | some (ts, input') => some (enclose isAside k ts, input')
    | .grow onto a step =>
      match run d isAside n a input with
      | none => none
      | some (ts, input') => extend d isAside n onto step ts input'
    | .role r a =>
      match run d isAside n a input with
      | none => none
      | some (ts, input') =>
        some (ts.map fun t => if isAside t then t else t.withRole r, input')
    | .ahead a b =>
      match run d isAside n a input with
      | none => none
      | some _ => run d isAside n b input
    | .notAhead a b =>
      match run d isAside n a input with
      | none => run d isAside n b input
      | some _ => none
    | .behindGroup a =>
      match behind? d.bracket input with
      | none => none
      | some input' =>
        match run d isAside n a input' with
        | none => none
        | some _ => some ([], input)

/-- Takes steps from what was read so far, `ts`, as long as one matches. -/
def extend (d : Dialect κ φ ρ) (isAside : ParseTree κ → Bool) :
    Nat → (κ → Bool) → Grammar κ φ ρ → List (ParseTree κ) → List (Lexeme κ φ) → Outcome κ φ
  | 0, _, _, _, _ => none
  | n + 1, onto, step, ts, input =>
    if endsIn onto ts then
      match run d isAside n step input with
      | none => some (ts, input)
      | some (us, input') => extend d isAside n onto step (graft isAside ts us) input'
    else some (ts, input)

end

/-- Fuel for an input: no rule nests deeper than this for each lexeme. -/
def fuelFor (input : List (Lexeme κ φ)) : Nat :=
  512 * (input.length + 8)

/-- Reads a whole text: the rule `r` must match up to its end. All that was read,
    asides included, become the parts of a node of the kind `kind`. -/
def Dialect.parse? (d : Dialect κ φ ρ) (isAside : ParseTree κ → Bool) (r : ρ) (kind : κ)
    (input : List (Lexeme κ φ)) : Option (ParseTree κ) :=
  match run d isAside (fuelFor input) (.rule r) input with
  | none => none
  | some (ts, rest) =>
    match passAsides true rest with
    | (asides, []) =>
      let parts := ts ++ asides
      some (.node kind none (extentOf .origin parts) parts)
    | _ => none

end CodeAtlas.Grammar
