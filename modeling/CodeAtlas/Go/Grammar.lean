import CodeAtlas.Go.Lexeme

/-!
# The grammar of Go

Which texts are Go files, and their trees. Declarations, types and parameter
lists are resolved in full; of expressions, only the forms that an initializer is
rendered from have kinds of their own, and every other expression is a
`complex` node.

Three points where this grammar decides what the language leaves to its
compiler:

* statements may stand at the top of a file, and the package clause may be
  missing or repeated;
* in a constant specification the commas between the names are among the names;
* `chan<- chan T` is a channel of `<-chan T`, since an arrow binds to the `chan`
  that follows it.

A line end closes a statement only where the statement could be over; elsewhere
it is white space. The context of an expression or type says whether that is so
(`Ctx.closes`), and whether a brace after it opens the body of the statement
whose header it is part of (`Ctx.header`).
-/

namespace CodeAtlas.Go

open Grammar

/-- The kinds of nodes. -/
inductive Kind where
  | file | comment | packageClause | packageName | importDecl | importList | importSpec | dot
  | constDecl | constSpec | varDecl | varList | varSpec | typeDecl | typeSpec | typeAlias
  | funcDecl | methodDecl | paramList | param | variadicParam | typeParamList | typeParam
  | block | statement | exprList
  | identifier | int | float | imaginary | rune | text | rawText | yes | no | nothing | iota
  | selector | unary | paren | complex
  | typeName | qualified | pointer | slice | array | openArray | map | interface | struct
  | function | channel | generic | typeArgs | typeElem | parenType | negated
  | fieldList | field | methodElem
  deriving DecidableEq, Repr

/-- Where an expression or type stands: whether a line end may close what it is
    part of, and whether it is in the header of a statement with a body. -/
structure Ctx where
  closes : Bool
  header : Bool

/-- Inside brackets. -/
def Ctx.inner : Ctx := ⟨false, false⟩

/-- In a statement. -/
def Ctx.line : Ctx := ⟨true, false⟩

/-- In the header of a statement. -/
def Ctx.head : Ctx := ⟨false, true⟩

/-- The names of the rules. -/
inductive Rule where
  | file | topLevel | statement | statements | block | simple (c : Ctx) | ifStatement
  | declaration | type (c : Ctx) | bareType (c : Ctx) | namedType (c : Ctx) | typeElem (c : Ctx)
  | params | param | namedParam | typeParams | fields | structField | interfaceElem
  | expr (c : Ctx) | unary (c : Ctx) | postfixed (c : Ctx) | primary (c : Ctx)
  | exprList (c : Ctx) | literalValue | args

/-- A grammar of Go. -/
abbrev G := Grammar Kind Token Rule

/-- The sign `s`. -/
def sign (s : String) : G := .sign (.exactly .sign s)

/-- The word `s`. -/
def word (s : String) : G := .sign (.exactly .word s)

/-- The word `s` as a node of the kind `k`. -/
def wordAs (s : String) (k : Kind) : G := .leaf (.exactly .word s) k

/-- An opening brace. -/
def braceOpen : G := sign "\x7b"

/-- A closing brace. -/
def braceClose : G := sign "\x7d"

/-- The words that start a type. -/
def typeWords : List String := ["func", "map", "chan", "struct", "interface"]

/-- The words that are expressions of their own or start one. -/
def exprWords : List String := typeWords ++ ["true", "false", "nil", "iota"]

/-- The words that start a statement other than a simple one. -/
def statementWords : List String :=
  ["const", "type", "var", "return", "go", "defer", "if", "for", "switch", "select",
   "fallthrough", "break", "continue", "goto", "case", "default"]

/-- An identifier, none of the words `except`. -/
def ident (except : List String) : G := .leaf (.any .word except) .identifier

/-- `a`, on the same line where a line end would close what it is part of. -/
def goingOn (c : Ctx) (a : G) : G := if c.closes then sameLine a else a

/-- What ends a statement: a line end, a semicolon or a null character. -/
def terminator : G := oneOf [.lineEnd, sign ";", sign "\x00"]

/-- A terminator, which may be missing before one of `closers`. -/
def endsBefore (closers : G) : G := oneOf [terminator, .ahead closers .empty]

/-- Items between commas, with a comma allowed behind the last. -/
def commaList (a : G) : G := .seq (sepBy (sign ",") a) (opt (sign ","))

/-- A string of either form. -/
def string : G := oneOf [.leaf (.any .text []) .text, .leaf (.any .rawText []) .rawText]

/-- What stands where a function's result does. -/
def result (c : Ctx) : G :=
  opt (goingOn c (.role .result (oneOf [.rule .params, .rule (.bareType c)])))

/-- The signs of binary operations. -/
def binarySigns : List String :=
  ["*", "/", "%", "<<", ">>", "&", "&^", "+", "-", "|", "^", "==", "!=", "<", "<=", ">", ">=",
   "&&", "||"]

/-- The signs of assignments other than `=` and `:=`. -/
def updateSigns : List String :=
  ["+=", "-=", "*=", "/=", "%=", "&=", "|=", "^=", "<<=", ">>=", "&^="]

/-- One of some signs. -/
def anySign (signs : List String) : G := oneOf (signs.map sign)

/-- What makes a simple statement of a list of expressions. -/
def assignment (c : Ctx) : G :=
  goingOn c (oneOf [
    .seq (anySign (["=", ":="] ++ updateSigns)) (.rule (.exprList c)),
    sign "++", sign "--", .seq (sign "<-") (.rule (.expr c))])

/-- Declarations of one word: a specification, or a list of them in
    parentheses. -/
def grouped (spec : G) : G :=
  oneOf [all [sign "(", .many (.seq spec (endsBefore (sign ")"))), sign ")"], spec]

/-- The specification of one import. -/
def importSpec : G :=
  .node .importSpec (all [
    opt (.role .name (oneOf [.leaf (.exactly .sign ".") .dot, .leaf (.any .word []) .packageName])),
    .role .path string])

/-- The imports. -/
def importDecl : G :=
  .node .importDecl (all [word "import", oneOf [
    .node .importList (all [sign "(", .many (.seq importSpec (endsBefore (sign ")"))), sign ")"]),
    importSpec]])

/-- The specification of constants. -/
def constSpec : G :=
  .node .constSpec (all [
    .role .name (sepBy (sign ",") (ident [])),
    opt (sameLine (all [
      opt (.role .type (.rule (.type .line))), sign "=", .role .value (.rule (.exprList .line))]))])

/-- The specification of variables. -/
def varSpec : G :=
  let values := .role .value (.rule (.exprList .line))
  .node .varSpec (all [
    sepBy (sign ",") (.role .name (ident [])),
    oneOf [
      .seq (sign "=") values,
      .seq (.role .type (.rule (.type .line))) (opt (sameLine (.seq (sign "=") values)))]])

/-- The specification of a type, or of another name for one. -/
def typeSpec : G :=
  let name := .role .name (.leaf (.any .word []) .typeName)
  let params := opt (.role .typeParameters (.rule .typeParams))
  let type := .role .type (.rule (.type .line))
  oneOf [
    .node .typeAlias (all [name, params, sign "=", type]),
    .node .typeSpec (all [name, params, type]),
    .node .typeSpec (all [name, type])]

/-- Declarations that may stand in any block. -/
def declaration : G :=
  oneOf [
    .node .constDecl (.seq (word "const") (grouped constSpec)),
    .node .varDecl (.seq (word "var") (oneOf [
      .node .varList (all [sign "(", .many (.seq varSpec (endsBefore (sign ")"))), sign ")"]),
      varSpec])),
    .node .typeDecl (.seq (word "type") (grouped typeSpec))]

/-- Functions and methods, whose body may be missing. -/
def functions : G :=
  let params := .role .parameters (.rule .params)
  let body := opt (sameLine (.role .body (.rule .block)))
  oneOf [
    .node .funcDecl (all [
      word "func", .role .name (ident []), opt (.role .typeParameters (.rule .typeParams)),
      params, result .line, body]),
    .node .methodDecl (all [
      word "func", .role .receiver (.rule .params), .role .name (ident []), params,
      result .line, body])]

/-- What may stand at the top of a file only. -/
def topLevel : G :=
  oneOf [
    .node .packageClause (.seq (word "package") (.leaf (.any .word []) .packageName)),
    importDecl, functions]

/-- Statements up to one of `closers`. -/
def statementsBefore (closers : G) : G :=
  .many (oneOf [.seq (.rule .statement) (endsBefore closers), terminator])

/-- The cases of a switch or select, `guard` being what `case` is followed by. -/
def cases (guard : G) : G :=
  let body := statementsBefore (oneOf [braceClose, word "case", word "default"])
  all [
    braceOpen,
    .many (oneOf [
      all [word "case", guard, sign ":", body],
      all [word "default", sign ":", body]]),
    braceClose]

/-- The header of an `if`: a condition, after an optional simple statement. -/
def ifHeader : G :=
  let condition := .rule (.expr .head)
  oneOf [
    all [sign ";", condition],
    .seq (.rule (.exprList .head)) (oneOf [
      all [assignment .head, sign ";", condition],
      all [sign ";", condition],
      .empty])]

/-- The header of a `for`. -/
def forHeader : G :=
  let range := .seq (word "range") (.rule (.expr .head))
  let clauses := all [
    opt (.notAhead (sign ";") (.rule (.expr .head))), sign ";",
    oneOf [.ahead braceOpen .empty, .rule (.simple .head)]]
  oneOf [
    .ahead braceOpen .empty,
    range,
    .seq (sign ";") clauses,
    .seq (.rule (.exprList .head)) (oneOf [
      .seq (anySign ["=", ":="]) (oneOf [
        range, all [.rule (.exprList .head), sign ";", clauses]]),
      all [assignment .head, sign ";", clauses],
      .seq (sign ";") clauses,
      .empty])]

/-- The header of a `switch`. -/
def switchHeader : G :=
  let rest := oneOf [.ahead braceOpen .empty, .rule (.simple .head)]
  oneOf [
    .ahead braceOpen .empty,
    .seq (sign ";") rest,
    all [.rule (.exprList .head), opt (assignment .head), opt (.seq (sign ";") rest)]]

/-- A statement. -/
def statement : G :=
  let jump (s : String) := .seq (word s) (opt (sameLine (ident [])))
  oneOf [
    .rule .declaration,
    .rule .block,
    .rule .ifStatement,
    .seq (word "return") (opt (sameLine (.notAhead (oneOf [sign ";", braceClose])
      (.rule (.exprList .line))))),
    .seq (oneOf [word "go", word "defer"]) (.rule (.expr .line)),
    all [word "for", forHeader, .rule .block],
    all [word "switch", switchHeader, cases (sepBy (sign ",")
      (oneOf [.rule (.expr .inner), .rule (.type .inner)]))],
    .seq (word "select") (cases (.rule (.simple .inner))),
    word "fallthrough", jump "break", jump "continue", .seq (word "goto") (ident []),
    .notAhead (oneOf (statementWords.map word)) (oneOf [
      all [ident exprWords, sign ":", opt (.rule .statement)],
      .rule (.simple .line)])]

/-- A type that a name starts: the name, qualified or not, with its type
    arguments. -/
def namedType (c : Ctx) : G :=
  let args := .node .typeArgs (all [sign "[", commaList (.rule (.typeElem .inner)), sign "]"])
  .grow (fun k => k != .generic)
    (oneOf [
      .node .qualified (all [
        .leaf (.any .word typeWords) .packageName, sign ".", .leaf (.any .word []) .typeName]),
      .leaf (.any .word typeWords) .typeName])
    (.node .generic (goingOn c (.role .typeArguments args)))

/-- A type without parentheses around it. -/
def bareType (c : Ctx) : G :=
  let type := .rule (.type c)
  let value := .role .value type
  oneOf [
    .node .pointer (.seq (sign "*") type),
    .node .struct (.seq (word "struct") (.rule .fields)),
    .node .interface (all [
      word "interface", braceOpen,
      .many (.seq (.rule .interfaceElem) (endsBefore braceClose)), braceClose]),
    .node .slice (all [sign "[", sign "]", .role .element type]),
    .node .array (all [
      sign "[", .role .length (.rule (.expr .inner)), sign "]", .role .element type]),
    .node .map (all [
      word "map", sign "[", .role .key (.rule (.type .inner)), sign "]", value]),
    .node .channel (.seq (word "chan") (oneOf [
      .ahead (.seq (sign "<-") (word "chan")) value, .seq (sign "<-") value, value])),
    .node .channel (all [sign "<-", word "chan", value]),
    .node .function (all [word "func", .role .parameters (.rule .params), result c]),
    .node .negated (.seq (sign "~") type),
    .rule (.namedType c)]

/-- One declaration in a parameter list: names with their type, or a type. -/
def param : G :=
  let type := .role .type (.rule (.type .inner))
  oneOf [
    .node .variadicParam (all [opt (.role .name (ident typeWords)), sign "...", type]),
    .node .param (.rule .namedParam),
    .node .param type]

/-- Names, with commas between them, and the type they share. -/
def namedParam : G :=
  .seq (.role .name (ident typeWords)) (oneOf [
    .seq (sign ",") (.rule .namedParam), .role .type (.rule (.type .inner))])

/-- The declaration of a field: names with a type, or an embedded type. -/
def structField : G :=
  let tag := opt (sameLine (.role .tag string))
  let stop := oneOf [terminator, braceClose]
  .node .field (oneOf [
    all [opt (sign "*"), .role .type (.rule (.namedType .line)), tag, .ahead stop .empty],
    all [sepBy (sign ",") (.role .name (ident [])), .role .type (.rule (.type .line)), tag]])

/-- What an interface holds: a method, or a union of types. -/
def interfaceElem : G :=
  oneOf [
    .node .methodElem (all [
      .role .name (ident []), .role .parameters (.rule .params), result .line]),
    .rule (.typeElem .line)]

/-- What may stand in brackets behind an operand: an index, a slice, or type
    arguments. -/
def indexBody : G :=
  let expr := .rule (.expr .inner)
  let bounds := all [opt (.notAhead (sign ":") expr), opt (.seq (sign ":") expr)]
  let item := oneOf [expr, .rule (.type .inner)]
  oneOf [
    .seq (sign ":") bounds,
    .seq item (oneOf [
      .seq (sign ":") bounds,
      .seq (.many (.seq (sign ",") item)) (opt (sign ","))])]

/-- Whether a brace opens a literal: always, but in a header only if something
    follows on the closing line that could not follow a body. -/
def literalAhead (c : Ctx) : G :=
  if c.header then
    .behindGroup (sameLine (oneOf [braceOpen, sign ".", sign "(", sign "[", sign ",", sign ":=",
      sign "=", anySign binarySigns]))
  else .empty

/-- A step that makes a larger operand of one: a selector, a type assertion, an
    index, a call, a literal of a type. -/
def operandStep (c : Ctx) : G :=
  goingOn c (oneOf [
    .node .selector (.seq (sign ".") (.role .field (ident []))),
    .node .complex (all [sign ".", sign "(", oneOf [word "type", .rule (.type .inner)], sign ")"]),
    .node .complex (all [sign "[", indexBody, sign "]"]),
    .node .complex (.rule .args),
    .node .complex (.ahead braceOpen (.seq (literalAhead c) (.rule .literalValue)))])

/-- A type that is used as an operand, by a literal or a conversion. -/
def operandType (c : Ctx) : G :=
  .ahead (oneOf [sign "[", word "map", word "struct", word "interface", word "chan"])
    (oneOf [
      .node .openArray (all [
        sign "[", sign "...", sign "]", .role .element (.rule (.type c))]),
      .rule (.bareType c)])

/-- The smallest operands. -/
def primary (c : Ctx) : G :=
  oneOf [
    .leaf (.any .int []) .int, .leaf (.any .float []) .float,
    .leaf (.any .imaginary []) .imaginary, .leaf (.any .rune []) .rune, string,
    wordAs "true" .yes, wordAs "false" .no, wordAs "nil" .nothing, wordAs "iota" .iota,
    .node .paren (all [
      sign "(", oneOf [.seq (.rule (.expr .inner)) (sign ")"),
      .seq (.rule (.type .inner)) (sign ")")]]),
    .node .complex (all [
      word "func", .rule .params, result .inner,
      oneOf [.rule .block, all [sign "(", .rule (.expr .inner), opt (sign ","), sign ")"]]]),
    .node .complex (.seq (operandType c) (oneOf [
      .rule .literalValue,
      all [sign "(", .rule (.expr .inner), opt (sign ","), sign ")"]])),
    .node .complex (all [
      oneOf [word "new", word "make"], sign "(",
      opt (.seq (.rule (.type .inner)) (.seq (.many (.seq (sign ",") (.rule (.expr .inner))))
        (opt (sign ",")))),
      sign ")"]),
    ident exprWords]

/-- What each rule says. -/
def rules : Rule → G
  | .file =>
    .many (oneOf [
      .seq (oneOf [.rule .topLevel, .rule .declaration,
        .notAhead (oneOf [word "package", word "import"]) (.rule .statement)])
        (endsBefore .finish),
      sign ";", sign "\x00"])
  | .topLevel => topLevel
  | .statement => .node .statement statement
  | .statements => statementsBefore braceClose
  | .block => .node .block (all [braceOpen, .rule .statements, braceClose])
  | .simple c => .seq (.rule (.exprList c)) (opt (assignment c))
  | .ifStatement =>
    all [word "if", ifHeader, .rule .block,
      opt (sameLine (.seq (word "else") (oneOf [.rule .ifStatement, .rule .block])))]
  | .declaration => declaration
  | .type c =>
    oneOf [.node .parenType (all [sign "(", .rule (.type .inner), sign ")"]), .rule (.bareType c)]
  | .bareType c => bareType c
  | .namedType c => namedType c
  | .typeElem c => .node .typeElem (sepBy (goingOn c (sign "|")) (.rule (.type c)))
  | .params => .node .paramList (all [sign "(", opt (commaList (.rule .param)), sign ")"])
  | .param => param
  | .namedParam => namedParam
  | .typeParams =>
    .node .typeParamList (all [
      sign "[",
      commaList (.node .typeParam (.seq (sepBy (sign ",") (.role .name (ident [])))
        (sepBy (sign "|") (.role .type (.rule (.type .inner)))))),
      sign "]"])
  | .fields =>
    .node .fieldList (all [
      braceOpen, .many (.seq (.rule .structField) (endsBefore braceClose)), braceClose])
  | .structField => structField
  | .interfaceElem => interfaceElem
  | .expr c =>
    .grow (fun _ => true) (.rule (.unary c))
      (.node .complex (goingOn c (.seq (anySign binarySigns) (.rule (.unary c)))))
  | .unary c =>
    oneOf [
      .node .unary (.seq (.role .operator (anySign ["+", "-", "!", "^", "*", "&", "<-"]))
        (.role .operand (.rule (.unary c)))),
      .rule (.postfixed c)]
  | .postfixed c => .grow (fun _ => true) (.rule (.primary c)) (operandStep c)
  | .primary c => primary c
  | .exprList c => .node .exprList (sepBy (goingOn c (sign ",")) (.rule (.expr c)))
  | .literalValue =>
    let value := oneOf [.rule .literalValue, .rule (.expr .inner)]
    all [braceOpen, opt (commaList (.seq value (opt (.seq (sign ":") value)))), braceClose]
  | .args =>
    all [sign "(",
      opt (commaList (.seq (.rule (.expr .inner)) (opt (sign "...")))), sign ")"]

/-- The brackets of Go. -/
def bracket : Token → String → Option Bool
  | .sign, "(" | .sign, "[" | .sign, "\x7b" => some true
  | .sign, ")" | .sign, "]" | .sign, "\x7d" => some false
  | _, _ => none

/-- The language. -/
def dialect : Dialect Kind Token Rule := ⟨rules, bracket⟩

/-- The node is a comment. -/
def isComment : ParseTree Kind → Bool := ParseTree.isKind .comment

/-- The tree of a Go file, if it is one. -/
def parse? (source : Source) : Option (ParseTree Kind) :=
  dialect.parse? isComment .file .file (lexemes .comment source)

end CodeAtlas.Go
