import CodeAtlas.Php.Lexeme

/-!
# The grammar of PHP

Which texts are PHP files, and their trees. Declarations, calls, arrays, strings
and names are resolved in full, since outlines, models and routes are read off
them; other expressions and statements are read only as far as needed to find the
calls in them.

Words of the language are names wherever no such word can stand: after `class`,
`function` or an arrow, or at the start of an operand if they only start
statements. The statement that a closing tag ends needs no semicolon.

Binary operators other than `and`, `or` and `xor` are read from left to right
without regard to their precedence: nothing that is read off a tree depends on it.
-/

namespace CodeAtlas.Php

open Grammar

/-- The kinds of nodes. -/
inductive Kind where
  | file | comment | pause | html | tag
  | namespaceDecl | namespaceName | useDecl | useClause | useGroup
  | classDecl | interfaceDecl | traitDecl | enumDecl | functionDecl | constDecl | constElement
  | memberList | method | property | propertyElement | hook | traitUse | traitRule | enumCase
  | attributes | bases | interfaces
  | visibility | staticMark | abstractMark | finalMark | readonlyMark | varMark | referenceMark
  | paramList | param | promotedParam | variadicParam | type
  | block | returning | expressionStatement | statement
  | name | qualifiedName | relativeName | relativeScope | variable | dynamicVariable | content
  | string | encapsed | heredoc | shell | number | constant
  | array | element | byReference | spread | listPattern | classConstant | closure | paren
  | memberCall | nullsafeCall | scopedCall | functionCall | memberAccess | scopedAccess | subscript
  | args | arg | placeholder | assignment | binary | creation | expression
  deriving DecidableEq, Repr

/-- The names of the rules. -/
inductive Rule where
  | file | statement | statements | block | type | params | attributes
  | classMembers | enumMembers | hooks | args
  | expr | choice | operand | postfixed | primary | anyName | classTarget | array | listPattern
  | listItem | stringPart | member

/-- A grammar of PHP. -/
abbrev G := Grammar Kind Token Rule

/-- The sign `s`. -/
def sign (s : String) : G := .sign (.exactly .sign s)

/-- One of some signs. -/
def anySign (signs : List String) : G := oneOf (signs.map sign)

/-- The word `s`. -/
def word (s : String) : G := .sign (.exactly .word s)

/-- One of some words. -/
def anyWord (words : List String) : G := oneOf (words.map word)

/-- The word `s` as a node of the kind `k`. -/
def wordAs (k : Kind) (s : String) : G := .leaf (.exactly .word s) k

/-- A word as a name, none of those in `except`. -/
def nameBut (except : List String) : G := .leaf (.any .word except) .name

/-- Any word as a name. -/
def nameAny : G := nameBut []

/-- A variable. -/
def variableLeaf : G := .leaf (.any .variable []) .variable

/-- An opening brace. -/
def braceOpen : G := sign "\x7b"

/-- A closing brace. -/
def braceClose : G := sign "\x7d"

/-- In parentheses. -/
def inParens (a : G) : G := all [sign "(", a, sign ")"]

/-- In braces. -/
def inBraces (a : G) : G := all [braceOpen, a, braceClose]

/-- Items between commas. -/
def commas (a : G) : G := sepBy (sign ",") a

/-- Any number of items between commas, and a comma that may follow. -/
def looseCommas (a : G) : G := .seq (opt (commas a)) (opt (sign ","))

/-- What ends a statement: a semicolon, or a closing tag. -/
def terminator : G := oneOf [sign ";", .aside .pause]

/-- The words that start an operand or are one. -/
def operandWords : List String :=
  ["new", "clone", "print", "include", "include_once", "require", "require_once", "function", "fn",
   "static", "array", "list", "match", "throw", "yield", "true", "false", "null", "self", "parent",
   "namespace"]

/-- The words that start a statement, or a part of one. -/
def statementWords : List String :=
  ["abstract", "break", "case", "class", "const", "continue", "declare", "default", "do", "echo",
   "else", "elseif", "enddeclare", "endfor", "endforeach", "endif", "endswitch", "endwhile", "enum",
   "exit", "final", "for", "foreach", "global", "goto", "if", "interface", "readonly", "return",
   "switch", "trait", "try", "unset", "use", "while"]

/-- The words for the class around, as names. -/
def classWords : G := oneOf (["self", "parent", "static"].map (wordAs .name))

/-- The words before a parameter that are no type. -/
def modifierWords : List String := ["public", "protected", "private", "readonly"]

/-! ## Names and types -/

/-- What follows the first word of a qualified name. -/
def furtherWords : G := .many (.seq (sign "\\") (.sign (.any .word [])))

/-- A name: of one word, qualified, or relative to the namespace. -/
def anyName : G :=
  let more := .seq (sign "\\") (.sign (.any .word []))
  oneOf [
    .node .relativeName (all [word "namespace", more, furtherWords]),
    .node .qualifiedName (.seq more furtherWords),
    .node .qualifiedName (all [.sign (.any .word operandWords), more, furtherWords]),
    nameBut operandWords]

/-- A name in a list of classes. -/
def className : G := oneOf [.rule .anyName, classWords]

/-- A type: a name, nullable or not, an intersection, or a union whose members may
    be intersections in parentheses. -/
def type : G :=
  let single := .seq (opt (sign "?")) (.node .qualifiedName
    (all [opt (sign "\\"), .sign (.any .word modifierWords), furtherWords]))
  let joined := .seq (sign "&") single
  .node .type (oneOf [
    all [single, joined, .many joined],
    sepBy (sign "|") (oneOf [inParens (.seq single (.many joined)), single])])

/-- The type of a result. -/
def resultType : G := opt (.seq (sign ":") (.role .result (.rule .type)))

/-! ## Declarations -/

/-- Attributes before a declaration. -/
def someAttributes : G := opt (.rule .attributes)

/-- Who sees a member, or may write it. -/
def visibilityMark : G :=
  .node .visibility (.seq (anyWord ["public", "protected", "private"])
    (opt (inParens (word "set"))))

/-- What may stand before a member. -/
def modifier : G :=
  oneOf [
    visibilityMark, wordAs .staticMark "static", wordAs .abstractMark "abstract",
    wordAs .finalMark "final", wordAs .readonlyMark "readonly", wordAs .varMark "var"]

/-- A mark that something is passed by reference. -/
def reference : G := opt (.leaf (.exactly .sign "&") .referenceMark)

/-- The value that is given to a name unless there is another. -/
def defaultValue : G := opt (.seq (sign "=") (.role .default (.rule .expr)))

/-- What makes a parameter a property. -/
def promotion : G := oneOf [visibilityMark, wordAs .readonlyMark "readonly"]

/-- A parameter. -/
def param : G :=
  let typed := opt (.role .type (.rule .type))
  oneOf [
    .node .promotedParam (all [
      someAttributes, promotion, .many promotion, typed,
      .role .name (oneOf [.node .byReference (.seq (sign "&") variableLeaf), variableLeaf]),
      defaultValue, opt (.rule .hooks)]),
    .node .variadicParam (all [
      someAttributes, typed, reference, sign "...", .role .name variableLeaf]),
    .node .param (all [someAttributes, typed, reference, .role .name variableLeaf, defaultValue])]

/-- A function from its word to its result. -/
def functionHead : G :=
  all [word "function", reference, .role .name nameAny, .role .parameters (.rule .params),
    resultType]

/-- A body in braces. -/
def body : G := .role .body (.rule .block)

/-- The classes that a class extends. -/
def basesClause : G := opt (.node .bases (.seq (word "extends") (commas className)))

/-- The interfaces of a class. -/
def interfacesClause : G := opt (.node .interfaces (.seq (word "implements") (commas className)))

/-- The members of a class. -/
def classBody : G := .role .body (.rule .classMembers)

/-- Classes, interfaces, traits and enumerations. -/
def typeDecl : G :=
  let classMark := oneOf [
    wordAs .finalMark "final", wordAs .abstractMark "abstract", wordAs .readonlyMark "readonly"]
  let named (s : String) := .seq (word s) (.role .name nameAny)
  oneOf [
    .node .classDecl (all [
      someAttributes, .many classMark, named "class", basesClause, interfacesClause, classBody]),
    .node .interfaceDecl (all [someAttributes, named "interface", basesClause, classBody]),
    .node .traitDecl (all [someAttributes, named "trait", classBody]),
    .node .enumDecl (all [
      someAttributes, named "enum",
      opt (.seq (sign ":") (.node .type (anyWord ["string", "int"]))), interfacesClause,
      .role .body (.rule .enumMembers)])]

/-- A constant and its value. -/
def constElement : G := .node .constElement (all [nameAny, sign "=", .rule .expr])

/-- Constants, with or without their type. -/
def constants (marks : G) : G :=
  .node .constDecl (all [
    marks, word "const",
    oneOf [commas constElement, .seq (.role .type (.rule .type)) (commas constElement)],
    terminator])

/-- The traits that a class uses. -/
def traitUse : G :=
  let subject := oneOf [
    .node .classConstant (all [.rule .anyName, sign "::", nameAny]), nameAny]
  let visible := .node .visibility (anyWord ["public", "protected", "private"])
  let conflict := .node .traitRule (oneOf [
    all [subject, word "insteadof", commas className],
    all [subject, word "as", oneOf [.seq visible (opt nameAny), nameAny]]])
  .node .traitUse (all [
    word "use", commas className,
    oneOf [inBraces (.many (.seq conflict terminator)), terminator]])

/-- A method. -/
def method : G :=
  .node .method (all [
    someAttributes, .many modifier, functionHead, oneOf [body, terminator]])

/-- Constants of a class. -/
def classConstants : G := constants (.seq someAttributes (.many modifier))

/-- Properties. -/
def property : G :=
  .node .property (all [
    someAttributes, modifier, .many modifier, opt (.role .type (.rule .type)),
    commas (.node .propertyElement (.seq variableLeaf defaultValue)),
    oneOf [terminator, .rule .hooks]])

/-- A case of an enumeration. -/
def enumCase : G :=
  .node .enumCase (all [
    someAttributes, word "case", .role .name nameAny,
    opt (.seq (sign "=") (.role .value (.rule .expr))), terminator])

/-- How a property is read or written. -/
def hook : G :=
  .node .hook (all [
    someAttributes, opt (wordAs .finalMark "final"), reference, nameAny, opt (.rule .params),
    oneOf [all [sign "=>", .rule .expr, terminator], .rule .block, terminator]])

/-- The declaration of a namespace. -/
def namespaceDecl : G :=
  let name := .role .name
    (.node .namespaceName (.seq (.sign (.any .word [])) furtherWords))
  .node .namespaceDecl (.seq (word "namespace") (oneOf [
    .seq name (oneOf [terminator, body]), body]))

/-- Imports. -/
def useDecl : G :=
  let what := opt (anyWord ["function", "const"])
  let renamed := opt (.seq (word "as") nameAny)
  let path := .node .qualifiedName (all [opt (sign "\\"), .sign (.any .word []), furtherWords])
  let clause := .node .useClause (all [what, path, renamed])
  .node .useDecl (all [
    word "use",
    oneOf [
      all [
        what, .node .namespaceName (.seq (.sign (.any .word [])) furtherWords), sign "\\",
        .node .useGroup (inBraces (commas clause))],
      commas clause],
    terminator])

/-! ## Statements -/

/-- A condition in parentheses. -/
def condition : G := .node .paren (inParens (.rule .expr))

/-- Statements between a colon and a closing word. -/
def colonBlock (closer : String) : G :=
  all [sign ":", .rule .statements, word closer, terminator]

/-- A statement, or the other form of a block. -/
def bodyOr (closer : String) : G := oneOf [colonBlock closer, .rule .statement]

/-- A conditional statement. -/
def ifStatement : G :=
  all [
    word "if", condition,
    oneOf [
      all [
        sign ":", .rule .statements,
        .many (all [word "elseif", condition, sign ":", .rule .statements]),
        opt (all [word "else", sign ":", .rule .statements]), word "endif", terminator],
      all [
        .rule .statement, .many (all [word "elseif", condition, .rule .statement]),
        opt (.seq (word "else") (.rule .statement))]]]

/-- A switch. -/
def switchStatement : G :=
  let start := oneOf [.seq (word "case") (.rule .expr), word "default"]
  let cases := .many (all [start, anySign [":", ";"], .rule .statements])
  all [
    word "switch", condition,
    oneOf [inBraces cases, all [sign ":", cases, word "endswitch", terminator]]]

/-- A loop over a collection. -/
def foreachStatement : G :=
  let target := oneOf [
    .node .byReference (.seq (sign "&") (.rule .postfixed)), .rule .listPattern, .rule .expr]
  let close := sign ")"
  all [
    word "foreach", sign "(", .rule .expr, word "as",
    oneOf [.seq target close, all [.rule .expr, sign "=>", target, close]],
    oneOf [sign ";", bodyOr "endforeach"]]

/-- A loop with a counter. -/
def forStatement : G :=
  let part := opt (commas (.rule .expr))
  all [word "for", inParens (all [part, sign ";", part, sign ";", part]), bodyOr "endfor"]

/-- A statement with handlers. -/
def tryStatement : G :=
  let handler := oneOf [
    all [
      word "catch", inParens (.seq (sepBy (sign "|") className) (opt variableLeaf)),
      .rule .block],
    .seq (word "finally") (.rule .block)]
  all [word "try", .rule .block, handler, .many handler]

/-- A statement that is no declaration and no expression. -/
def plainStatement : G :=
  let directive := all [
    anyWord ["ticks", "encoding", "strict_types"], sign "=", .rule .primary]
  oneOf [
    sign ";",
    ifStatement, switchStatement, foreachStatement, forStatement, tryStatement,
    all [word "while", condition, bodyOr "endwhile"],
    all [word "do", .rule .statement, word "while", condition, terminator],
    all [word "goto", nameAny, terminator],
    all [anyWord ["continue", "break"], opt (.rule .expr), terminator],
    all [word "declare", inParens directive, bodyOr "enddeclare"],
    all [word "echo", commas (.rule .expr), terminator],
    all [word "exit", opt (inParens (opt (.rule .expr))), terminator],
    all [word "unset", inParens (.seq (commas (.rule .postfixed)) (opt (sign ","))), terminator],
    all [word "global", commas (.rule .postfixed), terminator],
    all [
      word "static",
      commas (.seq variableLeaf (opt (.seq (sign "=") (.rule .expr)))), terminator],
    .notAhead (anyWord statementWords) (.seq (nameBut operandWords) (sign ":"))]

/-- A statement. -/
def statement : G :=
  oneOf [
    .rule .block,
    typeDecl,
    .node .functionDecl (all [someAttributes, functionHead, body]),
    constants .empty,
    namespaceDecl,
    useDecl,
    .node .returning (all [word "return", opt (.rule .expr), terminator]),
    .node .statement plainStatement,
    .node .expressionStatement
      (.notAhead (anyWord statementWords) (.seq (.rule .expr) terminator))]

/-! ## Expressions -/

/-- The signs of binary operations. -/
def binarySigns : List String :=
  ["??", "||", "&&", "|", "^", "&", "==", "!=", "<>", "===", "!==", "<", ">", "<=", ">=", "<=>",
   "<<", ">>", "+", "-", ".", "*", "/", "%", "**", "|>"]

/-- The signs of assignments other than `=`. -/
def updateSigns : List String :=
  ["**=", "*=", "/=", "%=", "+=", "-=", ".=", "<<=", ">>=", "&=", "^=", "|=", "??="]

/-- What can be assigned to. -/
def isPlace : Kind → Bool
  | .variable | .dynamicVariable | .subscript | .memberAccess | .scopedAccess | .memberCall
  | .nullsafeCall | .scopedCall | .functionCall | .listPattern => true
  | _ => false

/-- What may stand behind an operand: another operand after a sign, or the
    alternatives of a condition. -/
def choiceStep : G :=
  oneOf [
    .node .binary (.seq (anySign binarySigns) (.role .right (.rule .operand))),
    .node .binary (.seq (word "instanceof") (.role .right (.rule .classTarget))),
    .node .expression (all [sign "?", opt (.rule .expr), sign ":", .rule .choice])]

/-- An assignment, or the sign for counting up or down. -/
def assignStep : G :=
  oneOf [
    .node .expression (anySign ["++", "--"]),
    .node .assignment (all [sign "=", reference, .role .right (.rule .choice)]),
    .node .assignment (.seq (anySign updateSigns) (.role .right (.rule .choice)))]

/-- The words of types that a value is cast to. -/
def castWords : List String :=
  ["array", "binary", "bool", "boolean", "double", "int", "integer", "float", "object", "string",
   "unset"]

/-- An operand with what stands before it. -/
def operand : G :=
  let unary (a : G) := .node .expression a
  let element := .seq (.rule .choice) (opt (.seq (sign "=>") (.rule .choice)))
  oneOf [
    unary (.seq (anySign ["+", "-", "~", "!", "@"]) (.rule .operand)),
    unary (.seq (anySign ["++", "--"]) (.rule .postfixed)),
    unary (.seq (inParens (anyWord castWords)) (.rule .operand)),
    unary (.seq (anyWord ["print", "include", "include_once", "require", "require_once", "throw"])
      (.rule .choice)),
    unary (.seq (word "clone") (.rule .postfixed)),
    unary (.seq (word "yield") (oneOf [.seq (word "from") (.rule .choice), element, .empty])),
    .grow isPlace (.rule .postfixed) assignStep]

/-- A closure, or a function of one expression. -/
def closure : G :=
  let start := .seq someAttributes (opt (wordAs .staticMark "static"))
  let captured := .seq reference variableLeaf
  .node .closure (.seq start (oneOf [
    all [
      word "function", reference, .rule .params,
      opt (.seq (word "use") (inParens (looseCommas captured))), resultType, .rule .block],
    all [word "fn", reference, .rule .params, resultType, sign "=>", .rule .choice]]))

/-- The creation of an object, of a named class or one declared here. -/
def creation : G :=
  let anonymous := all [
    someAttributes, .many modifier, word "class", opt (.rule .args), basesClause,
    interfacesClause, .rule .classMembers]
  .node .creation (.seq (word "new") (oneOf [
    anonymous, .seq (.rule .classTarget) (opt (.rule .args))]))

/-- A choice by value. -/
def matchExpression : G :=
  let arm := oneOf [
    all [word "default", opt (sign ","), sign "=>", .rule .choice],
    all [commas (.rule .choice), opt (sign ","), sign "=>", .rule .choice]]
  .node .expression (all [word "match", condition, inBraces (looseCommas arm)])

/-- Strings with parts, in quotes, as heredocs, and as commands. -/
def encapsed : G :=
  let parts := .many (.rule .stringPart)
  oneOf [
    .node .encapsed (all [anySign ["\"", "b\"", "B\""], parts, sign "\""]),
    .node .heredoc (all [
      .sign (.any .heredocOpen []), parts, .sign (.any .heredocClose [])]),
    .node .shell (all [sign "\x60", parts, sign "\x60"])]

/-- A part of a string: text, a variable with one step behind it, or an expression
    in braces. -/
def stringPart : G :=
  let offset := oneOf [
    .leaf (.any .number []) .number,
    .seq (sign "-") (.leaf (.any .number []) .number), nameAny, variableLeaf]
  oneOf [
    .leaf (.any .content []) .content,
    .grow (· = .variable) variableLeaf (oneOf [
      .node .subscript (all [sign "[", offset, sign "]"]),
      .node .memberAccess (.seq (anySign ["->", "?->"]) nameAny)]),
    inBraces (.rule .expr),
    all [sign "$\x7b", .rule .expr, braceClose]]

/-- A variable whose name is computed. -/
def dynamicVariable : G :=
  .node .dynamicVariable (.seq (sign "$") (oneOf [
    variableLeaf, inBraces (.rule .expr), .seq (sign "$") (.rule .primary)]))

/-- The smallest operands. -/
def primary : G :=
  oneOf [
    variableLeaf, dynamicVariable,
    .leaf (.any .number []) .number, .leaf (.any .string []) .string, encapsed,
    .leaf (.any .nowdoc []) .heredoc,
    wordAs .constant "true", wordAs .constant "false", wordAs .constant "null",
    .rule .array,
    .node .paren (inParens (.rule .expr)),
    closure, creation, matchExpression,
    .seq (oneOf (["self", "parent", "static"].map (wordAs .relativeScope)))
      (.ahead (sign "::") .empty),
    .rule .anyName]

/-- The name of a member: a word, a variable, or an expression in braces. -/
def member : G :=
  oneOf [.role .name (oneOf [nameAny, variableLeaf, dynamicVariable]),
    inBraces (.role .name (.rule .expr))]

/-- A step that makes a larger operand of one. -/
def operandStep : G :=
  let args := .role .arguments (.rule .args)
  oneOf [
    .node .memberCall (all [sign "->", .rule .member, args]),
    .node .nullsafeCall (all [sign "?->", .rule .member, args]),
    .node .memberAccess (.seq (anySign ["->", "?->"]) (.rule .member)),
    .node .scopedCall (all [sign "::", .rule .member, args]),
    .node .scopedAccess (.seq (sign "::") (oneOf [variableLeaf, dynamicVariable])),
    .node .classConstant (.seq (sign "::") (oneOf [nameAny, inBraces (.rule .expr)])),
    .node .functionCall args,
    .node .subscript (all [sign "[", opt (.rule .expr), sign "]"]),
    .node .subscript (inBraces (.rule .expr))]

/-- An array, or the pattern of an assignment to several variables. -/
def array : G :=
  let value := oneOf [.node .byReference (.seq (sign "&") (.rule .postfixed)), .rule .expr]
  let element := .node .element (oneOf [
    .node .spread (.seq (sign "...") (.rule .expr)),
    .seq value (opt (.seq (sign "=>") value))])
  let items := looseCommas element
  oneOf [
    .ahead (.seq (opt (word "list")) (.behindGroup (sign "="))) (.rule .listPattern),
    .node .array (all [sign "[", items, sign "]"]),
    .node .array (.seq (word "array") (inParens items))]

/-- Several variables to assign to, some of which may be left out. -/
def listPattern : G :=
  let items := .seq (opt (.rule .listItem)) (.many (.seq (sign ",") (opt (.rule .listItem))))
  .node .listPattern (oneOf [
    all [sign "[", items, sign "]"], .seq (word "list") (inParens items)])

/-- One of several variables to assign to, with or without its key. -/
def listItem : G :=
  let place := oneOf [
    .node .byReference (.seq (sign "&") (.rule .postfixed)), .rule .listPattern, .rule .postfixed]
  oneOf [all [.rule .expr, sign "=>", place], place]

/-- The arguments of a call. -/
def args : G :=
  let reserved := .seq classWords (.ahead (anySign [",", ")"]) .empty)
  let arg := .node .arg (all [
    opt (.seq nameAny (sign ":")), reference,
    oneOf [.node .spread (.seq (sign "...") (.rule .expr)), reserved, .rule .expr]])
  .node .args (oneOf [
    inParens (.leaf (.exactly .sign "...") .placeholder), inParens (looseCommas arg)])

/-- The class of a new object or of a test: a name, or what a variable leads to. -/
def classTarget : G :=
  .grow (fun k => k != .name && k != .qualifiedName)
    (oneOf [classWords, .rule .anyName, variableLeaf, dynamicVariable,
      .node .paren (inParens (.rule .expr))])
    (oneOf [
      .node .memberAccess (.seq (anySign ["->", "?->"]) (.rule .member)),
      .node .scopedAccess (.seq (sign "::") (oneOf [variableLeaf, dynamicVariable])),
      .node .subscript (all [sign "[", opt (.rule .expr), sign "]"])])

/-- What each rule says. -/
def rules : Rule → G
  | .file =>
    .seq (opt (.leaf (.any .html []) .html))
      (opt (.seq (.leaf (.any .tag []) .tag) (.rule .statements)))
  | .statement => statement
  | .statements => .many (.rule .statement)
  | .block => .node .block (inBraces (.rule .statements))
  | .type => type
  | .params => .node .paramList (inParens (looseCommas param))
  | .attributes =>
    let single := .seq className (opt (.rule .args))
    let group := all [sign "#[", commas single, opt (sign ","), sign "]"]
    .node .attributes (.seq group (.many group))
  | .classMembers =>
    .node .memberList (inBraces (.many (oneOf [traitUse, classConstants, method, property])))
  | .enumMembers =>
    .node .memberList (inBraces (.many (oneOf [traitUse, enumCase, classConstants, method])))
  | .hooks => inBraces (.many hook)
  | .args => args
  | .expr =>
    .grow (fun _ => true) (.rule .choice)
      (.node .binary (.seq (anyWord ["and", "or", "xor"]) (.role .right (.rule .choice))))
  | .choice => .grow (fun _ => true) (.rule .operand) choiceStep
  | .operand => operand
  | .postfixed => .grow (fun _ => true) (.rule .primary) operandStep
  | .primary => primary
  | .anyName => anyName
  | .classTarget => classTarget
  | .array => array
  | .listPattern => listPattern
  | .listItem => listItem
  | .stringPart => stringPart
  | .member => member

/-- The brackets of PHP. -/
def bracket : Token → String → Option Bool
  | .sign, "(" | .sign, "[" | .sign, "#[" | .sign, "\x7b" | .sign, "$\x7b" => some true
  | .sign, ")" | .sign, "]" | .sign, "\x7d" => some false
  | _, _ => none

/-- The language. -/
def dialect : Dialect Kind Token Rule := ⟨rules, bracket⟩

/-- The node is a comment. -/
def isComment : ParseTree Kind → Bool := ParseTree.isKind .comment

/-- The node is a comment, or text between pieces of code. -/
def isAside (t : ParseTree Kind) : Bool := isComment t || t.isKind .pause

/-- The tree of a PHP file, if it is one. -/
def parse? (source : Source) : Option (ParseTree Kind) :=
  dialect.parse? isAside .file .file (lexemes .pause .comment source)

end CodeAtlas.Php
