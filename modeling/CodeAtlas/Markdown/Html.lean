import CodeAtlas.Markdown.Margin

/-!
# HTML in Markdown

Blocks of HTML start with a tag, a comment, a declaration or the like. Some of them
end at a fixed text (`htmlCloser?`), the others at a blank line. Within a line, a
whole tag is passed over (`tag?`, `inlineHtml?`).
-/

namespace CodeAtlas.Markdown

open Text

/-- The elements that always start a block. -/
def blockElements : List String :=
  ["address", "article", "aside", "base", "basefont", "blockquote", "body", "caption", "center",
   "col", "colgroup", "dd", "details", "dialog", "dir", "div", "dl", "dt", "fieldset",
   "figcaption", "figure", "footer", "form", "frame", "frameset", "h1", "h2", "h3", "h4", "h5",
   "h6", "head", "header", "hr", "html", "iframe", "legend", "li", "link", "main", "menu",
   "menuitem", "nav", "noframes", "ol", "optgroup", "option", "p", "param", "search", "section",
   "summary", "table", "tbody", "td", "tfoot", "th", "thead", "title", "tr", "track", "ul"]

/-- The rest of a text behind `lead`, in whatever letter case. -/
def stripAnyCase? (lead : String) (s : List Char) : Option (List Char) :=
  let head := s.take lead.length
  if head.map Char.toLower == lead.toList then some (s.drop lead.length) else none

/-- What ends a block of HTML that starts behind an angle bracket here, if that is
    fixed: the text that ends it. -/
def htmlCloser? (s : List Char) : Option String :=
  let element (name : String) : Bool :=
    match stripAnyCase? name s with
    | some [] => true
    | some (c :: _) => isWhite c || c == '>'
    | none => false
  if element "pre" then some "</pre>"
  else if element "style" then some "</style>"
  else if element "script" then some "</script>"
  else if element "textarea" then some "</textarea>"
  else if (strip? "!--".toList s).isSome then some "-->"
  else if (strip? ['?'] s).isSome then some "?>"
  else if (strip? "![CDATA[".toList s).isSome then some "]]>"
  else
    match s with
    | '!' :: c :: _ => if c.isAlpha then some ">" else none
    | _ => none

/-- Whether the tag of an element that starts a block stands behind an angle
    bracket here. -/
def opensBlockElement (s : List Char) : Bool :=
  let s := dropLead ['/'] s
  let name := s.takeWhile Char.isAlphanum
  let known := blockElements.contains (String.ofList (name.map Char.toLower))
  known && match s.drop name.length with
    | [] => true
    | '/' :: '>' :: _ => true
    | c :: _ => [' ', '\t', '\r', '\n', '>'].contains c

/-- The rest behind white space, which holds line ends only if `lines` is set. -/
def skipWhite? (lines : Bool) (s : List Char) : Option (List Char) :=
  let rest := s.dropWhile isWhite
  let passed := s.take (s.length - rest.length)
  if rest.isEmpty || (!lines && passed.any fun c => c == '\n' || c == '\r') then none
  else some rest

/-- The rest behind the value of an attribute. -/
def attributeValue? (lines : Bool) (s : List Char) : Option (List Char) :=
  match s with
  | [] => none
  | c :: rest =>
    if c == '"' || c == '\x27' then
      let value := rest.takeWhile (· != c)
      match rest.drop value.length with
      | [] => none
      | _ :: after =>
        if !lines && value.any (fun d => d == '\n' || d == '\r') then none else some after
    else
      let n := runOf (fun d => !isWhite d && !("\"\x27=<>\x60".toList.contains d)) s
      if n = 0 then none else some (s.drop n)

/-- The rest behind an attribute. -/
def attribute? (lines : Bool) (s : List Char) : Option (List Char) :=
  match s with
  | [] => none
  | c :: rest =>
    if c.isAlpha || c == '_' || c == ':' then
      let after := rest.dropWhile fun d => d.isAlphanum || ['_', '.', ':', '-'].contains d
      match skipWhite? lines after with
      | some ('=' :: value) => (skipWhite? lines value).bind (attributeValue? lines)
      | some _ => some after
      | none => none
    else none

/-- The rest behind the attributes of a tag. -/
def attributes? (lines : Bool) : Nat → List Char → Option (List Char)
  | 0, _ => none
  | n + 1, s => do
    let rest ← skipWhite? lines s
    match rest with
    | '/' :: _ | '>' :: _ => return rest
    | _ =>
      if rest.length = s.length then none
      else
        let rest ← attribute? lines rest
        attributes? lines n rest

/-- The rest behind the tag that a text starts with. Line ends may stand in it if
    `lines` is set. -/
def tag? (lines : Bool) (s : List Char) : Option (List Char) := do
  let s ← strip? ['<'] s
  let closing := s.head? == some '/'
  let s := dropLead ['/'] s
  if !(s.head?.any Char.isAlpha) then none
  else
    let rest := s.dropWhile fun c => c.isAlphanum || c == '-'
    if closing then strip? ['>'] (rest.dropWhile isGap)
    else
      let rest ← attributes? lines (rest.length + 1) rest
      strip? ['>'] (dropLead ['/'] rest)

/-- A tag that stands alone on a line. -/
def isLoneTag (s : List Char) : Bool :=
  match tag? false s with
  | some rest => (blankLine? rest).isSome
  | none => false

/-- The rest behind the HTML that a text starts with, within a paragraph: a comment,
    a declaration, an instruction or a tag. -/
def inlineHtml? (s : List Char) : Option (List Char) :=
  match s with
  | '<' :: '!' :: '-' :: '-' :: rest => (cutAt? "-->".toList ('-' :: '-' :: rest)).map (·.2)
  | '<' :: '!' :: rest =>
    match strip? "[CDATA[".toList rest with
    | some body =>
      let tail := body.dropWhile (· != ']')
      if tail.isEmpty then none else strip? ['>'] (tail.dropWhile (· == ']'))
    | none => if rest.head?.any Char.isAlpha then (cutAt? ['>'] rest).map (·.2) else none
  | '<' :: '?' :: rest => (cutAt? "?>".toList rest).map (·.2)
  | _ => tag? true s

end CodeAtlas.Markdown
