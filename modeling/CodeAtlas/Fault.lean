import CodeAtlas.Chunk
import CodeAtlas.Go.Grammar
import CodeAtlas.Language
import CodeAtlas.Php.Grammar

/-!
# Faults

What can go wrong while a tree of files is indexed. Only a missing root and a
cancellation end the run (`Fault.isFatal`); any other fault concerns one unit, which
is counted and left out.
-/

namespace CodeAtlas

/-- Why something could not be indexed. -/
inductive Fault where
  /-- The root of the tree does not exist. -/
  | rootMissing (path : String)
  /-- A file cannot be read. -/
  | unreadable (path cause : String)
  /-- A file does not follow the grammar of its language. -/
  | syntaxError (path : String)
  /-- There is no grammar of the language. -/
  | noGrammar (language : Language)
  /-- The run was cancelled; the chunks made until then. -/
  | cancelled (chunks : List Chunk)

namespace Fault

/-- What to tell of a fault. -/
def message : Fault → String
  | .rootMissing path => "root path does not exist: " ++ path
  | .unreadable path cause => "I/O error on " ++ path ++ ": " ++ cause
  | .syntaxError path => "failed to parse " ++ path ++ ": syntax error"
  | .noGrammar language =>
    "failed to parse " ++ language.word ++ ": language has no embedded grammar"
  | .cancelled chunks => "indexing cancelled after " ++ toString chunks.length ++ " chunks"

/-- The fault ends the whole run. -/
def isFatal : Fault → Bool
  | .rootMissing _ | .cancelled _ => true
  | .unreadable .. | .syntaxError _ | .noGrammar _ => false

end Fault

/-- Checks the text of a file against the grammar of its language. -/
def checkSyntax (language : Language) (path : String) (source : Source) : Except Fault Unit :=
  let verdict (accepted : Bool) := if accepted then .ok () else .error (.syntaxError path)
  match language with
  | .go => verdict (Go.parse? source).isSome
  | .php => verdict (Php.parse? source).isSome
  | .python | .markdown => .error (.noGrammar language)

end CodeAtlas
