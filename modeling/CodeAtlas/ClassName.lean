import CodeAtlas.Outline

/-!
# Names of classes

`resolveClass` gives the full name of a class that is named in some namespace. A
string and a name with a backslash in front are full names already. Any other name
is looked up among the imports, first as a whole, then by what stands before its
first backslash; what is not imported belongs to the namespace.
-/

namespace CodeAtlas

/-- The full name of a class that a token names in a namespace. -/
def resolveClass (token : ClassToken) (imports : Imports) (namespaceName : String) : String :=
  match token with
  | .literal s => String.ofList (s.toList.dropWhile (· == '\\'))
  | .reference raw =>
    match raw.toList with
    | '\\' :: rest => String.ofList rest
    | chars =>
      match imports.resolve? raw with
      | some target => target
      | none =>
        let aliased := match Text.cutAt? ['\\'] chars with
          | some (head, rest) =>
            (imports.resolve? (String.ofList head)).map (· ++ "\\" ++ String.ofList rest)
          | none => none
        match aliased with
        | some full => full
        | none => if namespaceName.isEmpty then raw else namespaceName ++ "\\" ++ raw

end CodeAtlas
