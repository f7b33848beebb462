import CodeAtlas.Php.Value
import CodeAtlas.Proofs.Spacing

/-!
# Strings written and read

A string is written in quotes with a backslash before some of its characters (`quoted`). Which
ones, and what is written for them, depends on the quotes. Read back, every backslash that was
put in is taken off with its character, so that runs of backslashes, also before a quote or at
the end of the string, come out as they were.

* `Resolves.unescape_escape`: escapes are resolved one by one;
* `quoted_strings_read_back`: the string is read, marked as binary or not.
-/

namespace CodeAtlas.Php

open List

/-- What is written behind a backslash for a character in single quotes. -/
def singleEscapes : List (Char × Char) :=
  [('\\', '\\'), ('\x27', '\x27')]

/-- What is written behind a backslash for a character in double quotes. -/
def doubleEscapes : List (Char × Char) :=
  [('\\', '\\'), ('"', '"'), ('$', '$'), ('\n', 'n'), ('\t', 't'), ('\r', 'r')]

/-- The text with backslashes before the characters of the table. -/
def escape (table : List (Char × Char)) (s : List Char) : List Char :=
  s.flatMap fun c => (table.lookup c).elim [c] fun d => ['\\', d]

/-- The text in quotes, behind a mark. -/
def quoted (mark : List Char) (quote : Char) (table : List (Char × Char)) (s : List Char) :
    String :=
  String.ofList (mark ++ quote :: (escape table s ++ [quote]))

/-- The marks of strings: none, or one of those of binary strings. -/
def binaryMarks : List (List Char) :=
  [[], ['b'], ['B']]

/-- A backslash is resolved with the character behind it as the table says, and all else stays. -/
structure Resolves (table : List (Char × Char)) (unescape : List Char → List Char) : Prop where
  nil : unescape [] = []
  escaped : ∀ p ∈ table, ∀ s, unescape ('\\' :: p.2 :: s) = p.1 :: unescape s
  plain : ∀ c s, c ≠ '\\' → unescape (c :: s) = c :: unescape s
  backslash : '\\' ∈ table.map Prod.fst

variable {table : List (Char × Char)} {unescape : List Char → List Char}

/-- By induction on the text: no backslash stays alone that could take the next character. -/
theorem Resolves.unescape_escape (h : Resolves table unescape) (s : List Char) :
    unescape (escape table s) = s := by
  induction s with
  | nil => exact h.nil
  | cons c s ih =>
    rw [escape, flatMap_cons]
    cases hlookup : table.lookup c with
    | some d =>
      obtain ⟨before, after, htable, -⟩ := lookup_eq_some_iff.1 hlookup
      have hmem : (c, d) ∈ table := by simp [htable]
      exact (h.escaped _ hmem _).trans (congrArg (c :: ·) ih)
    | none =>
      -- A backslash is in the table, so it is not written as it is.
      have hne : c ≠ '\\' := by
        rintro rfl
        obtain ⟨p, hp, heq⟩ := mem_map.1 h.backslash
        simpa [heq] using lookup_eq_none_iff.1 hlookup p hp
      exact (h.plain c _ hne).trans (congrArg (c :: ·) ih)

theorem resolves_unescapeSingle : Resolves singleEscapes unescapeSingle where
  nil := rfl
  escaped := by simp [singleEscapes, unescapeSingle]
  plain c s hc := by rw [unescapeSingle] <;> simp [hc]
  backslash := by decide

theorem resolves_unescapeDouble : Resolves doubleEscapes unescapeDouble where
  nil := rfl
  escaped := by simp [doubleEscapes, unescapeDouble]
  plain c s hc := by rw [unescapeDouble]; simp [hc]
  backslash := by decide

theorem stringLiteral_quoted {mark : List Char} (hmark : mark ∈ binaryMarks) {quote : Char}
    (hquote : quote ∉ ['b', 'B']) (h : Resolves table unescape) (s : String) :
    stringLiteral quote unescape (quoted mark quote table s.toList) = .text s := by
  have hunquote : unquote? quote (mark ++ quote :: (escape table s.toList ++ [quote])) =
      some (escape table s.toList) := by
    simp only [binaryMarks, mem_cons, not_mem_nil, or_false, not_or] at hmark hquote
    rcases hmark with rfl | rfl | rfl <;> simp [unquote?, hquote, Text.stripEnd?_append]
  rw [stringLiteral, quoted, String.toList_ofList, hunquote]
  simp [h.unescape_escape]

/-- Every string is read back from how it is written in single quotes and in double quotes. -/
theorem quoted_strings_read_back (s : String) (mark : List Char) (hmark : mark ∈ binaryMarks) :
    stringLiteral '\x27' unescapeSingle (quoted mark '\x27' singleEscapes s.toList) = .text s ∧
    stringLiteral '"' unescapeDouble (quoted mark '"' doubleEscapes s.toList) = .text s :=
  ⟨stringLiteral_quoted hmark (by decide) resolves_unescapeSingle s,
    stringLiteral_quoted hmark (by decide) resolves_unescapeDouble s⟩

/-- Backslashes before a quote and at the end of the string, and one before a letter. -/
theorem quoted_strings_read_back_runs :
    quoted ['b'] '\x27' singleEscapes "\\\\'\\n\\".toList = "b'\\\\\\\\\\'\\\\n\\\\'" ∧
    stringLiteral '\x27' unescapeSingle "b'\\\\\\\\\\'\\\\n\\\\'" = .text "\\\\'\\n\\" ∧
    quoted [] '"' doubleEscapes "$\\\n\"\\".toList = "\"\\$\\\\\\n\\\"\\\\\"" ∧
    stringLiteral '"' unescapeDouble "\"\\$\\\\\\n\\\"\\\\\"" = .text "$\\\n\"\\" := by
  have hsingle : quoted ['b'] '\x27' singleEscapes "\\\\'\\n\\".toList =
      "b'\\\\\\\\\\'\\\\n\\\\'" := by decide +kernel
  have hdouble : quoted [] '"' doubleEscapes "$\\\n\"\\".toList =
      "\"\\$\\\\\\n\\\"\\\\\"" := by decide +kernel
  exact ⟨hsingle, hsingle ▸ (quoted_strings_read_back _ _ (by decide)).1, hdouble,
    hdouble ▸ (quoted_strings_read_back _ _ (by decide)).2⟩

end CodeAtlas.Php
