import CodeAtlas.Json.Printer
import CodeAtlas.Json.Reader

/-!
# Layouts

On one line or over several, a value is written in the same way, but for the white space where
lines would start and behind colons (`Layout`). So both are one way to write values (`write`) in
two layouts.

* `compressChars_eq`: a value on one line;
* `prettyChars_eq`: a value over several lines.
-/

namespace CodeAtlas.Json

/-- The white space around the parts of a value: what stands where a line of the given level
    starts, and behind a colon. -/
structure Layout where
  line : Nat → List Char
  colon : List Char
  line_isSpace : ∀ level, ∀ c ∈ line level, isSpace c = true
  colon_isSpace : ∀ c ∈ colon, isSpace c = true

/-- On one line, without any white space. -/
def Layout.compact : Layout :=
  ⟨fun _ => [], [], by simp, by simp⟩

/-- Over several lines. -/
def Layout.spread : Layout where
  line := newLine
  colon := [' ']
  line_isSpace level c hc := by
    rcases List.mem_cons.1 hc with rfl | hc
    · rfl
    · rw [List.eq_of_mem_replicate hc]
      rfl
  colon_isSpace := List.all_eq_true.1 rfl

mutual

/-- A value in the layout, from the given level on. -/
def write (l : Layout) (level : Nat) : Json → List Char
  | .arr [] => ['[', ']']
  | .arr (item :: items) =>
    '[' :: writeItems l (level + 1) (item :: items) ++ l.line level ++ [']']
  | .obj [] => ['\x7b', '\x7d']
  | .obj (member :: members) =>
    '\x7b' :: writeMembers l (level + 1) (member :: members) ++ l.line level ++ ['\x7d']
  | .null => ['n', 'u', 'l', 'l']
  | .bool true => ['t', 'r', 'u', 'e']
  | .bool false => ['f', 'a', 'l', 's', 'e']
  | .nat n => digits n
  | .negative n => '-' :: digits n
  | .decimal s => s.toList
  | .str s => quote s.toList

/-- The items of an array, each where a line starts. -/
def writeItems (l : Layout) (level : Nat) : List Json → List Char
  | [] => []
  | [item] => l.line level ++ write l level item
  | item :: items => l.line level ++ write l level item ++ ',' :: writeItems l level items

/-- The members of an object, each where a line starts. -/
def writeMembers (l : Layout) (level : Nat) : List (String × Json) → List Char
  | [] => []
  | [(key, value)] => l.line level ++ quote key.toList ++ ':' :: l.colon ++ write l level value
  | (key, value) :: members =>
    l.line level ++ quote key.toList ++ ':' :: l.colon ++ write l level value ++
      ',' :: writeMembers l level members

end

mutual

theorem compressChars_eq (level : Nat) : ∀ j : Json, compressChars j = write .compact level j
  | .arr [] => rfl
  | .arr (item :: items) => by
    rw [compressChars, write, compressItems_eq (level + 1) (item :: items)]
    simp [Layout.compact]
  | .obj [] => rfl
  | .obj (member :: members) => by
    rw [compressChars, write, compressMembers_eq (level + 1) (member :: members)]
    simp [Layout.compact]
  | .null | .bool true | .bool false | .nat _ | .negative _ | .decimal _ | .str _ => rfl

theorem compressItems_eq (level : Nat) : ∀ items : List Json,
    compressItems items = writeItems .compact level items
  | [] => rfl
  | [item] => compressChars_eq level item
  | item :: next :: items => by
    rw [compressItems, writeItems, compressChars_eq level item,
      compressItems_eq level (next :: items)]
    all_goals simp [Layout.compact]

theorem compressMembers_eq (level : Nat) : ∀ members : List (String × Json),
    compressMembers members = writeMembers .compact level members
  | [] => rfl
  | [(key, value)] => by
    rw [compressMembers, writeMembers, compressChars_eq level value]
    simp [Layout.compact]
  | (key, value) :: next :: members => by
    rw [compressMembers, writeMembers, compressChars_eq level value,
      compressMembers_eq level (next :: members)]
    all_goals simp [Layout.compact]

end

mutual

theorem prettyChars_eq (level : Nat) : ∀ j : Json, prettyChars level j = write .spread level j
  | .arr [] => rfl
  | .arr (item :: items) => by
    rw [prettyChars, write, prettyItems_eq (level + 1) (item :: items)]
    rfl
  | .obj [] => rfl
  | .obj (member :: members) => by
    rw [prettyChars, write, prettyMembers_eq (level + 1) (member :: members)]
    rfl
  | .null | .bool true | .bool false | .nat _ | .negative _ | .decimal _ | .str _ => rfl

theorem prettyItems_eq (level : Nat) : ∀ items : List Json,
    prettyItems level items = writeItems .spread level items
  | [] => rfl
  | [item] => by
    rw [prettyItems, writeItems, prettyChars_eq level item]
    rfl
  | item :: next :: items => by
    rw [prettyItems, writeItems, prettyChars_eq level item, prettyItems_eq level (next :: items)]
    all_goals simp [Layout.spread]

theorem prettyMembers_eq (level : Nat) : ∀ members : List (String × Json),
    prettyMembers level members = writeMembers .spread level members
  | [] => rfl
  | [(key, value)] => by
    rw [prettyMembers, writeMembers, prettyChars_eq level value]
    simp [Layout.spread]
  | (key, value) :: next :: members => by
    rw [prettyMembers, writeMembers, prettyChars_eq level value,
      prettyMembers_eq level (next :: members)]
    all_goals simp [Layout.spread]

end

end CodeAtlas.Json
