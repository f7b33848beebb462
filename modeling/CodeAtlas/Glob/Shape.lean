/-!
# Shapes of byte strings

A regular expression over bytes, and how to match it: after each byte there is a list
of shapes that the rest may have (`Shape.after`), and a string matches if it ends
where one of them may be empty. The lists stay short, since each shape in them is made
of parts of the one that was started from.
-/

namespace CodeAtlas

/-- A set of bytes, given by ranges, or all the others. -/
structure ByteSet where
  negated : Bool
  ranges : List (UInt8 × UInt8)
  deriving DecidableEq, Repr

namespace ByteSet

/-- The byte belongs to the set. -/
def contains (s : ByteSet) (b : UInt8) : Bool :=
  s.negated != s.ranges.any fun (lo, hi) => lo ≤ b && b ≤ hi

/-- All bytes. -/
def all : ByteSet := ⟨true, []⟩

/-- The one byte. -/
def single (b : UInt8) : ByteSet := ⟨false, [(b, b)]⟩

end ByteSet

/-- A regular expression over bytes. -/
inductive Shape where
  | empty
  | byte (set : ByteSet)
  | both (first second : Shape)
  | either (left right : Shape)
  | many (inner : Shape)
  deriving DecidableEq, Repr

namespace Shape

/-- The empty string has the shape. -/
def isOptional : Shape → Bool
  | .empty => true
  | .byte _ => false
  | .both a b => a.isOptional && b.isOptional
  | .either a b => a.isOptional || b.isOptional
  | .many _ => true

/-- One shape after the other. -/
def append : Shape → Shape → Shape
  | .empty, b => b
  | a, .empty => a
  | a, b => .both a b

/-- The shapes in a row. -/
def row (shapes : List Shape) : Shape :=
  shapes.foldr append .empty

/-- Any of the shapes; the empty one if there is none. -/
def anyOf : List Shape → Shape
  | [] => .empty
  | [a] => a
  | a :: rest => .either a (anyOf rest)

/-- The bytes in a row. -/
def text (bytes : List UInt8) : Shape :=
  row (bytes.map fun b => .byte (.single b))

/-- The shapes of what may follow the byte `b` in strings of a shape. -/
def after (b : UInt8) : Shape → List Shape
  | .empty => []
  | .byte set => if set.contains b then [.empty] else []
  | .both x y => (x.after b).map (append · y) ++ if x.isOptional then y.after b else []
  | .either x y => x.after b ++ y.after b
  | .many x => (x.after b).map (append · (.many x))

/-- Whether a string has one of the shapes. -/
def anyMatches : List Shape → List UInt8 → Bool
  | shapes, [] => shapes.any isOptional
  | shapes, b :: rest => anyMatches (shapes.flatMap (after b)).eraseDups rest

/-- Whether a string has the shape. -/
def isMatch (s : Shape) (bytes : List UInt8) : Bool :=
  anyMatches [s] bytes

end Shape

end CodeAtlas
