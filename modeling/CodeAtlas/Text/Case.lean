import CodeAtlas.Text.Letter

/-!
# Upper and lower case

The properties `Uppercase` and `Lowercase` of the Unicode standard and the
lower-case form of a character, as tables of runs outside ASCII. In scripts with
paired cases, upper and lower case letters often take turns.
-/

namespace CodeAtlas.Text

/-- Upper-case characters, each followed by its lower-case form. -/
def pairRuns : List Nat := [
  256, 48, 2, 6, 1, 16, 1, 46, 1, 6, 3, 4, 1, 2, 2, 2, 4, 2, 5, 2, 6, 6, 1, 2, 3, 2, 1, 2, 2, 4, 1,
  2, 2, 2, 15, 16, 1, 18, 4, 2, 2, 40, 2, 18, 7, 2, 4, 2, 3, 10, 288, 4, 2, 2, 96, 24, 7, 2, 1, 2,
  100, 34, 8, 54, 1, 14, 1, 96, 5977, 2, 373, 150, 10, 96, 643, 2, 2779, 2, 5, 6, 5, 2, 1, 2, 9,
  100, 7, 4, 3, 2, 31052, 46, 18, 28, 134, 14, 2, 62, 9, 4, 1, 10, 3, 2, 3, 4, 2, 20, 10, 16, 3, 4,
  1, 16, 25, 2]

/-- The other upper-case characters. -/
def upperRuns : List Nat := [
  192, 23, 1, 7, 81, 1, 71, 1, 8, 1, 4, 1, 2, 2, 3, 3, 2, 2, 1, 2, 4, 2, 1, 1, 6, 1, 2, 1, 4, 1, 2,
  2, 4, 1, 12, 1, 2, 1, 2, 1, 38, 1, 4, 2, 40, 1, 25, 1, 2, 2, 4, 3, 313, 1, 6, 1, 1, 3, 1, 1, 1, 2,
  1, 17, 1, 9, 35, 1, 2, 3, 31, 1, 4, 1, 3, 51, 144, 1, 112, 38, 2889, 38, 1, 1, 5, 1, 722, 86,
  2202, 43, 2, 3, 478, 1, 105, 8, 8, 6, 10, 8, 8, 8, 8, 6, 11, 1, 1, 1, 1, 1, 1, 1, 8, 8, 72, 4, 12,
  4, 12, 4, 12, 5, 11, 4, 262, 1, 4, 1, 3, 3, 2, 3, 2, 1, 3, 5, 6, 1, 1, 1, 1, 1, 1, 4, 2, 4, 10, 2,
  5, 1, 26, 16, 838, 26, 1840, 48, 50, 3, 8, 4, 13, 2, 31485, 1, 15, 1, 28, 5, 1, 4, 16, 3, 4, 1,
  16, 1, 22340, 26, 1221, 40, 136, 36, 156, 11, 1, 15, 1, 7, 1, 2, 1770, 51, 157, 22, 2874, 32,
  21888, 32, 64, 25, 25927, 26, 26, 26, 26, 26, 26, 1, 1, 2, 2, 1, 2, 2, 2, 4, 1, 8, 26, 26, 26, 2,
  1, 4, 2, 8, 1, 7, 27, 2, 1, 4, 1, 5, 1, 1, 3, 7, 27, 26, 26, 26, 26, 26, 26, 26, 26, 26, 26, 26,
  30, 25, 33, 25, 33, 25, 33, 25, 33, 25, 33, 1, 4405, 34, 2062, 26, 6, 26, 6, 26]

/-- The other lower-case characters. -/
def lowerRuns : List Nat := [
  170, 1, 10, 1, 4, 1, 36, 24, 1, 8, 49, 1, 6, 1, 16, 1, 53, 2, 12, 1, 7, 1, 4, 2, 2, 1, 11, 2, 14,
  1, 3, 2, 6, 1, 2, 1, 2, 1, 16, 1, 18, 1, 2, 1, 45, 1, 18, 6, 5, 2, 15, 68, 2, 35, 7, 2, 30, 5, 96,
  1, 52, 4, 18, 1, 27, 35, 1, 2, 3, 3, 24, 4, 1, 1, 6, 1, 51, 48, 111, 1, 144, 41, 2887, 43, 1, 4,
  760, 6, 2178, 9, 119, 192, 214, 8, 1, 1, 96, 8, 8, 6, 10, 8, 8, 8, 8, 6, 10, 8, 8, 8, 8, 14, 2, 8,
  8, 8, 8, 8, 8, 5, 1, 2, 6, 1, 3, 3, 1, 2, 8, 4, 2, 2, 8, 8, 10, 3, 1, 2, 121, 1, 13, 1, 16, 13,
  109, 1, 3, 2, 3, 1, 27, 1, 4, 1, 4, 1, 2, 2, 8, 4, 4, 1, 33, 16, 848, 26, 1862, 48, 5, 2, 10, 1,
  2, 1, 2, 7, 102, 1, 27, 38, 1, 1, 5, 1, 31086, 2, 146, 2, 62, 9, 21, 1, 5, 2, 25, 1, 65, 4, 3, 3,
  821, 43, 1, 14, 6, 80, 20288, 7, 12, 5, 1065, 26, 1229, 40, 136, 36, 155, 11, 1, 15, 1, 7, 1, 2,
  451, 1, 2, 3, 1, 42, 1, 9, 1285, 51, 125, 22, 2874, 32, 21888, 32, 59, 25, 25926, 26, 26, 7, 1,
  18, 26, 26, 26, 4, 1, 1, 1, 7, 1, 11, 26, 26, 26, 26, 26, 26, 26, 26, 26, 26, 26, 26, 26, 26, 26,
  26, 26, 28, 28, 25, 1, 6, 26, 25, 1, 6, 26, 25, 1, 6, 26, 25, 1, 6, 26, 25, 1, 6, 1, 1, 1844, 10,
  1, 20, 6, 6, 261, 62, 2228, 34]

/-- The other characters whose lower-case form is one other character: the length of
    the gap before each run, that of the run, and what to add to a member. -/
def lowerings : List (Nat × Nat × Int) := [
  (192, 23, 32), (1, 7, 32), (153, 1, -121), (8, 1, 210), (4, 1, 206), (2, 2, 205), (3, 1, 79),
  (0, 1, 202), (0, 1, 203), (2, 1, 205), (0, 1, 207), (1, 1, 211), (0, 1, 209), (4, 1, 211),
  (0, 1, 213), (1, 1, 214), (6, 1, 218), (2, 1, 218), (4, 1, 218), (2, 2, 217), (4, 1, 219),
  (12, 1, 2), (0, 1, 1), (1, 1, 2), (0, 1, 1), (1, 1, 2), (0, 1, 1), (37, 1, 2), (0, 1, 1),
  (3, 1, -97), (0, 1, -56), (40, 1, -130), (25, 1, 10795), (2, 1, -163), (0, 1, 10792),
  (4, 1, -195), (0, 1, 69), (0, 1, 71), (313, 1, 116), (6, 1, 38), (1, 3, 37), (1, 1, 64),
  (1, 2, 63), (1, 17, 32), (1, 9, 32), (35, 1, 8), (36, 1, -60), (4, 1, -7), (3, 3, -130),
  (0, 16, 80), (0, 32, 32), (144, 1, 15), (112, 38, 48), (2889, 38, 7264), (1, 1, 7264),
  (5, 1, 7264), (722, 80, 38864), (0, 6, 8), (2202, 43, -3008), (2, 3, -3008), (478, 1, -7615),
  (105, 8, -8), (8, 6, -8), (10, 8, -8), (8, 8, -8), (8, 6, -8), (11, 1, -8), (1, 1, -8),
  (1, 1, -8), (1, 1, -8), (8, 8, -8), (24, 8, -8), (8, 8, -8), (8, 8, -8), (8, 2, -8), (0, 2, -74),
  (0, 1, -9), (11, 4, -86), (0, 1, -9), (11, 2, -8), (0, 2, -100), (12, 2, -8), (0, 2, -112),
  (0, 1, -7), (11, 2, -128), (0, 2, -126), (0, 1, -9), (297, 1, -7517), (3, 1, -8383),
  (0, 1, -8262), (6, 1, 28), (45, 16, 16), (838, 26, 26), (1840, 48, 48), (50, 1, -10743),
  (0, 1, -3814), (0, 1, -10727), (8, 1, -10780), (0, 1, -10749), (0, 1, -10783), (0, 1, -10782),
  (13, 2, -10815), (31485, 1, -35332), (15, 1, -42280), (28, 1, -42308), (0, 1, -42319),
  (0, 1, -42315), (0, 1, -42305), (0, 1, -42308), (1, 1, -42258), (0, 1, -42282), (0, 1, -42261),
  (0, 1, 928), (16, 1, -48), (0, 1, -42307), (0, 1, -35384), (4, 1, -42343), (16, 1, -42561),
  (22340, 26, 32), (1221, 40, 40), (136, 36, 40), (156, 11, 39), (1, 15, 39), (1, 7, 39),
  (1, 2, 39), (1770, 51, 64), (157, 22, 32), (2874, 32, 32), (21888, 32, 32), (64, 25, 27),
  (31303, 34, 34)]

/-- An upper-case character of any script. -/
def isUpper (c : Char) : Bool :=
  if c.toNat < 0x80 then c.isUpper
  else covers upperRuns c.toNat || (offset? pairRuns c.toNat).any (· % 2 == 0)

/-- A lower-case character of any script. -/
def isLower (c : Char) : Bool :=
  if c.toNat < 0x80 then c.isLower
  else covers lowerRuns c.toNat || (offset? pairRuns c.toNat).any (· % 2 == 1)

/-- What a table adds to the code point `n`. -/
def shiftOf : List (Nat × Nat × Int) → Nat → Int
  | [], _ => 0
  | (gap, length, shift) :: runs, n =>
    if n < gap then 0
    else if n - gap < length then shift
    else shiftOf runs (n - gap - length)

/-- The lower-case form of a character outside ASCII: one character, but for the
    dotted capital I, whose dot stays as a mark of its own. -/
def lowerWide (c : Char) : List Char :=
  let n := c.toNat
  if n == 0x130 then ['i', Char.ofNat 0x307]
  else if (offset? pairRuns n).any (· % 2 == 0) then [Char.ofNat (n + 1)]
  else [Char.ofNat (Int.toNat (n + shiftOf lowerings n))]

/-- The lower-case form of a character. -/
def lower (c : Char) : List Char :=
  if c.toNat < 0x80 then [c.toLower] else lowerWide c

/-- Whether a text starts with an upper-case character. -/
def startsUpper : List Char → Bool
  | [] => false
  | c :: _ => isUpper c

end CodeAtlas.Text
