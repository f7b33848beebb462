/-!
# Digits

The number that a run of decimal or hexadecimal digits writes.
-/

namespace CodeAtlas.Text

/-- The value of a hexadecimal digit, in either letter case. -/
def hexDigit? (c : Char) : Option Nat :=
  if c.isDigit then some (c.toNat - 0x30)
  else if 'a' ≤ c ∧ c ≤ 'f' then some (c.toNat - 0x57)
  else if 'A' ≤ c ∧ c ≤ 'F' then some (c.toNat - 0x37)
  else none

/-- The number that hexadecimal digits write. -/
def hexValue (s : List Char) : Nat :=
  s.foldl (fun n c => n * 16 + (hexDigit? c).getD 0) 0

/-- The number that decimal digits write. -/
def decimalValue (s : List Char) : Nat :=
  s.foldl (fun n c => n * 10 + (c.toNat - 0x30)) 0

end CodeAtlas.Text
