/-!
# Text from bytes

Files hold bytes, and a file that should hold UTF-8 need not. One reading step
(`readChar`) tells the character that starts at a byte from the longest part of
one that breaks off there. Three readings are built on it:

* `decode?` takes well-formed text only;
* `decodeLossy` puts one replacement character for each broken part;
* `glyphs` keeps every byte: a `Glyph` is a character, or a byte that is part of
  none. A list of glyphs is a source text whose places are still counted in
  bytes, so any excerpt of it can be taken by byte offsets (`excerpt`).
-/

namespace CodeAtlas

/-- The content of a file. -/
abbrev Bytes := List UInt8

namespace Text

/-- A reading step: a character and how many bytes it takes after its first, or
    how many more bytes the broken part of a character takes. -/
inductive Reading where
  | char (c : Char) (more : Nat)
  | broken (more : Nat)

/-- The byte continues a character. -/
def isTrailing (b : UInt8) : Bool :=
  0x80 ≤ b.toNat && b.toNat ≤ 0xBF

/-- The six bits that a continuing byte adds. -/
def trailingBits (b : UInt8) : Nat :=
  b.toNat % 0x40

/-- Whether `b` may be the second byte of a character that starts with `lead`.
    The narrower ranges leave out overlong forms, surrogates and everything past
    the last code point. -/
def isSecond (lead b : UInt8) : Bool :=
  let n := b.toNat
  match lead.toNat with
  | 0xE0 => 0xA0 ≤ n && n ≤ 0xBF
  | 0xED => 0x80 ≤ n && n ≤ 0x9F
  | 0xF0 => 0x90 ≤ n && n ≤ 0xBF
  | 0xF4 => 0x80 ≤ n && n ≤ 0x8F
  | _ => 0x80 ≤ n && n ≤ 0xBF

/-- Reads the character that starts with the byte `b`, before `rest`. -/
def readChar (b : UInt8) (rest : Bytes) : Reading :=
  let n := b.toNat
  if n < 0x80 then .char (Char.ofNat n) 0
  else if 0xC2 ≤ n && n ≤ 0xDF then
    match rest with
    | b₁ :: _ =>
      if isTrailing b₁ then .char (Char.ofNat (n % 0x20 * 0x40 + trailingBits b₁)) 1
      else .broken 0
    | [] => .broken 0
  else if 0xE0 ≤ n && n ≤ 0xEF then
    match rest with
    | b₁ :: b₂ :: _ =>
      if isSecond b b₁ then
        if isTrailing b₂ then
          .char (Char.ofNat ((n % 0x10 * 0x40 + trailingBits b₁) * 0x40 + trailingBits b₂)) 2
        else .broken 1
      else .broken 0
    | [b₁] => if isSecond b b₁ then .broken 1 else .broken 0
    | [] => .broken 0
  else if 0xF0 ≤ n && n ≤ 0xF4 then
    match rest with
    | b₁ :: b₂ :: b₃ :: _ =>
      if isSecond b b₁ then
        if isTrailing b₂ then
          if isTrailing b₃ then
            .char (Char.ofNat (((n % 0x08 * 0x40 + trailingBits b₁) * 0x40 + trailingBits b₂) *
              0x40 + trailingBits b₃)) 3
          else .broken 2
        else .broken 1
      else .broken 0
    | [b₁, b₂] =>
      if isSecond b b₁ then if isTrailing b₂ then .broken 2 else .broken 1 else .broken 0
    | [b₁] => if isSecond b b₁ then .broken 1 else .broken 0
    | [] => .broken 0
  else .broken 0

/-- Reads well-formed text; `skip` bytes belong to the character read last. -/
def decodeFrom? (skip : Nat) : Bytes → Option (List Char)
  | [] => some []
  | b :: rest =>
    match skip with
    | k + 1 => decodeFrom? k rest
    | 0 =>
      match readChar b rest with
      | .char c more => (decodeFrom? more rest).map (c :: ·)
      | .broken _ => none

/-- The text that the bytes encode, if they are well formed. -/
def decode? (bytes : Bytes) : Option (List Char) :=
  decodeFrom? 0 bytes

/-- Reads any bytes as text; `skip` bytes belong to what was read last. -/
def decodeLossyFrom (skip : Nat) : Bytes → List Char
  | [] => []
  | b :: rest =>
    match skip with
    | k + 1 => decodeLossyFrom k rest
    | 0 =>
      match readChar b rest with
      | .char c more => c :: decodeLossyFrom more rest
      | .broken more => Char.ofNat 0xFFFD :: decodeLossyFrom more rest

/-- The text that the bytes encode, with a replacement character for each broken
    part. -/
def decodeLossy (bytes : Bytes) : List Char :=
  decodeLossyFrom 0 bytes

end Text

/-- What a source text is made of: a character, or a byte that is part of
    none. -/
inductive Glyph where
  | char (c : Char)
  | stray (b : UInt8)
  deriving DecidableEq, Repr

namespace Glyph

/-- How many bytes the glyph takes. -/
def size : Glyph → Nat
  | .char c => c.utf8Size
  | .stray _ => 1

/-- The glyph is the character `c`. -/
def is (c : Char) : Glyph → Bool
  | .char d => c == d
  | .stray _ => false

/-- The glyph is a character that satisfies `p`. -/
def satisfies (p : Char → Bool) : Glyph → Bool
  | .char c => p c
  | .stray _ => false

end Glyph

/-- A source text. -/
abbrev Source := List Glyph

namespace Source

/-- Cuts bytes into glyphs; `skip` bytes belong to the character read last. -/
def ofBytesFrom (skip : Nat) : Bytes → Source
  | [] => []
  | b :: rest =>
    match skip with
    | k + 1 => ofBytesFrom k rest
    | 0 =>
      match Text.readChar b rest with
      | .char c more => .char c :: ofBytesFrom more rest
      | .broken _ => .stray b :: ofBytesFrom 0 rest

/-- The source text that the bytes hold. -/
def ofBytes (bytes : Bytes) : Source :=
  ofBytesFrom 0 bytes

/-- The source text made of the characters of `s`. -/
def ofString (s : String) : Source :=
  s.toList.map .char

/-- The characters, if every glyph is one. -/
def chars? : Source → Option (List Char)
  | [] => some []
  | .char c :: rest => (chars? rest).map (c :: ·)
  | .stray _ :: _ => none

/-- The text, empty when a stray byte stands in it. -/
def text (s : Source) : String :=
  match chars? s with
  | some cs => String.ofList cs
  | none => ""

/-- What follows the first `n` bytes, if a glyph starts there or the text ends
    there. -/
def dropBytes? : Nat → Source → Option Source
  | 0, s => some s
  | _ + 1, [] => none
  | n + 1, g :: s => if g.size ≤ n + 1 then dropBytes? (n + 1 - g.size) s else none

/-- The first `n` bytes, if a glyph ends there. -/
def takeBytes? : Nat → Source → Option Source
  | 0, _ => some []
  | _ + 1, [] => none
  | n + 1, g :: s =>
    if g.size ≤ n + 1 then (takeBytes? (n + 1 - g.size) s).map (g :: ·) else none

/-- The text from the byte `start` up to the byte `stop`; empty when the range is
    no range of the source, cuts a character or holds a stray byte. -/
def excerpt (s : Source) (start stop : Nat) : String :=
  if start ≤ stop then
    match (dropBytes? start s).bind (takeBytes? (stop - start)) with
    | some part => text part
    | none => ""
  else ""

end Source

/-- The bytes that encode a string. -/
def bytesOf (s : String) : Bytes :=
  s.toByteArray.data.toList

end CodeAtlas
