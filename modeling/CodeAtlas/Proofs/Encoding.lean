import CodeAtlas.Text.Utf8

/-!
# Encoding and decoding

The bytes that encode a string are well-formed text, and it is the string that they are decoded
to.

* `readChar_encode`: one character, by the number of bytes that it takes;
* `decode?_bytesOf`: a string, character by character.
-/

namespace CodeAtlas.Text

theorem inRange_iff {a b n : Nat} :
    (decide (a ≤ n) && decide (n ≤ b)) ↔ a ≤ n ∧ n ≤ b := by
  simp

theorem isTrailing_ofNat {n : Nat} (h : n < 0x40) :
    isTrailing (UInt8.ofNat (n + 0x80)) ∧ trailingBits (UInt8.ofNat (n + 0x80)) = n := by
  simp only [isTrailing, trailingBits, UInt8.toNat_ofNat', Bool.and_eq_true, decide_eq_true_eq]
  omega

/-- Which bytes may stand second. -/
theorem isSecond_of {lead b : UInt8} (h : 0x80 ≤ b.toNat ∧ b.toNat ≤ 0xBF)
    (hE0 : lead.toNat = 0xE0 → 0xA0 ≤ b.toNat) (hED : lead.toNat = 0xED → b.toNat ≤ 0x9F)
    (hF0 : lead.toNat = 0xF0 → 0x90 ≤ b.toNat) (hF4 : lead.toNat = 0xF4 → b.toNat ≤ 0x8F) :
    isSecond lead b := by
  rw [isSecond]
  split <;> simp only [Bool.and_eq_true, decide_eq_true_eq]
  · next hlead => exact ⟨hE0 hlead, h.2⟩
  · next hlead => exact ⟨h.1, hED hlead⟩
  · next hlead => exact ⟨hF0 hlead, h.2⟩
  · next hlead => exact ⟨h.1, hF4 hlead⟩
  · exact h

theorem readChar_two {v : Nat} (h : 0x80 ≤ v ∧ v ≤ 0x7FF) (rest : Bytes) :
    readChar (UInt8.ofNat (v / 64 % 32 + 192)) (UInt8.ofNat (v % 64 + 128) :: rest) =
      .char (Char.ofNat v) 1 := by
  obtain ⟨htrailing, hbits⟩ := isTrailing_ofNat (n := v % 64) (by omega)
  have hlead : (UInt8.ofNat (v / 64 % 32 + 192)).toNat = v / 64 % 32 + 192 := by
    rw [UInt8.toNat_ofNat']
    omega
  have hvalue : (v / 64 % 32 + 192) % 32 * 64 + v % 64 = v := by omega
  rw [readChar, hlead, if_neg (by omega), if_pos (by rw [inRange_iff]; omega)]
  simp only [htrailing, hbits, hvalue, if_true]

theorem readChar_three {v : Nat} (h : 0x800 ≤ v ∧ v ≤ 0xFFFF) (hpair : v < 0xD800 ∨ 0xDFFF < v)
    (rest : Bytes) :
    readChar (UInt8.ofNat (v / 4096 % 16 + 224))
        (UInt8.ofNat (v / 64 % 64 + 128) :: UInt8.ofNat (v % 64 + 128) :: rest) =
      .char (Char.ofNat v) 2 := by
  obtain ⟨htrailing, hbits⟩ := isTrailing_ofNat (n := v % 64) (by omega)
  obtain ⟨_, hbits'⟩ := isTrailing_ofNat (n := v / 64 % 64) (by omega)
  have hlead : (UInt8.ofNat (v / 4096 % 16 + 224)).toNat = v / 4096 % 16 + 224 := by
    rw [UInt8.toNat_ofNat']
    omega
  have hnext : (UInt8.ofNat (v / 64 % 64 + 128)).toNat = v / 64 % 64 + 128 := by
    rw [UInt8.toNat_ofNat']
    omega
  -- No character is written in more bytes than it needs, and halves of pairs are none.
  have hsecond : isSecond (UInt8.ofNat (v / 4096 % 16 + 224))
      (UInt8.ofNat (v / 64 % 64 + 128)) := by
    apply isSecond_of <;> rw [hnext] <;> try rw [hlead]
    all_goals omega
  have hvalue : ((v / 4096 % 16 + 224) % 16 * 64 + v / 64 % 64) * 64 + v % 64 = v := by omega
  rw [readChar, hlead, if_neg (by omega), if_neg (by rw [inRange_iff]; omega),
    if_pos (by rw [inRange_iff]; omega)]
  simp only [hsecond, htrailing, hbits, hbits', hvalue, if_true]

theorem readChar_four {v : Nat} (h : 0x10000 ≤ v ∧ v < 0x110000) (rest : Bytes) :
    readChar (UInt8.ofNat (v / 262144 % 8 + 240)) (UInt8.ofNat (v / 4096 % 64 + 128) ::
        UInt8.ofNat (v / 64 % 64 + 128) :: UInt8.ofNat (v % 64 + 128) :: rest) =
      .char (Char.ofNat v) 3 := by
  obtain ⟨htrailing, hbits⟩ := isTrailing_ofNat (n := v % 64) (by omega)
  obtain ⟨htrailing', hbits'⟩ := isTrailing_ofNat (n := v / 64 % 64) (by omega)
  obtain ⟨_, hbits''⟩ := isTrailing_ofNat (n := v / 4096 % 64) (by omega)
  have hlead : (UInt8.ofNat (v / 262144 % 8 + 240)).toNat = v / 262144 % 8 + 240 := by
    rw [UInt8.toNat_ofNat']
    omega
  have hnext : (UInt8.ofNat (v / 4096 % 64 + 128)).toNat = v / 4096 % 64 + 128 := by
    rw [UInt8.toNat_ofNat']
    omega
  have hsecond : isSecond (UInt8.ofNat (v / 262144 % 8 + 240))
      (UInt8.ofNat (v / 4096 % 64 + 128)) := by
    apply isSecond_of <;> rw [hnext] <;> try rw [hlead]
    all_goals omega
  have hvalue : (((v / 262144 % 8 + 240) % 8 * 64 + v / 4096 % 64) * 64 + v / 64 % 64) * 64 +
      v % 64 = v := by omega
  rw [readChar, hlead, if_neg (by omega), if_neg (by rw [inRange_iff]; omega),
    if_neg (by rw [inRange_iff]; omega), if_pos (by rw [inRange_iff]; omega)]
  simp only [hsecond, htrailing, htrailing', hbits, hbits', hbits'', hvalue, if_true]

/-- A character is read from the bytes that encode it. -/
theorem readChar_encode (c : Char) : ∃ b more, String.utf8EncodeChar c = b :: more ∧
    ∀ rest, readChar b (more ++ rest) = .char c more.length := by
  have hvalid : c.toNat < 0xD800 ∨ (0xDFFF < c.toNat ∧ c.toNat < 0x110000) := c.valid
  have hchar : Char.ofNat c.toNat = c := Char.ofNat_toNat c
  have hval : c.val.toNat = c.toNat := rfl
  rw [String.utf8EncodeChar, hval]
  generalize c.toNat = v at hvalid hchar
  split
  · refine ⟨_, [], rfl, fun rest => ?_⟩
    have hlead : (UInt8.ofNat v).toNat = v := by
      rw [UInt8.toNat_ofNat']
      omega
    rw [readChar.eq_def, hlead, if_pos (by omega), hchar]
    rfl
  · split
    · exact ⟨_, [_], rfl, fun rest => hchar ▸ readChar_two (by omega) rest⟩
    · split
      · exact ⟨_, [_, _], rfl, fun rest => hchar ▸ readChar_three (by omega) (by omega) rest⟩
      · exact ⟨_, [_, _, _], rfl, fun rest => hchar ▸ readChar_four (by omega) rest⟩

/-- The bytes of a character behind its first are passed over. -/
theorem decodeFrom?_append (more rest : Bytes) :
    decodeFrom? more.length (more ++ rest) = decodeFrom? 0 rest := by
  induction more with
  | nil => rfl
  | cons b more ih => exact ih

theorem decode?_encode (cs : List Char) : decode? (cs.flatMap String.utf8EncodeChar) = some cs := by
  induction cs with
  | nil => rfl
  | cons c cs ih =>
    obtain ⟨b, more, hencode, hread⟩ := readChar_encode c
    rw [List.flatMap_cons, hencode, List.cons_append, decode?, decodeFrom?]
    simp only [hread, decodeFrom?_append]
    rw [← decode?, ih]
    rfl

theorem bytesOf_eq (s : String) : bytesOf s = s.toList.flatMap String.utf8EncodeChar := by
  rw [bytesOf, ← String.ofList_toList (s := s), String.toByteArray_ofList]
  simp [List.utf8Encode]

/-- A string is decoded from its bytes. -/
theorem decode?_bytesOf (s : String) : decode? (bytesOf s) = some s.toList := by
  rw [bytesOf_eq, decode?_encode]

end CodeAtlas.Text
