import StateLexer.Proofs.Text.Encoded

/-!
# Runes and their leads

What the rune at an offset is can be told by encodings, without decoding any bytes (`IsRune`):
the character whose encoding stands there, or else the replacement character for one byte.

The first byte of an encoding, its *lead*, tells how many bytes it has (`leadWidth`). So a
decoder need not look for a character byte by byte: it can take as many bytes as the lead asks
for, and decode them as a text of their own (`runeByLead`). They are well-formed only if they
are a single character, the one that begins at the lead, and if they are not, no character
begins there. So this comes to the same rune (`runeByLead_eq`), although neither a byte behind
the first is looked at by itself, nor the characters of the text are counted.
-/

namespace StateLexer.Utf8

variable {bytes : ByteArray} {i w : Nat} {c : Char} {lead : UInt8}

/-! ## Runes -/

/-- The bytes at the offset begin with the encoding of the character. -/
def EncodedAt (bytes : ByteArray) (i : Nat) (c : Char) : Prop :=
  String.utf8EncodeChar c <+: bytes.data.toList.drop i

instance (bytes : ByteArray) (i : Nat) (c : Char) : Decidable (EncodedAt bytes i c) :=
  inferInstanceAs (Decidable (String.utf8EncodeChar c <+: bytes.data.toList.drop i))

/-- The rune and its width are those of the character that is encoded at the offset, if there is
    one, and otherwise of a single byte. -/
structure IsRune (bytes : ByteArray) (i : Nat) (rune : Char × Nat) : Prop where
  unique : ∀ c d, EncodedAt bytes i c → EncodedAt bytes i d → c = d
  encoded : ∀ c, EncodedAt bytes i c → rune = (c, (String.utf8EncodeChar c).length)
  broken : (∀ c, ¬EncodedAt bytes i c) → rune = (replacement, 1)
  one_le_width : 1 ≤ rune.2
  width_le_four : rune.2 ≤ 4
  add_width_le_size : i + rune.2 ≤ bytes.size

theorem isRune_runeAt (hi : i < bytes.size) : IsRune bytes i (runeAt bytes i) := by
  refine ⟨fun c d hc hd => ?_, fun c hc => ?_, fun hnone => ?_, one_le_width_runeAt bytes i,
    width_runeAt_le_four bytes i, add_width_runeAt_le_size hi⟩
  · rw [EncodedAt, ← decode?_eq_some_iff_isPrefix] at hc hd
    exact Option.some.inj (hc.symm.trans hd)
  · rw [String.length_utf8EncodeChar, runeAt_eq_iff, decode?_eq_some_iff_isPrefix]
    exact hc
  · have hdecode : bytes.utf8DecodeChar? i = none := by
      rw [Option.eq_none_iff_forall_ne_some]
      exact fun c hc => hnone c (decode?_eq_some_iff_isPrefix.1 hc)
    rw [runeAt, hdecode]

/-! ## Leads -/

/-- The width of the encodings that begin with the byte, if there are any. -/
def leadWidth (lead : UInt8) : Option Nat :=
  if lead < 0x80 then some 1
  else if 0xC2 ≤ lead ∧ lead ≤ 0xDF then some 2
  else if 0xE0 ≤ lead ∧ lead ≤ 0xEF then some 3
  else if 0xF0 ≤ lead ∧ lead ≤ 0xF4 then some 4
  else none

/-- The rune at offset `i`, spelled as a text, and its width: an ASCII byte is a character of
    its own, and any other lead asks for some bytes to be decoded. -/
def runeByLead (bytes : ByteArray) (i : Nat) (h : i < bytes.size) : String × Nat :=
  if bytes[i] < 0x80 then ((Char.ofUInt8 bytes[i]).toString, 1)
  else
    match leadWidth bytes[i] with
    | some width =>
      match String.fromUTF8? (bytes.extract i (i + width)) with
      | some text => (text, width)
      | none => (replacement.toString, 1)
    | none => (replacement.toString, 1)

/-- The first byte of an encoding tells how many there are. -/
theorem exists_lead (c : Char) :
    ∃ lead, (String.utf8EncodeChar c)[0]? = some lead ∧ leadWidth lead = some c.utf8Size := by
  rcases Char.utf8Size_eq c with h | h | h | h
  · have hascii : c.toUInt8 < 0x80 :=
      lt_of_toUInt8 (Nat.lt_succ_of_le (Char.utf8Size_eq_one_iff.1 h))
    rw [String.utf8EncodeChar_eq_singleton h, h]
    exact ⟨_, rfl, if_pos hascii⟩
  · have hall : ∀ n < 32, 2 ≤ n → leadWidth (UInt8.ofNat n &&& 0x1F ||| 0xC0) = some 2 := by
      decide +kernel
    obtain ⟨hlow, hhigh⟩ := Char.utf8Size_eq_two_iff.1 h
    have hlow : 127 < c.val.toNat := hlow
    have hhigh : c.val.toNat ≤ 2047 := hhigh
    have hlead := toUInt8_shiftRight c (k := 6) (by decide)
    rw [String.utf8EncodeChar_eq_cons_cons h, h]
    exact ⟨_, rfl, hlead ▸ hall _ (by omega) (by omega)⟩
  · have hall : ∀ n < 256, leadWidth (UInt8.ofNat n &&& 0x0F ||| 0xE0) = some 3 := by
      decide +kernel
    obtain ⟨-, hhigh⟩ := Char.utf8Size_eq_three_iff.1 h
    have hhigh : c.val.toNat ≤ 65535 := hhigh
    have hlead := toUInt8_shiftRight c (k := 12) (by decide)
    rw [String.utf8EncodeChar_eq_cons_cons_cons h, h]
    exact ⟨_, rfl, hlead ▸ hall _ (by omega)⟩
  · have hall : ∀ n < 5, leadWidth (UInt8.ofNat n &&& 0x07 ||| 0xF0) = some 4 := by
      decide +kernel
    have hlead := toUInt8_shiftRight c (k := 18) (by decide)
    rw [String.utf8EncodeChar_eq_cons_cons_cons_cons h, h]
    -- No character is above U+10FFFF, so the lead is not above `F4`.
    rcases c.valid with hvalid | hvalid <;>
      exact ⟨_, rfl, hlead ▸ hall _ (by omega)⟩

/-- Where a character is decoded, the byte is its lead. -/
theorem leadWidth_of_decode? (hi : i < bytes.size) (h : bytes.utf8DecodeChar? i = some c) :
    leadWidth bytes[i] = some c.utf8Size := by
  obtain ⟨lead, hlead, hwidth⟩ := exists_lead c
  have hfirst := decode?_eq_some_iff.1 h 0 c.utf8Size_pos
  rw [Nat.add_zero, hlead, getElem?_pos bytes i hi] at hfirst
  rwa [Option.some.inj hfirst]

theorem one_le_of_leadWidth (h : leadWidth lead = some w) : 1 ≤ w := by
  rw [leadWidth] at h
  repeat' split at h
  all_goals simp at h
  all_goals omega

/-! ## Decoding by the lead -/

/-- Where some bytes are well-formed, a character begins. -/
theorem decode?_isSome_of_valid (hi : i < bytes.size) (hw : 1 ≤ w)
    (h : (bytes.extract i (i + w)).IsValidUTF8) : (bytes.utf8DecodeChar? i).isSome := by
  obtain ⟨cs, hcs⟩ := h
  cases cs with
  | nil =>
    have hsize := congrArg ByteArray.size hcs
    rw [ByteArray.size_extract, List.utf8Encode_nil, ByteArray.size_empty] at hsize
    omega
  | cons c cs =>
    have hfirst : (bytes.extract i (i + w)).utf8DecodeChar? 0 = some c :=
      hcs ▸ List.utf8DecodeChar?_utf8Encode_cons
    rw [decode?_of_extract hfirst, Option.isSome_some]

/-- To decode as many bytes as the lead asks for comes to the same as to read a rune. -/
theorem runeByLead_eq (hi : i < bytes.size) :
    runeByLead bytes i hi = ((runeAt bytes i).1.toString, (runeAt bytes i).2) := by
  rw [runeByLead]
  split
  · next hascii => rw [runeAt_of_byte (getElem?_pos bytes i hi) hascii]
  · cases hdecode : bytes.utf8DecodeChar? i with
    | some c =>
      have htext : String.fromUTF8? (bytes.extract i (i + c.utf8Size)) = some c.toString := by
        rw [decode?_eq_some_iff_extract.1 hdecode, String.fromUTF8?,
          dif_pos ByteArray.isValidUTF8_utf8Encode]
        rfl
      simp only [leadWidth_of_decode? hi hdecode, htext, runeAt, hdecode]
    | none =>
      simp only [runeAt, hdecode]
      split
      · next width hlead =>
        have hbroken : ¬(bytes.extract i (i + width)).IsValidUTF8 := fun hvalid => by
          have hsome := decode?_isSome_of_valid hi (one_le_of_leadWidth hlead) hvalid
          simp [hdecode] at hsome
        rw [String.fromUTF8?, dif_neg hbroken]
      · rfl

end StateLexer.Utf8
