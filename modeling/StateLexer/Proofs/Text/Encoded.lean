import StateLexer.Proofs.Text.Decoding

/-!
# Encoded characters

Where some characters are encoded one behind the other, these are the units that reading
rune by rune comes across, and the other way round (`extract_eq_utf8Encode_iff`). The width of
a unit is part of that: the replacement character is encoded by three bytes, and a rune that
is a single byte, because no character is encoded there, is not its encoding.

For a single character, that its encoding stands at an offset can be told by the bytes from
there on (`decode?_eq_some_iff_isPrefix`), by as many of them as it takes
(`decode?_eq_some_iff_extract`), or by the rune (`runeAt_eq_iff`).
-/

namespace StateLexer.Utf8

variable {bytes : ByteArray} {i : Nat} {c : Char} {cs : List Char} {us vs : List (Char × Nat)}
  {b : UInt8}

/-! ## A character -/

theorem size_utf8Encode_singleton (c : Char) : [c].utf8Encode.size = c.utf8Size := by
  rw [List.utf8Encode_singleton, List.size_toByteArray, String.length_utf8EncodeChar]

/-- A character is decoded if the bytes begin with its encoding. -/
theorem decode?_eq_some_iff_isPrefix :
    bytes.utf8DecodeChar? i = some c ↔
      String.utf8EncodeChar c <+: bytes.data.toList.drop i := by
  rw [decode?_eq_some_iff, List.prefix_iff_getElem?]
  simp only [String.length_utf8EncodeChar, List.getElem?_drop, getElem?_toList]
  refine forall₂_congr fun k hk => ?_
  rw [List.getElem?_eq_getElem (by rwa [String.length_utf8EncodeChar])]

/-- A character is decoded if as many bytes as it takes are its encoding. -/
theorem decode?_eq_some_iff_extract :
    bytes.utf8DecodeChar? i = some c ↔ bytes.extract i (i + c.utf8Size) = [c].utf8Encode := by
  rw [decode?_eq_some_iff, List.utf8Encode_singleton]
  constructor
  · intro h
    refine eq_of_getElem? fun k => ?_
    rw [getElem?_toByteArray]
    by_cases hk : k < c.utf8Size
    · rw [getElem?_extract_of (.inl (Nat.add_lt_add_left hk i)), h k hk]
    · have hout : ¬k < (bytes.extract i (i + c.utf8Size)).size := by
        rw [ByteArray.size_extract]
        omega
      rw [getElem?_neg _ k hout, List.getElem?_eq_none (by simpa using hk)]
  · intro h k hk
    rw [← getElem?_extract_of (.inl (Nat.add_lt_add_left hk i)), h, getElem?_toByteArray]

/-- What is decoded in a part of the bytes, is decoded in all of them. -/
theorem decode?_of_extract {j : Nat} (h : (bytes.extract i j).utf8DecodeChar? 0 = some c) :
    bytes.utf8DecodeChar? i = some c := by
  have hle := ByteArray.le_size_of_utf8DecodeChar?_eq_some h
  rw [ByteArray.size_extract] at hle
  refine decode?_eq_some_iff.2 fun k hk => ?_
  rw [← decode?_eq_some_iff.1 h k hk, Nat.zero_add, getElem?_extract_of (.inl (by omega))]

/-- The rune of a single byte is not as wide as the replacement character. -/
theorem runeAt_eq_iff : runeAt bytes i = (c, c.utf8Size) ↔ bytes.utf8DecodeChar? i = some c := by
  cases h : bytes.utf8DecodeChar? i with
  | some d => simp +contextual [runeAt, h]
  | none =>
    simp only [runeAt, h, reduceCtorEq, iff_false, Prod.mk.injEq, not_and]
    rintro rfl
    decide

/-- Any other rune is a character that is encoded there. -/
theorem decode?_of_ne_replacement (h : (runeAt bytes i).1 ≠ replacement) :
    bytes.utf8DecodeChar? i = some (runeAt bytes i).1 := by
  rw [runeAt] at h ⊢
  split at h
  · next c hc => rw [hc]
  · exact absurd rfl h

/-- The bytes of an encoding are made of parts of the code point. -/
theorem toUInt8_shiftRight (c : Char) {k : Nat} (hk : k < 32) :
    (c.val >>> UInt32.ofNat k).toUInt8 = UInt8.ofNat (c.val.toNat >>> k) := by
  refine UInt8.toNat_inj.1 ?_
  rw [UInt32.toNat_toUInt8, UInt32.toNat_shiftRight, UInt8.toNat_ofNat', UInt32.toNat_ofNat',
    Nat.mod_eq_of_lt (a := k) (by omega), Nat.mod_eq_of_lt hk]

/-! ## ASCII characters -/

theorem val_ofUInt8_lt (hb : b < 0x80) : (Char.ofUInt8 b).val < 0x80 := by
  rw [UInt32.lt_iff_toNat_lt]
  exact UInt8.lt_iff_toNat_lt.1 hb

theorem toUInt8_ofUInt8 (b : UInt8) : (Char.ofUInt8 b).toUInt8 = b :=
  UInt8.toUInt8_toUInt32 b

theorem ofUInt8_toUInt8 (hc : c.val < 0x80) : Char.ofUInt8 c.toUInt8 = c := by
  have hval : c.val.toNat < 0x80 := UInt32.lt_iff_toNat_lt.1 hc
  refine Char.ext (UInt32.toNat_inj.1 ?_)
  change c.val.toUInt8.toNat = c.val.toNat
  rw [UInt32.toNat_toUInt8]
  exact Nat.mod_eq_of_lt (by omega)

theorem lt_of_toUInt8 (hc : c.val < 0x80) : c.toUInt8 < 0x80 := by
  have hval : c.val.toNat < 0x80 := UInt32.lt_iff_toNat_lt.1 hc
  rw [UInt8.lt_iff_toNat_lt]
  change c.val.toUInt8.toNat < 0x80
  rw [UInt32.toNat_toUInt8]
  exact Nat.lt_of_le_of_lt (Nat.mod_le _ _) hval

/-- A byte that encodes a character is the rune at its offset. -/
theorem runeAt_of_byte (h : bytes[i]? = some b) (hb : b < 0x80) :
    runeAt bytes i = (Char.ofUInt8 b, 1) := by
  have hsize : (Char.ofUInt8 b).utf8Size = 1 :=
    Char.utf8Size_eq_one_iff.2 (Nat.le_of_lt_succ (val_ofUInt8_lt hb))
  have hdecode : bytes.utf8DecodeChar? i = some (Char.ofUInt8 b) := by
    refine decode?_eq_some_iff.2 fun k hk => ?_
    obtain rfl : k = 0 := by omega
    rw [Nat.add_zero, h, String.utf8EncodeChar_eq_singleton hsize]
    exact congrArg some (toUInt8_ofUInt8 b).symm
  simp only [runeAt, hdecode, hsize]

/-- The character of an ASCII rune is that of its byte. -/
theorem byte_of_runeAt (h : (runeAt bytes i).1.val < 0x80) :
    bytes[i]? = some (runeAt bytes i).1.toUInt8 := by
  obtain ⟨-, b, hb, hbyte⟩ := runeAt_eq_of_ascii h
  rw [runeAt_of_byte hbyte hb, hbyte, toUInt8_ofUInt8]

/-! ## Some characters -/

/-- An encoded text stands at an offset if its first character does, and the others behind it. -/
theorem extract_utf8Encode_cons_iff :
    bytes.extract i (i + (c :: cs).utf8Encode.size) = (c :: cs).utf8Encode ↔
      bytes.utf8DecodeChar? i = some c ∧
        bytes.extract (i + c.utf8Size) (i + c.utf8Size + cs.utf8Encode.size) = cs.utf8Encode := by
  rw [decode?_eq_some_iff_extract, List.utf8Encode_cons, ByteArray.size_append,
    size_utf8Encode_singleton, ← Nat.add_assoc,
    ByteArray.extract_eq_extract_append_extract (i + c.utf8Size) (Nat.le_add_right _ _)
      (Nat.le_add_right _ _)]
  constructor
  · intro h
    have hsize := congrArg ByteArray.size h
    simp only [ByteArray.size_append, ByteArray.size_extract, size_utf8Encode_singleton] at hsize
    have hfirst : bytes.extract i (i + c.utf8Size) = [c].utf8Encode := by
      refine ByteArray.append_inj_left h ?_
      rw [ByteArray.size_extract, size_utf8Encode_singleton]
      omega
    rw [hfirst, ByteArray.append_right_inj] at h
    exact ⟨hfirst, h⟩
  · rintro ⟨hfirst, hrest⟩
    rw [hfirst, hrest]

/-- An encoded text stands at an offset if its characters are the units from there on. -/
theorem extract_eq_utf8Encode_iff :
    bytes.extract i (i + cs.utf8Encode.size) = cs.utf8Encode ↔
      cs.map (fun c => (c, c.utf8Size)) <+: runes.unitsFrom bytes i := by
  induction cs generalizing i with
  | nil =>
    refine iff_of_true ?_ List.nil_prefix
    rw [List.utf8Encode_nil, ByteArray.size_empty, Nat.add_zero, ByteArray.extract_same]
  | cons c cs ih =>
    rw [extract_utf8Encode_cons_iff, ih, List.map_cons, ← runeAt_eq_iff]
    by_cases hi : i < bytes.size
    · rw [Decoding.unitsFrom_of_lt hi, List.cons_prefix_cons, eq_comm]
      refine and_congr_right fun h => ?_
      have hwidth : (runes.unitAt bytes i).2 = c.utf8Size := (congrArg Prod.snd h).symm
      rw [hwidth]
    · rw [Decoding.unitsFrom_of_le (Nat.le_of_not_lt hi), List.prefix_nil, runeAt_eq_iff]
      refine iff_of_false (fun h => ?_) (List.cons_ne_nil _ _)
      exact hi (ByteArray.lt_size_of_isSome_utf8DecodeChar? (Option.isSome_of_eq_some h.1))

/-- Every unit is the one at some offset. -/
theorem Decoding.exists_unitAt {d : Decoding} {u : Char × Nat} (hu : u ∈ d.unitsFrom bytes i) :
    ∃ j, d.unitAt bytes j = u := by
  induction hm : bytes.size - i using Nat.strongRecOn generalizing i with
  | ind m ih =>
    by_cases hi : i < bytes.size
    · rw [unitsFrom_of_lt hi, List.mem_cons] at hu
      rcases hu with rfl | hu
      · exact ⟨i, rfl⟩
      · have hwidth := d.one_le_width bytes i
        exact ih _ (by omega) hu rfl
    · rw [unitsFrom_of_le (Nat.le_of_not_lt hi)] at hu
      exact absurd hu List.not_mem_nil

/-- A unit that does not stand for a malformed byte is as wide as its character. -/
theorem width_of_ne_replacement {u : Char × Nat} (hu : u ∈ runes.unitsFrom bytes i)
    (hne : u.1 ≠ replacement) : u.2 = u.1.utf8Size := by
  obtain ⟨j, hj⟩ := Decoding.exists_unitAt hu
  have hrune : runeAt bytes j = u := hj
  rw [← hrune] at hne ⊢
  exact congrArg Prod.snd (runeAt_eq_iff.2 (decode?_of_ne_replacement hne))

/-- Among well-formed bytes, every unit is as wide as its character. -/
theorem width_of_valid {u : Char × Nat} (hu : u ∈ runes.unitsFrom bytes i)
    (h : (bytes.extract i bytes.size).IsValidUTF8) : u.2 = u.1.utf8Size := by
  obtain ⟨cs, hcs⟩ := h
  rw [Decoding.unitsFrom_eq_units, hcs, Decoding.units_utf8Encode] at hu
  obtain ⟨c, -, rfl⟩ := List.mem_map.1 hu
  rfl

/-- Units that are as wide as their characters are encoded characters. -/
theorem map_encoded (hus : ∀ u ∈ us, u.2 = u.1.utf8Size) :
    (us.map Prod.fst).map (fun c => (c, c.utf8Size)) = us := by
  rw [List.map_map]
  refine (List.map_congr_left fun u hu => ?_).trans (List.map_id us)
  rw [Function.comp_apply, ← hus u hu, id]

/-- Where no rune stands for a malformed byte, the bytes are the encoding of the runes. -/
theorem extract_eq_utf8Encode (h : runes.unitsFrom bytes i = us ++ vs)
    (hus : ∀ u ∈ us, u.1 ≠ replacement) :
    bytes.extract i (i + span us) = (us.map Prod.fst).utf8Encode := by
  have hunits : us <+: runes.unitsFrom bytes i := ⟨vs, h.symm⟩
  have hencoded := map_encoded fun u hu => width_of_ne_replacement (hunits.subset hu) (hus u hu)
  have hspan : span us = (us.map Prod.fst).utf8Encode.size := by rw [← span_encoded, hencoded]
  rw [hspan]
  exact extract_eq_utf8Encode_iff.2 (hencoded.symm ▸ hunits)

end StateLexer.Utf8
