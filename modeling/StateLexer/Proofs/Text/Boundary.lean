import StateLexer.Proofs.Text.Encoded

/-!
# Boundaries

The *boundaries* of a string of bytes are the offsets that reading it rune by rune from
the beginning comes to (`Utf8.IsBoundary`). Any bytes have boundaries, whether they are
well-formed or not. To go over an encoded text that stands at a boundary leads to
another one (`IsBoundary.add_text`), as if its runes had been read.

In an encoded string the boundaries lie between its characters, so what lies between
two of them is an encoded string again (`IsBoundary.exists_toUTF8`).

In any bytes, a rune at a boundary reaches as far as the next one (`add_width_le`), and a
character of several bytes stands at a boundary, wherever one may find it
(`of_two_le_width`).
-/

namespace StateLexer.Utf8

/-! ## Continuations -/

section Continuations

variable {bytes : ByteArray} {i k : Nat} {c : Char}

theorem isContinuation_or (b : UInt8) : isContinuation (b &&& 0x3F ||| 0x80) = true := by
  have hall : ∀ n < 256, isContinuation (UInt8.ofNat n &&& 0x3F ||| 0x80) = true := by
    decide +kernel
  have hb := hall b.toNat b.toNat_lt
  rwa [UInt8.ofNat_toNat] at hb

theorem isContinuation_or_lead (b mask : UInt8) {mark : UInt8} (hmark : mark ∈ [0xC0, 0xE0, 0xF0]) :
    isContinuation (b &&& mask ||| mark) = false := by
  have hall : ∀ mark ∈ [0xC0, 0xE0, 0xF0], ∀ n < 256,
      isContinuation (UInt8.ofNat n ||| mark) = false := by decide +kernel
  have hb := hall mark hmark (b &&& mask).toNat (b &&& mask).toNat_lt
  rwa [UInt8.ofNat_toNat] at hb

/-- Of the bytes that encode a character, all but the first are continuations. -/
theorem map_isContinuation (c : Char) :
    (String.utf8EncodeChar c).map isContinuation =
      false :: List.replicate (c.utf8Size - 1) true := by
  rcases Char.utf8Size_eq c with h | h | h | h
  · have hascii : c.val.toUInt8 < 0x80 := by
      have hval : c.val.toNat ≤ 127 := Char.utf8Size_eq_one_iff.1 h
      rw [UInt8.lt_iff_toNat_lt, UInt32.toNat_toUInt8]
      exact Nat.lt_of_le_of_lt (Nat.mod_le _ _) (Nat.lt_succ_of_le hval)
    rw [String.utf8EncodeChar_eq_singleton h, h]
    simpa using not_isContinuation hascii
  · rw [String.utf8EncodeChar_eq_cons_cons h, h]
    simp [isContinuation_or, isContinuation_or_lead]
  · rw [String.utf8EncodeChar_eq_cons_cons_cons h, h]
    simp [isContinuation_or, isContinuation_or_lead, List.replicate]
  · rw [String.utf8EncodeChar_eq_cons_cons_cons_cons h, h]
    simp [isContinuation_or, isContinuation_or_lead, List.replicate]

/-- Where a character is decoded, its first byte is no continuation, and the others are. -/
theorem any_isContinuation (h : bytes.utf8DecodeChar? i = some c) (hk : k < c.utf8Size) :
    bytes[i + k]?.any isContinuation = decide (0 < k) := by
  have hmap := congrArg (·[k]?) (map_isContinuation c)
  simp only [List.getElem?_map, ← decode?_eq_some_iff.1 h k hk] at hmap
  cases k with
  | zero =>
    obtain ⟨b, hb, hcont⟩ := Option.map_eq_some_iff.1 hmap
    rw [hb, Option.any_some, hcont]
    rfl
  | succ k =>
    rw [List.getElem?_cons_succ, List.getElem?_replicate, if_pos (by omega)] at hmap
    obtain ⟨b, hb, hcont⟩ := Option.map_eq_some_iff.1 hmap
    rw [hb, Option.any_some, hcont]
    exact (decide_eq_true (Nat.zero_lt_succ k)).symm

end Continuations

/-! ## Boundaries -/

/-- Reading rune by rune from the beginning comes to the offset. -/
inductive IsBoundary (bytes : ByteArray) : Nat → Prop
  | zero : IsBoundary bytes 0
  | add_width {i : Nat} (h : IsBoundary bytes i) (hi : i < bytes.size) :
    IsBoundary bytes (i + (runeAt bytes i).2)

namespace IsBoundary

variable {bytes : ByteArray} {i j : Nat}

theorem le_size (h : IsBoundary bytes i) : i ≤ bytes.size := by
  cases h with
  | zero => exact Nat.zero_le _
  | add_width h hi => exact add_width_runeAt_le_size hi

/-- A rune at another boundary leads to every boundary but the first. -/
theorem exists_add_width (h : IsBoundary bytes j) (hpos : 0 < j) :
    ∃ i, IsBoundary bytes i ∧ i < bytes.size ∧ i + (runeAt bytes i).2 = j := by
  cases h with
  | zero => exact absurd hpos (Nat.lt_irrefl 0)
  | add_width h hi => exact ⟨_, h, hi, rfl⟩

/-- In front of a boundary stand whole units. -/
theorem exists_units (h : IsBoundary bytes i) :
    ∃ us, runes.units bytes = us ++ runes.unitsFrom bytes i ∧ span us = i := by
  induction h with
  | zero => exact ⟨[], rfl, rfl⟩
  | @add_width i h hi ih =>
    obtain ⟨us, hunits, hspan⟩ := ih
    refine ⟨us ++ [runes.unitAt bytes i], ?_, ?_⟩
    · rw [hunits, Decoding.unitsFrom_of_lt hi, List.append_assoc]
      rfl
    · rw [span_append, hspan, span_cons, span_nil]
      rfl

/-! ## Neighbours -/

/-- A rune at a boundary ends no later than at the next one. -/
theorem add_width_le (hi : IsBoundary bytes i) (hj : IsBoundary bytes j) (hij : i < j) :
    i + (runeAt bytes i).2 ≤ j := by
  induction hsum : i + j using Nat.strongRecOn generalizing i j with
  | ind n ih =>
    cases hj with
    | zero => exact absurd hij (Nat.not_lt_zero i)
    | @add_width k hk hlt =>
      have hwidth := one_le_width_runeAt bytes k
      rcases Nat.lt_trichotomy i k with hik | rfl | hki
      · have := ih (i + k) (by omega) hi hk hik rfl
        omega
      · exact Nat.le_refl _
      · -- The rune at `k` goes beyond `i`, which would be a boundary inside it.
        have := ih (k + i) (by omega) hk hi hki rfl
        omega

/-- Every byte is in a rune that begins at a boundary. -/
theorem exists_le (hi : i < bytes.size) :
    ∃ j, IsBoundary bytes j ∧ j ≤ i ∧ i < j + (runeAt bytes j).2 := by
  induction i with
  | zero => exact ⟨0, .zero, Nat.le_refl 0, by have := one_le_width_runeAt bytes 0; omega⟩
  | succ i ih =>
    obtain ⟨j, hj, hle, hlt⟩ := ih (by omega)
    by_cases hin : i + 1 < j + (runeAt bytes j).2
    · exact ⟨j, hj, by omega, hin⟩
    · have := one_le_width_runeAt bytes (j + (runeAt bytes j).2)
      exact ⟨_, hj.add_width (by omega), by omega, by omega⟩

/-- A rune of several bytes is a character, which stands at a boundary. -/
theorem of_two_le_width (hi : i < bytes.size) (hwidth : 2 ≤ (runeAt bytes i).2) :
    IsBoundary bytes i := by
  have hchar {k : Nat} (hk : 2 ≤ (runeAt bytes k).2) :
      ∃ c, bytes.utf8DecodeChar? k = some c ∧ c.utf8Size = (runeAt bytes k).2 := by
    cases hdecode : bytes.utf8DecodeChar? k with
    | some c => exact ⟨c, rfl, by rw [runeAt, hdecode]⟩
    | none => simp [runeAt, hdecode] at hk
  obtain ⟨j, hj, hle, hlt⟩ := exists_le hi
  obtain rfl | hji := Nat.eq_or_lt_of_le hle
  · exact hj
  · -- The first byte of the one character would be a continuation inside the other.
    have hji : j < i := hji
    obtain ⟨c, hc, -⟩ := hchar hwidth
    obtain ⟨d, hd, hsize⟩ := hchar (k := j) (by omega)
    have hfirst := any_isContinuation hc (k := 0) c.utf8Size_pos
    have hinside := any_isContinuation hd (k := i - j) (by omega)
    rw [Nat.add_sub_cancel' hle] at hinside
    rw [Nat.add_zero, hinside, decide_eq_true (Nat.sub_pos_of_lt hji)] at hfirst
    simp at hfirst

/-! ## Texts -/

/-- The encoding of a character that stands at a boundary leads to another. -/
theorem add_char {c : Char} (h : IsBoundary bytes i)
    (hc : bytes.utf8DecodeChar? i = some c) : IsBoundary bytes (i + c.utf8Size) := by
  have hle := ByteArray.le_size_of_utf8DecodeChar?_eq_some hc
  have hsize := c.utf8Size_pos
  have hwidth : (runeAt bytes i).2 = c.utf8Size := by rw [runeAt, hc]
  rw [← hwidth]
  exact h.add_width (by omega)

theorem add_chars {cs : List Char} (h : IsBoundary bytes i)
    (hcs : bytes.extract i (i + cs.utf8Encode.size) = cs.utf8Encode) :
    IsBoundary bytes (i + cs.utf8Encode.size) := by
  induction cs generalizing i with
  | nil => exact h
  | cons c cs ih =>
    obtain ⟨hdecode, hrest⟩ := extract_utf8Encode_cons_iff.1 hcs
    rw [List.utf8Encode_cons, ByteArray.size_append, size_utf8Encode_singleton, ← Nat.add_assoc]
    exact ih (h.add_char hdecode) hrest

/-- Behind a text that stands at a boundary there is another one. -/
theorem add_text {s : String} (h : IsBoundary bytes i)
    (hs : bytes.extract i (i + s.toUTF8.size) = s.toUTF8) :
    IsBoundary bytes (i + s.toUTF8.size) := by
  rw [String.toUTF8_eq_toByteArray, ← String.utf8Encode_toList] at hs ⊢
  exact h.add_chars hs

/-! ## Encoded strings -/

variable {source : String}

/-- In an encoded string, whole characters stand in front of a boundary. -/
theorem exists_chars (h : IsBoundary source.toUTF8 i) :
    ∃ cs ds, source.toList = cs ++ ds ∧ cs.utf8Encode.size = i := by
  obtain ⟨us, hunits, rfl⟩ := h.exists_units
  rw [runes.units_toUTF8, List.map_eq_append_iff] at hunits
  obtain ⟨cs, ds, hsource, rfl, -⟩ := hunits
  exact ⟨cs, ds, hsource, (span_encoded cs).symm⟩

/-- In an encoded string, the bytes between two boundaries are an encoded string. -/
theorem exists_toUTF8 (hi : IsBoundary source.toUTF8 i) (hj : IsBoundary source.toUTF8 j)
    (hij : i ≤ j) : ∃ s : String, source.toUTF8.extract i j = s.toUTF8 := by
  obtain ⟨cs, ds, hcs, rfl⟩ := hi.exists_chars
  obtain ⟨cs', ds', hcs', rfl⟩ := hj.exists_chars
  rw [String.toUTF8_eq_toByteArray, ← String.utf8Encode_toList]
  rcases List.append_eq_append_iff.1 (hcs'.symm.trans hcs) with ⟨ms, rfl, -⟩ | ⟨ms, rfl, -⟩
  · -- The first boundary lies behind the second, so they are the same.
    refine ⟨"", ?_⟩
    rw [List.utf8Encode_append, ByteArray.size_append] at hij ⊢
    have hms : ms.utf8Encode.size = 0 := by omega
    rw [hms, Nat.add_zero, ByteArray.extract_same]
    rfl
  · refine ⟨String.ofList ms, ?_⟩
    have hright := ByteArray.extract_append_size_add (a := cs.utf8Encode)
      (b := ms.utf8Encode ++ ds'.utf8Encode) (i := 0) (j := ms.utf8Encode.size)
    rw [Nat.add_zero, ByteArray.extract_append_eq_left rfl] at hright
    rw [hcs', List.utf8Encode_append, List.utf8Encode_append, ByteArray.size_append,
      ByteArray.append_assoc, hright, String.toUTF8_eq_toByteArray, String.toByteArray_ofList]

end IsBoundary

end StateLexer.Utf8
