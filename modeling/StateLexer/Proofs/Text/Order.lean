import StateLexer.Proofs.Text.Boundary
import StateLexer.Proofs.Text.Lines

/-!
# Locations in the order of offsets

Whatever the bytes of a source are, a later offset never has an earlier location. In front of a
later offset there are more bytes, and a byte more either ends a line, or goes on with the last
one (`pointBehind_concat_le`). It may complete a character there, or break one off, so that the
text of the line shows other glyphs than before, but never fewer of them
(`Utf8.length_text_append_le`).

The reason is that more bytes change a glyph only if it is the last one (`Utf8.glyphAt_append`):
where bytes break off the encoding of a character, all that is there of it is a single subpart
(`Utf8.brokenWidth_of_cut`), so nothing stands behind it.
-/

namespace StateLexer

namespace Utf8

variable {x y : ByteArray} {i : Nat} {c : Char} {lead second : UInt8}

/-! ## What begins an encoding -/

theorem opensLong_of_three (h : c.utf8Size = 3) :
    opensLong ((c.val >>> 12).toUInt8 &&& 15 ||| 224) ((c.val >>> 6).toUInt8 &&& 63 ||| 128) =
      true := by
  -- All but the last six bits of the character decide, and those of the surrogates are left out.
  have hall : ∀ n < 1024, 32 ≤ n → ¬(864 ≤ n ∧ n < 896) →
      opensLong (UInt8.ofNat (n >>> 6) &&& 15 ||| 224) (UInt8.ofNat n &&& 63 ||| 128) = true := by
    decide +kernel
  obtain ⟨hlow, hhigh⟩ := Char.utf8Size_eq_three_iff.1 h
  have hlow : 2047 < c.val.toNat := hlow
  have hhigh : c.val.toNat ≤ 65535 := hhigh
  have hlead : (c.val >>> 12).toUInt8 = UInt8.ofNat (c.val.toNat >>> 6 >>> 6) := by
    rw [← Nat.shiftRight_add]
    exact toUInt8_shiftRight c (by decide)
  have hsecond : (c.val >>> 6).toUInt8 = UInt8.ofNat (c.val.toNat >>> 6) :=
    toUInt8_shiftRight c (by decide)
  rw [hlead, hsecond]
  refine hall _ (by omega) (by omega) fun hsurrogate => ?_
  rcases c.valid with hvalid | hvalid <;> omega

theorem opensLong_of_four (h : c.utf8Size = 4) :
    opensLong ((c.val >>> 18).toUInt8 &&& 7 ||| 240) ((c.val >>> 12).toUInt8 &&& 63 ||| 128) =
      true := by
  have hall : ∀ n < 272, 16 ≤ n →
      opensLong (UInt8.ofNat (n >>> 6) &&& 7 ||| 240) (UInt8.ofNat n &&& 63 ||| 128) = true := by
    decide +kernel
  have hlow : 65535 < c.val.toNat := Char.utf8Size_eq_four_iff.1 h
  have hlead : (c.val >>> 18).toUInt8 = UInt8.ofNat (c.val.toNat >>> 12 >>> 6) := by
    rw [← Nat.shiftRight_add]
    exact toUInt8_shiftRight c (by decide)
  have hsecond : (c.val >>> 12).toUInt8 = UInt8.ofNat (c.val.toNat >>> 12) :=
    toUInt8_shiftRight c (by decide)
  rw [hlead, hsecond]
  rcases c.valid with hvalid | hvalid <;> exact hall _ (by omega) (by omega)

/-- The first two bytes of an encoding of three or four are not broken off from each other. -/
theorem exists_opensLong (h : 3 ≤ c.utf8Size) :
    ∃ lead second, (String.utf8EncodeChar c)[0]? = some lead ∧
      (String.utf8EncodeChar c)[1]? = some second ∧ opensLong lead second = true ∧
      (c.utf8Size = 4 → 0xF0 ≤ lead) := by
  rcases Char.utf8Size_eq c with hsize | hsize | hsize | hsize
  · omega
  · omega
  · rw [String.utf8EncodeChar_eq_cons_cons_cons hsize]
    exact ⟨_, _, rfl, rfl, opensLong_of_three hsize, by omega⟩
  · rw [String.utf8EncodeChar_eq_cons_cons_cons_cons hsize]
    exact ⟨_, _, rfl, rfl, opensLong_of_four hsize, fun _ => le_or_right _ _⟩

/-! ## Bytes that are broken off -/

/-- The width of a subpart that begins in front of the last byte. -/
theorem brokenWidth_eq (hlead : x[i]? = some lead) (hsecond : x[i + 1]? = some second) :
    brokenWidth x i =
      if opensLong lead second then
        if 0xF0 ≤ lead && x[i + 2]?.any isContinuation then 3 else 2
      else 1 := by
  rw [brokenWidth, hlead, hsecond]
  cases x[i + 2]? <;> simp

/-- Where the bytes break off the encoding of a character, what is there of it is one subpart. -/
theorem brokenWidth_of_cut (hi : i < x.size) (hcut : x.size < i + c.utf8Size)
    (hc : (x ++ y).utf8DecodeChar? i = some c) : i + brokenWidth x i = x.size := by
  have hle := add_brokenWidth_le_size hi
  have hpos := one_le_brokenWidth x i
  have hfour := c.utf8Size_le_four
  by_cases hone : x.size = i + 1
  · omega
  have hbyte {k : Nat} (hk : i + k < x.size) : x[i + k]? = (String.utf8EncodeChar c)[k]? := by
    rw [← decode?_eq_some_iff.1 hc k (by omega), getElem?_append_left hk]
  obtain ⟨lead, second, hfirst, hnext, hopens, hhigh⟩ := exists_opensLong (c := c) (by omega)
  have hlead : x[i]? = some lead := (hbyte (k := 0) (by omega)).trans hfirst
  have hsecond : x[i + 1]? = some second := (hbyte (by omega)).trans hnext
  rw [brokenWidth_eq hlead hsecond, if_pos hopens]
  by_cases htwo : x.size = i + 2
  · rw [getElem?_neg x (i + 2) (by omega)]
    simp [htwo]
  · have hcont := any_isContinuation hc (k := 2) (by omega)
    rw [getElem?_append_left (by omega)] at hcont
    rw [hcont, if_pos (by simpa using hhigh (by omega))]
    omega

theorem brokenWidth_append (h : i + brokenWidth x i < x.size) :
    brokenWidth (x ++ y) i = brokenWidth x i := by
  have hpos := one_le_brokenWidth x i
  have hlead := getElem?_pos x i (by omega)
  have hsecond := getElem?_pos x (i + 1) (by omega)
  rw [brokenWidth_eq hlead hsecond] at h ⊢
  rw [brokenWidth_eq ((getElem?_append_left (by omega)).trans hlead)
    ((getElem?_append_left (by omega)).trans hsecond)]
  split
  · next hopens =>
    rw [if_pos hopens] at h
    -- There is a third byte, since two of them do not reach the end.
    have hthird : i + 2 < x.size := by split at h <;> omega
    rw [getElem?_append_left hthird]
  · rfl

/-- More bytes change a glyph only if it is the last one. -/
theorem glyphAt_append (h : i + (glyphAt x i).2 < x.size) :
    glyphAt (x ++ y) i = glyphAt x i := by
  cases hx : x.utf8DecodeChar? i with
  | some c => rw [glyphAt, glyphAt, ByteArray.utf8DecodeChar?_append_eq_some hx, hx]
  | none =>
    have hbroken : glyphAt x i = (replacement, brokenWidth x i) := by rw [glyphAt, hx]
    rw [hbroken] at h ⊢
    cases hxy : (x ++ y).utf8DecodeChar? i with
    | some c =>
      by_cases hcut : x.size < i + c.utf8Size
      · have := brokenWidth_of_cut (by omega) hcut hxy
        omega
      · -- The whole encoding is there without the other bytes.
        have hx' : x.utf8DecodeChar? i = some c := by
          refine decode?_eq_some_iff.2 fun k hk => ?_
          rw [← decode?_eq_some_iff.1 hxy k hk, getElem?_append_left (by omega)]
        rw [hx] at hx'
        simp at hx'
    | none => rw [glyphAt, hxy, brokenWidth_append h]

/-! ## Longer texts -/

theorem length_unitsFrom_append_le (x y : ByteArray) (i : Nat) :
    (glyphs.unitsFrom x i).length ≤ (glyphs.unitsFrom (x ++ y) i).length := by
  induction h : x.size - i using Nat.strongRecOn generalizing i with
  | ind m ih =>
    by_cases hi : i < x.size
    · have hwidth : 1 ≤ (glyphs.unitAt x i).2 := glyphs.one_le_width x i
      have hi' : i < (x ++ y).size := by
        rw [ByteArray.size_append]
        omega
      rw [Decoding.unitsFrom_of_lt hi, Decoding.unitsFrom_of_lt hi', List.length_cons,
        List.length_cons]
      refine Nat.succ_le_succ ?_
      by_cases hlast : i + (glyphs.unitAt x i).2 < x.size
      · have hunit : glyphs.unitAt (x ++ y) i = glyphs.unitAt x i := glyphAt_append hlast
        rw [hunit]
        exact ih _ (by omega) _ rfl
      · rw [Decoding.unitsFrom_of_le (Nat.le_of_not_lt hlast)]
        exact Nat.zero_le _
    · rw [Decoding.unitsFrom_of_le (Nat.le_of_not_lt hi)]
      exact Nat.zero_le _

/-- More bytes do not show fewer characters. -/
theorem length_text_append_le (x y : ByteArray) : (text x).length ≤ (text (x ++ y)).length := by
  simpa [text_eq, Decoding.units] using length_unitsFrom_append_le x y 0

end Utf8

/-! ## Points -/

/-- Line and column behind the bytes. -/
def pointBehind (bs : List UInt8) : Int ×ₗ Int :=
  toLex (1 + (lineEndings bs : Int), (Utf8.text (lastLine bs).toByteArray).length + 1)

theorem point_locate (bytes : ByteArray) (offset : Int) (file : Option String) :
    (locate bytes offset file).point = pointBehind (front bytes (clampOffset bytes offset)) := rfl

/-- A byte more does not lead back. -/
theorem pointBehind_concat_le (bs : List UInt8) (b : UInt8) :
    pointBehind bs ≤ pointBehind (bs ++ [b]) := by
  rw [pointBehind, pointBehind, Prod.Lex.toLex_le_toLex]
  by_cases hbreak : isLineBreak b = true
  · by_cases hpair : bs.getLast? = some carriageReturn ∧ b = lineFeed
    · -- The line has ended with the carriage return, and nothing stands behind that.
      obtain ⟨hreturn, rfl⟩ := hpair
      obtain ⟨init, hinit⟩ := List.getLast?_eq_some_iff.1 hreturn
      rw [lineEndings_concat_pair hreturn, lastLine_concat bs rfl, hinit, lastLine_concat init rfl]
      exact .inr ⟨rfl, le_rfl⟩
    · rw [lineEndings_concat, if_pos ⟨hbreak, hpair⟩]
      left
      dsimp only
      omega
  · have hplain : ∀ b' ∈ [b], isLineBreak b' = false := by simpa using hbreak
    have hlength := Utf8.length_text_append_le (lastLine bs).toByteArray [b].toByteArray
    rw [lineEndings_append hplain, lastLine_append hplain, List.toByteArray_append]
    refine .inr ⟨rfl, ?_⟩
    dsimp only
    omega

theorem pointBehind_append_le (bs cs : List UInt8) : pointBehind bs ≤ pointBehind (bs ++ cs) := by
  induction cs generalizing bs with
  | nil => rw [List.append_nil]
  | cons b cs ih =>
    rw [List.append_cons]
    exact (pointBehind_concat_le bs b).trans (ih (bs ++ [b]))

theorem clampOffset_mono (bytes : ByteArray) {i j : Int} (h : i ≤ j) :
    clampOffset bytes i ≤ clampOffset bytes j := by
  simp only [clampOffset]
  omega

/-- A later offset has no earlier location, whatever the bytes are and wherever in them or outside
    them the offsets lie. Lines and columns count from one, and the offset of a location is the
    given one, moved into the source. -/
theorem locate_mono (bytes : ByteArray) (file : Option String) :
    (∀ i j : Int, i ≤ j → (locate bytes i file).point ≤ (locate bytes j file).point) ∧
      ∀ i : Int, 1 ≤ (locate bytes i file).line ∧ 1 ≤ (locate bytes i file).column ∧
        (locate bytes i file).offset = max 0 (min i bytes.size) := by
  refine ⟨fun i j hij => ?_, fun i => ⟨?_, ?_, ?_⟩⟩
  · rw [point_locate, point_locate, front_eq_append (clampOffset_mono bytes hij)]
    exact pointBehind_append_le _ _
  · simp only [locate]
    omega
  · simp only [locate]
    omega
  · simp only [locate, clampOffset]
    omega

/-- A line ends with two breaks, and behind it a character is broken off by a letter. The line
    feed and the second of the broken bytes change nothing. -/
theorem locate_mono_broken :
    let bytes : ByteArray := [0x0D, 0x0A, 0xE2, 0x82, 0x41].toByteArray
    let point (i : Int) := (locate bytes i none).point
    [-7, 1, 2, 3, 4, 5, 99].map point =
        [toLex (1, 1), toLex (2, 1), toLex (2, 1), toLex (2, 2), toLex (2, 2), toLex (2, 3),
          toLex (2, 3)] ∧
      (-7 : Int) ≤ 3 ∧ point (-7) ≤ point 3 ∧ (3 : Int) ≤ 99 ∧ point 3 ≤ point 99 := by
  intro bytes point
  obtain ⟨hmono, -⟩ := locate_mono bytes none
  exact ⟨by decide +kernel, by decide, hmono (-7) 3 (by decide), by decide,
    hmono 3 99 (by decide)⟩

end StateLexer
