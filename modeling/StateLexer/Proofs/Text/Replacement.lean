import Mathlib.Data.List.Destutter
import StateLexer.Proofs.Text.Order

/-!
# Replacement characters

Bytes can be read rune by rune, or shown as a text. Both ways stand on the same characters
where one is encoded, and differ in how they go over bytes that encode none: there a rune is a
single byte, while a text has one replacement character for a whole maximal subpart. The bytes
of a subpart behind its first are continuations, which begin no character
(`runes_unitsFrom_of_broken`), so both ways meet again at its end. A text is thus what the
runes are with some replacement characters left out next to others (`Abridges`).

* `abridges_text`: the text of any bytes and their runes;
* `Abridges.squeeze_eq`, `Abridges.length_le`: without repeated replacement characters they
  are the same, and the text is not longer;
* `toList_text_of_valid`: they are the same of well-formed bytes;
* `Delivers.eq_runes`: what reading rune by rune comes across between two offsets of an input,
  it comes across in the bytes between them, whatever surrounds them.
-/

namespace StateLexer.Utf8

variable {bytes : ByteArray} {i j k m : Nat} {c : Char} {shown read : List Char}

/-! ## Texts that leave out replacement characters -/

/-- The characters, where every block of replacement characters is a single one. -/
def squeeze (cs : List Char) : List Char :=
  cs.destutter fun c d => c ≠ replacement ∨ d ≠ replacement

/-- The first characters are the second ones, but for replacement characters that have been
    left out next to others. -/
inductive Abridges : List Char → List Char → Prop
  | nil : Abridges [] []
  | char (c : Char) {shown read : List Char} (h : Abridges shown read) :
    Abridges (c :: shown) (c :: read)
  | block (m : Nat) {shown read : List Char} (h : Abridges shown read) :
    Abridges (replacement :: shown) (List.replicate (m + 1) replacement ++ read)

theorem destutter'_replicate_append (m : Nat) (cs : List Char) :
    (List.replicate m replacement ++ cs).destutter' (fun c d => c ≠ replacement ∨ d ≠ replacement)
        replacement =
      cs.destutter' (fun c d => c ≠ replacement ∨ d ≠ replacement) replacement := by
  induction m with
  | zero => rfl
  | succ m ih =>
    rw [List.replicate_succ, List.cons_append, List.destutter'_cons_neg _ (by simp), ih]

/-- Behind any character, both come to the same. -/
theorem Abridges.destutter'_eq (h : Abridges shown read) (c : Char) :
    shown.destutter' (fun c d => c ≠ replacement ∨ d ≠ replacement) c =
      read.destutter' (fun c d => c ≠ replacement ∨ d ≠ replacement) c := by
  induction h generalizing c with
  | nil => rfl
  | char d h ih => rw [List.destutter'_cons, List.destutter'_cons, ih c, ih d]
  | block m h ih =>
    rw [List.replicate_succ, List.cons_append, List.destutter'_cons, List.destutter'_cons,
      destutter'_replicate_append, ih replacement]
    split
    · rfl
    · next hc =>
      -- The block goes on with the replacement character in front of it.
      obtain rfl : c = replacement := by
        by_contra hne
        exact hc (.inl hne)
      rw [destutter'_replicate_append, ih replacement]

theorem Abridges.squeeze_eq (h : Abridges shown read) : squeeze shown = squeeze read := by
  cases h with
  | nil => rfl
  | char c h => exact h.destutter'_eq c
  | block m h =>
    rw [squeeze, squeeze, List.replicate_succ, List.cons_append, List.destutter_cons',
      List.destutter_cons', destutter'_replicate_append]
    exact h.destutter'_eq replacement

theorem Abridges.length_le (h : Abridges shown read) : shown.length ≤ read.length := by
  induction h with
  | nil => exact Nat.le_refl 0
  | char c h ih => exact Nat.succ_le_succ ih
  | block m h ih =>
    rw [List.length_cons, List.length_append, List.length_replicate]
    omega

/-! ## Bytes that encode no character -/

/-- No character begins with a continuation. -/
theorem decode?_of_isContinuation (h : bytes[i]?.any isContinuation = true) :
    bytes.utf8DecodeChar? i = none := by
  cases hdecode : bytes.utf8DecodeChar? i with
  | none => rfl
  | some c =>
    have hfirst := any_isContinuation hdecode (k := 0) c.utf8Size_pos
    rw [Nat.add_zero, h] at hfirst
    simp at hfirst

theorem isContinuation_of_opensLong {lead second : UInt8} (h : opensLong lead second = true) :
    isContinuation second = true := by
  simp only [opensLong, Bool.and_eq_true] at h
  exact h.1.1.1.1.1.1

/-- The bytes of a subpart behind its first are continuations. -/
theorem isContinuation_of_lt_brokenWidth (hk : 0 < k) (h : k < brokenWidth bytes i) :
    bytes[i + k]?.any isContinuation = true := by
  rw [brokenWidth] at h
  split at h
  · next lead second third hlead hsecond hthird =>
    split at h
    · next hopens =>
      split at h
      · next hlong =>
        obtain rfl | rfl : k = 1 ∨ k = 2 := by omega
        · rw [hsecond]
          exact isContinuation_of_opensLong hopens
        · rw [hthird]
          exact (Bool.and_eq_true_iff.1 hlong).2
      · obtain rfl : k = 1 := by omega
        rw [hsecond]
        exact isContinuation_of_opensLong hopens
    · omega
  · next lead second hlead hsecond hthird =>
    split at h
    · next hopens =>
      obtain rfl : k = 1 := by omega
      rw [hsecond]
      exact isContinuation_of_opensLong hopens
    · omega
  · omega

/-- Where no character begins, every byte is a rune. -/
theorem runes_unitsFrom_of_none (hm : i + m ≤ bytes.size)
    (h : ∀ k < m, bytes.utf8DecodeChar? (i + k) = none) :
    runes.unitsFrom bytes i =
      List.replicate m (replacement, 1) ++ runes.unitsFrom bytes (i + m) := by
  induction m generalizing i with
  | zero => rfl
  | succ m ih =>
    have hunit : runes.unitAt bytes i = (replacement, 1) := by
      have hnone := h 0 (Nat.zero_lt_succ m)
      rw [Nat.add_zero] at hnone
      change runeAt bytes i = _
      rw [runeAt, hnone]
    have hrest : runes.unitsFrom bytes (i + 1) =
        List.replicate m (replacement, 1) ++ runes.unitsFrom bytes (i + 1 + m) := by
      refine ih (by omega) fun k hk => ?_
      rw [Nat.add_assoc, Nat.add_comm 1 k]
      exact h (k + 1) (Nat.succ_lt_succ hk)
    rw [Decoding.unitsFrom_of_lt (by omega), hunit, hrest, List.replicate_succ, List.cons_append,
      Nat.add_assoc, Nat.add_comm 1 m]

/-- Every byte of a subpart is a rune. -/
theorem runes_unitsFrom_of_broken (hi : i < bytes.size) (h : bytes.utf8DecodeChar? i = none) :
    runes.unitsFrom bytes i = List.replicate (brokenWidth bytes i) (replacement, 1) ++
      runes.unitsFrom bytes (i + brokenWidth bytes i) := by
  refine runes_unitsFrom_of_none (add_brokenWidth_le_size hi) fun k hk => ?_
  rcases Nat.eq_zero_or_pos k with rfl | hpos
  · exact h
  · exact decode?_of_isContinuation (isContinuation_of_lt_brokenWidth hpos hk)

/-! ## Runes and texts of the same bytes -/

theorem abridges_unitsFrom (bytes : ByteArray) (i : Nat) :
    Abridges ((glyphs.unitsFrom bytes i).map Prod.fst)
      ((runes.unitsFrom bytes i).map Prod.fst) := by
  induction hm : bytes.size - i using Nat.strongRecOn generalizing i with
  | ind m ih =>
    by_cases hi : i < bytes.size
    · cases hdecode : bytes.utf8DecodeChar? i with
      | some c =>
        -- Both go over the same character.
        have hsize := c.utf8Size_pos
        rw [Decoding.unitsFrom_of_lt hi, Decoding.unitsFrom_of_lt hi,
          glyphs.unitAt_of_decode? bytes i c hdecode, runes.unitAt_of_decode? bytes i c hdecode]
        exact .char c (ih _ (by omega) _ rfl)
      | none =>
        have hwidth := one_le_brokenWidth bytes i
        have hglyph : glyphs.unitAt bytes i = (replacement, brokenWidth bytes i) := by
          change glyphAt bytes i = _
          rw [glyphAt, hdecode]
        rw [Decoding.unitsFrom_of_lt hi, hglyph, runes_unitsFrom_of_broken hi hdecode,
          List.map_append, List.map_replicate, ← Nat.sub_add_cancel hwidth]
        exact .block _ (ih _ (by omega) _ rfl)
    · rw [Decoding.unitsFrom_of_le (Nat.le_of_not_lt hi),
        Decoding.unitsFrom_of_le (Nat.le_of_not_lt hi)]
      exact .nil

/-- The text of some bytes is what their runes are, with replacement characters left out. -/
theorem abridges_text (bytes : ByteArray) :
    Abridges (text bytes).toList ((runes.units bytes).map Prod.fst) := by
  rw [text_eq, String.toList_ofList]
  exact abridges_unitsFrom bytes 0

/-- The text of well-formed bytes is what their runes are. -/
theorem toList_text_of_valid (h : bytes.IsValidUTF8) :
    (text bytes).toList = (runes.units bytes).map Prod.fst := by
  obtain ⟨cs, rfl⟩ := h
  rw [text_utf8Encode, String.toList_ofList, runes.units_utf8Encode, List.map_map]
  exact (List.map_id cs).symm

/-! ## Reading between two offsets -/

/-- Reading rune by rune leads from the one offset to the other, over the characters. -/
inductive Delivers (bytes : ByteArray) : Nat → List Char → Nat → Prop
  | stop (i : Nat) : Delivers bytes i [] i
  | step {i j : Nat} {cs : List Char} (hi : i < bytes.size)
      (h : Delivers bytes (i + (runeAt bytes i).2) cs j) :
    Delivers bytes i ((runeAt bytes i).1 :: cs) j

theorem Delivers.le (h : Delivers bytes i read j) : i ≤ j := by
  induction h with
  | stop => exact Nat.le_refl _
  | step hi h ih => exact Nat.le_of_add_right_le ih

/-- A rune that ends in front of an offset is the same if the bytes break off there. -/
theorem runeAt_extract (h : i + (runeAt bytes i).2 ≤ j) :
    runeAt (bytes.extract i j) 0 = runeAt bytes i := by
  cases hdecode : bytes.utf8DecodeChar? i with
  | some c =>
    have hrune : runeAt bytes i = (c, c.utf8Size) := by rw [runeAt, hdecode]
    have hcut : (bytes.extract i j).utf8DecodeChar? 0 = some c := by
      rw [hrune] at h
      refine decode?_eq_some_iff.2 fun k hk => ?_
      have hlt := Nat.lt_of_lt_of_le (Nat.add_lt_add_left hk i) h
      rw [Nat.zero_add, getElem?_extract_of (.inl hlt)]
      exact decode?_eq_some_iff.1 hdecode k hk
    rw [hrune, runeAt, hcut]
  | none =>
    have hcut : (bytes.extract i j).utf8DecodeChar? 0 = none := by
      -- A character that is encoded there would be encoded in the whole bytes, too.
      rw [Option.eq_none_iff_forall_ne_some]
      intro c hc
      rw [decode?_of_extract hc] at hdecode
      simp at hdecode
    rw [runeAt, runeAt, hcut, hdecode]

/-- What is read between two offsets, is read in the bytes between them. -/
theorem Delivers.eq_runes (h : Delivers bytes i read j) (hj : j ≤ bytes.size) :
    read = (runes.units (bytes.extract i j)).map Prod.fst := by
  induction h with
  | stop i =>
    rw [ByteArray.extract_same, Decoding.units, Decoding.unitsFrom_of_le (Nat.zero_le _)]
    rfl
  | @step i j cs hi h ih =>
    have hle := h.le
    have hwidth := one_le_width_runeAt bytes i
    have hsize : (bytes.extract i (i + (runeAt bytes i).2)).size = (runeAt bytes i).2 := by
      rw [ByteArray.size_extract]
      omega
    have hfirst : runes.unitAt (bytes.extract i j) 0 = runeAt bytes i := runeAt_extract hle
    have hrest : runes.unitsFrom (bytes.extract i j) (0 + (runeAt bytes i).2) =
        runes.units (bytes.extract (i + (runeAt bytes i).2) j) := by
      have hright := runes.unitsFrom_append_right (bytes.extract i (i + (runeAt bytes i).2))
        (bytes.extract (i + (runeAt bytes i).2) j) 0
      rw [← ByteArray.extract_eq_extract_append_extract _ (Nat.le_add_right _ _) hle, hsize,
        Nat.add_zero] at hright
      rw [Nat.zero_add, hright, Decoding.units]
    have hpos : 0 < (bytes.extract i j).size := by
      rw [ByteArray.size_extract]
      omega
    rw [Decoding.units, Decoding.unitsFrom_of_lt hpos, hfirst, hrest, List.map_cons, ← ih hj]

/-- Reading rune by rune goes over the first units. -/
theorem delivers_of_unitsFrom {us vs : List (Char × Nat)}
    (h : runes.unitsFrom bytes i = us ++ vs) :
    Delivers bytes i (us.map Prod.fst) (i + span us) := by
  induction us generalizing i with
  | nil => exact .stop i
  | cons u us ih =>
    obtain ⟨hi, hunit⟩ := Decoding.unitsFrom_eq_cons h
    have hrune : runeAt bytes i = u := hunit
    subst hrune
    rw [List.cons_append, Decoding.unitsFrom_of_lt hi, List.cons.injEq] at h
    rw [span_cons, ← Nat.add_assoc]
    exact .step hi (ih h.2)

/-- Reading rune by rune to the end goes over all units. -/
theorem delivers_size_iff (hi : i ≤ bytes.size) :
    Delivers bytes i read bytes.size ↔ read = (runes.unitsFrom bytes i).map Prod.fst := by
  constructor
  · intro h
    rw [Decoding.unitsFrom_eq_units]
    exact h.eq_runes (Nat.le_refl _)
  · rintro rfl
    have h := delivers_of_unitsFrom (List.append_nil (runes.unitsFrom bytes i)).symm
    rwa [runes.span_unitsFrom hi] at h

/-- Reading rune by rune leads from every boundary to each that lies behind it. -/
theorem IsBoundary.exists_delivers (hi : IsBoundary bytes i) (hj : IsBoundary bytes j)
    (hij : i ≤ j) : ∃ read, Delivers bytes i read j := by
  induction hm : j - i using Nat.strongRecOn generalizing i with
  | ind m ih =>
    obtain rfl | hlt := Nat.eq_or_lt_of_le hij
    · exact ⟨[], .stop i⟩
    · have hwidth := one_le_width_runeAt bytes i
      have hle := hi.add_width_le hj hlt
      have hsize := Nat.lt_of_lt_of_le hlt hj.le_size
      obtain ⟨read, hread⟩ := ih _ (by omega) (hi.add_width hsize) hle rfl
      exact ⟨_, .step hsize hread⟩

end StateLexer.Utf8
