import Mathlib.Tactic.ByContra
import StateLexer.Text.Utf8

/-!
# Decoding in parts

A string of bytes can be decoded in parts, if it is cut where no encoding goes
across: next to an ASCII byte, in front of it or behind it (`Utf8.Parted`). This
holds for both ways to read bytes, rune by rune and as a text, since both go from
unit to unit and look at a byte behind the first of a unit only as long as the
bytes before can be continued (`Utf8.Decoding`).

* `decode?_eq_some_iff`: a character is decoded where its encoding stands;
* `Decoding.units_append`: the units of parted bytes are those of the parts;
* `Decoding.units_toUTF8`: the units of an encoded string are its characters;
* `text_append`, `text_toUTF8`: the same for texts;
* `parted_extract`: bytes can be cut in front of an ASCII rune, and behind one.
-/

namespace StateLexer.Utf8

/-! ## Bytes -/

section Bytes

variable {x y : ByteArray} {i j : Nat}

theorem getElem?_append_left (hi : i < x.size) : (x ++ y)[i]? = x[i]? := by
  have hi' : i < (x ++ y).size := by
    rw [ByteArray.size_append]
    omega
  rw [getElem?_pos x i hi, getElem?_pos (x ++ y) i hi', ByteArray.getElem_append_left hi]

theorem getElem?_append_right : (x ++ y)[x.size + j]? = y[j]? := by
  by_cases hj : j < y.size
  · have hj' : x.size + j < (x ++ y).size := by
      rw [ByteArray.size_append]
      omega
    rw [getElem?_pos y j hj, getElem?_pos (x ++ y) _ hj',
      ByteArray.getElem_append_right (Nat.le_add_right _ _)]
    simp
  · have hj' : ¬x.size + j < (x ++ y).size := by
      rw [ByteArray.size_append]
      omega
    rw [getElem?_neg y j hj, getElem?_neg (x ++ y) _ hj']

theorem getElem?_append_size : (x ++ y)[x.size]? = y[0]? :=
  getElem?_append_right (j := 0)

theorem getElem?_toByteArray (l : List UInt8) (i : Nat) : l.toByteArray[i]? = l[i]? := by
  by_cases hi : i < l.length
  · have hi' : i < l.toByteArray.size := by rwa [List.size_toByteArray]
    rw [getElem?_pos l.toByteArray i hi', List.getElem?_eq_getElem hi, List.getElem_toByteArray]
  · have hi' : ¬i < l.toByteArray.size := by rwa [List.size_toByteArray]
    rw [getElem?_neg l.toByteArray i hi', List.getElem?_eq_none (Nat.le_of_not_lt hi)]

theorem getElem?_toList (x : ByteArray) (i : Nat) : x.data.toList[i]? = x[i]? := by
  rw [Array.getElem?_toList]
  rfl

theorem toByteArray_toList (x : ByteArray) : x.data.toList.toByteArray = x :=
  ByteArray.ext (by rw [List.data_toByteArray, Array.toArray_toList])

theorem eq_of_getElem? (h : ∀ i : Nat, x[i]? = y[i]?) : x = y := by
  have hsize : x.size = y.size := by
    rcases Nat.lt_trichotomy x.size y.size with hlt | heq | hlt
    · have := h x.size
      rw [getElem?_neg x _ (Nat.lt_irrefl _), getElem?_pos y _ hlt] at this
      simp at this
    · exact heq
    · have := h y.size
      rw [getElem?_neg y _ (Nat.lt_irrefl _), getElem?_pos x _ hlt] at this
      simp at this
  refine ByteArray.ext_getElem hsize fun i hi hi' => ?_
  have := h i
  rw [getElem?_pos x i hi, getElem?_pos y i hi'] at this
  exact Option.some.inj this

theorem getElem?_extract_of {k : Nat} (h : i + k < j ∨ x.size ≤ j) :
    (x.extract i j)[k]? = x[i + k]? := by
  by_cases hk : i + k < x.size
  · have hk' : k < (x.extract i j).size := by
      rw [ByteArray.size_extract]
      omega
    rw [getElem?_pos x _ hk, getElem?_pos (x.extract i j) _ hk', ByteArray.getElem_extract]
  · have hk' : ¬k < (x.extract i j).size := by
      rw [ByteArray.size_extract]
      omega
    rw [getElem?_neg x _ hk, getElem?_neg (x.extract i j) _ hk']

theorem getElem?_extract (i k : Nat) : (x.extract i x.size)[k]? = x[i + k]? :=
  getElem?_extract_of (.inr (Nat.le_refl _))

end Bytes

/-! ## Characters -/

/-- A character is decoded where its encoding stands. -/
theorem decode?_eq_some_iff {bytes : ByteArray} {i : Nat} {c : Char} :
    bytes.utf8DecodeChar? i = some c ↔
      ∀ k < c.utf8Size, bytes[i + k]? = (String.utf8EncodeChar c)[k]? := by
  have hsize : (String.utf8EncodeChar c).toByteArray.size = c.utf8Size := by simp
  rw [ByteArray.utf8DecodeChar?_eq_utf8DecodeChar?_extract]
  constructor
  · intro h k hk
    obtain ⟨l, hl⟩ := ByteArray.exists_of_utf8DecodeChar?_eq_some h
    rw [← getElem?_extract, hl, getElem?_append_left (by omega), getElem?_toByteArray]
  · intro h
    have hbytes : bytes.extract i bytes.size = (String.utf8EncodeChar c).toByteArray ++
        bytes.extract (i + c.utf8Size) bytes.size := by
      refine eq_of_getElem? fun k => ?_
      rw [getElem?_extract]
      by_cases hk : k < c.utf8Size
      · rw [h k hk, getElem?_append_left (by omega), getElem?_toByteArray]
      · obtain ⟨j, rfl⟩ := Nat.exists_eq_add_of_le (Nat.le_of_not_lt hk)
        have hright := getElem?_append_right (x := (String.utf8EncodeChar c).toByteArray)
          (y := bytes.extract (i + c.utf8Size) bytes.size) (j := j)
        rw [hsize] at hright
        rw [hright, getElem?_extract, Nat.add_assoc]
    rw [hbytes, ByteArray.utf8DecodeChar?_utf8EncodeChar_append]

theorem le_or_right (a b : UInt8) : b ≤ a ||| b := by
  rw [UInt8.le_iff_toNat_le, UInt8.toNat_or]
  exact Nat.right_le_or

/-- An encoding of several bytes has no ASCII byte. -/
theorem le_of_mem_utf8EncodeChar {c : Char} {b : UInt8} (hc : c.utf8Size ≠ 1)
    (hb : b ∈ String.utf8EncodeChar c) : 0x80 ≤ b := by
  -- Every byte has one of the marks by a disjunction.
  have hmark (a m : UInt8) (hm : 0x80 ≤ m) : 0x80 ≤ a ||| m := UInt8.le_trans hm (le_or_right a m)
  rcases Char.utf8Size_eq c with h | h | h | h
  · exact absurd h hc
  · rw [String.utf8EncodeChar_eq_cons_cons h] at hb
    rcases List.mem_cons.1 hb with rfl | hb
    · exact hmark _ _ (by decide)
    · obtain rfl := List.mem_singleton.1 hb
      exact hmark _ _ (by decide)
  · rw [String.utf8EncodeChar_eq_cons_cons_cons h] at hb
    simp only [List.mem_cons, List.not_mem_nil, or_false] at hb
    rcases hb with rfl | rfl | rfl <;> exact hmark _ _ (by decide)
  · rw [String.utf8EncodeChar_eq_cons_cons_cons_cons h] at hb
    simp only [List.mem_cons, List.not_mem_nil, or_false] at hb
    rcases hb with rfl | rfl | rfl | rfl <;> exact hmark _ _ (by decide)

/-! ## Parted bytes -/

/-- No encoding goes from `x` to `y`: there is an ASCII byte at the end of the one
    or at the beginning of the other, unless one of them is empty. -/
def Parted (x y : ByteArray) : Prop :=
  (∀ b ∈ x[x.size - 1]?, b < 0x80) ∨ ∀ b ∈ y[0]?, b < 0x80

variable {x y : ByteArray} {i j : Nat}

theorem parted_toByteArray {bs cs : List UInt8}
    (h : (∀ b ∈ bs.getLast?, b < 0x80) ∨ ∀ b ∈ cs.head?, b < 0x80) :
    Parted bs.toByteArray cs.toByteArray := by
  rw [List.getLast?_eq_getElem?, List.head?_eq_getElem?] at h
  rw [Parted, List.size_toByteArray, getElem?_toByteArray, getElem?_toByteArray]
  exact h

/-- In parted bytes, a character of the first part is decoded as in that part alone. -/
theorem decode?_append_left (h : Parted x y) (hi : i < x.size) :
    (x ++ y).utf8DecodeChar? i = x.utf8DecodeChar? i := by
  cases hx : x.utf8DecodeChar? i with
  | some c => exact ByteArray.utf8DecodeChar?_append_eq_some hx y
  | none =>
    by_contra hne
    obtain ⟨c, hc⟩ := Option.ne_none_iff_exists'.1 hne
    rw [decode?_eq_some_iff] at hc
    by_cases hfit : i + c.utf8Size ≤ x.size
    · -- The encoding is one of the first part already.
      have hx' : x.utf8DecodeChar? i = some c := by
        refine decode?_eq_some_iff.2 fun k hk => ?_
        rw [← hc k hk, getElem?_append_left (by omega)]
      rw [hx] at hx'
      simp at hx'
    · -- The encoding has a byte on either side of the border.
      have hbyte (k : Nat) (hk : k < c.utf8Size) (b : UInt8) (hb : (x ++ y)[i + k]? = some b) :
          0x80 ≤ b := by
        rw [hc k hk] at hb
        exact le_of_mem_utf8EncodeChar (by omega) (List.mem_of_getElem? hb)
      rcases h with h | h
      · have hlast := getElem?_pos x (x.size - 1) (by omega)
        have hle := hbyte (x.size - 1 - i) (by omega) x[x.size - 1] (by
          rw [Nat.add_sub_cancel' (by omega), getElem?_append_left (by omega), hlast])
        exact absurd (h _ hlast) (UInt8.not_lt.2 hle)
      · have hk : i + (x.size - i) = x.size := by omega
        have hfirst : (x ++ y)[i + (x.size - i)]? = y[0]? := by rw [hk, getElem?_append_size]
        have hsome : y[0]? = (String.utf8EncodeChar c)[x.size - i]? := by
          rw [← hfirst, hc _ (by omega)]
        rw [List.getElem?_eq_getElem (by simp; omega)] at hsome
        have hle := hbyte (x.size - i) (by omega) _ (hfirst.trans hsome)
        exact absurd (h _ hsome) (UInt8.not_lt.2 hle)

/-- A character of the second part is decoded as in that part alone. -/
theorem decode?_append_right : (x ++ y).utf8DecodeChar? (x.size + j) = y.utf8DecodeChar? j := by
  refine Option.ext fun c => ?_
  rw [decode?_eq_some_iff, decode?_eq_some_iff]
  simp only [Nat.add_assoc, getElem?_append_right]

/-! ## Subparts -/

theorem not_isContinuation {b : UInt8} (hb : b < 0x80) : isContinuation b = false := by
  have hall : ∀ n < 0x80, isContinuation (UInt8.ofNat n) = false := by decide +kernel
  have hb' := hall b.toNat (UInt8.lt_iff_toNat_lt.1 hb)
  rwa [UInt8.ofNat_toNat] at hb'

theorem not_opensLong {lead second : UInt8} (h : lead < 0x80 ∨ second < 0x80) :
    opensLong lead second = false := by
  rw [opensLong]
  rcases h with h | h
  · have hlead : decide (0xE0 ≤ lead) = false := by
      rw [decide_eq_false_iff_not, UInt8.not_le]
      exact UInt8.lt_trans h (by decide)
    simp [hlead]
  · simp [not_isContinuation h]

/-- A subpart does not go beyond the bytes. -/
theorem add_brokenWidth_le_size (hi : i < x.size) : i + brokenWidth x i ≤ x.size := by
  rw [brokenWidth]
  split
  · next h =>
    obtain ⟨h', -⟩ := getElem?_eq_some_iff.1 h
    repeat' split
    all_goals omega
  · next h _ =>
    obtain ⟨h', -⟩ := getElem?_eq_some_iff.1 h
    split <;> omega
  · omega

theorem brokenWidth_append_right : brokenWidth (x ++ y) (x.size + j) = brokenWidth y j := by
  simp only [brokenWidth, Nat.add_assoc, getElem?_append_right]

/-- A subpart that begins in the first of two parted bytes is the same there alone. -/
theorem brokenWidth_append_left (h : Parted x y) (hi : i < x.size) :
    brokenWidth (x ++ y) i = brokenWidth x i := by
  -- The last byte of the one or the first of the other is no part of a long encoding.
  have hlast (lead : UInt8) (hlead : x[x.size - 1]? = some lead) (second : UInt8)
      (hsecond : y[0]? = some second) : lead < 0x80 ∨ second < 0x80 :=
    h.imp (fun h => h lead hlead) fun h => h second hsecond
  unfold brokenWidth
  rw [getElem?_append_left hi, getElem?_pos x i hi]
  rcases (by omega : i + 2 < x.size ∨ i + 2 = x.size ∨ i + 1 = x.size) with hin | hend | hend
  · rw [getElem?_append_left (by omega), getElem?_append_left hin]
  · have hthird : (x ++ y)[i + 2]? = y[0]? := by
      rw [hend, getElem?_append_size]
    have hsecond : x[x.size - 1]? = some x[i + 1] := by
      rw [← getElem?_pos x (i + 1) (by omega)]
      congr 1
      omega
    rw [getElem?_append_left (by omega), getElem?_pos x (i + 1) (by omega), hthird,
      getElem?_neg x (i + 2) (by omega)]
    cases hy : y[0]? with
    | none => rfl
    | some third =>
      rcases hlast _ hsecond third hy with hascii | hascii
      · simp [not_opensLong (.inr hascii)]
      · simp [not_isContinuation hascii]
  · have hsecond : (x ++ y)[i + 1]? = y[0]? := by
      rw [hend, getElem?_append_size]
    have hlead : x[x.size - 1]? = some x[i] := by
      rw [← getElem?_pos x i hi]
      congr 1
      omega
    rw [hsecond, getElem?_neg x (i + 1) (by omega)]
    cases hy : y[0]? with
    | none => rfl
    | some second =>
      have hshort := not_opensLong (hlast _ hlead second hy)
      cases (x ++ y)[i + 2]? <;> simp [hshort]

/-! ## Units -/

/-- The number of bytes that units take. -/
def span : List (Char × Nat) → Nat
  | [] => 0
  | u :: us => u.2 + span us

@[simp] theorem span_nil : span [] = 0 := rfl

@[simp] theorem span_cons (u : Char × Nat) (us : List (Char × Nat)) :
    span (u :: us) = u.2 + span us := rfl

@[simp] theorem span_append (us vs : List (Char × Nat)) : span (us ++ vs) = span us + span vs := by
  induction us with
  | nil => rw [List.nil_append, span_nil, Nat.zero_add]
  | cons u us ih => rw [List.cons_append, span_cons, span_cons, ih, Nat.add_assoc]

/-- Encoded characters take as many bytes as their encoding. -/
theorem span_encoded (cs : List Char) :
    span (cs.map fun c => (c, c.utf8Size)) = cs.utf8Encode.size := by
  induction cs with
  | nil => rfl
  | cons c cs ih =>
    rw [List.map_cons, span_cons, ih, List.utf8Encode_cons, ByteArray.size_append,
      List.utf8Encode_singleton, List.size_toByteArray, String.length_utf8EncodeChar]

/-- A way to read bytes unit by unit. A unit is a character with the number of bytes
    that it takes. -/
structure Decoding where
  /-- The unit at an offset. -/
  unitAt : ByteArray → Nat → Char × Nat
  one_le_width : ∀ bytes i, 1 ≤ (unitAt bytes i).2
  add_width_le_size : ∀ bytes i, i < bytes.size → i + (unitAt bytes i).2 ≤ bytes.size
  unitAt_of_decode? : ∀ bytes i c, bytes.utf8DecodeChar? i = some c →
    unitAt bytes i = (c, c.utf8Size)
  unitAt_append_left : ∀ x y i, Parted x y → i < x.size → unitAt (x ++ y) i = unitAt x i
  unitAt_append_right : ∀ x y j, unitAt (x ++ y) (x.size + j) = unitAt y j

namespace Decoding

/-- The units of the bytes from offset `i` on. -/
def unitsFrom (d : Decoding) (bytes : ByteArray) (i : Nat) : List (Char × Nat) :=
  if i < bytes.size then
    d.unitAt bytes i :: d.unitsFrom bytes (i + (d.unitAt bytes i).2)
  else []
termination_by bytes.size - i
decreasing_by have := d.one_le_width bytes i; omega

/-- The units of the bytes. -/
def units (d : Decoding) (bytes : ByteArray) : List (Char × Nat) :=
  d.unitsFrom bytes 0

variable {d : Decoding}

theorem unitsFrom_of_lt {bytes : ByteArray} (hi : i < bytes.size) :
    d.unitsFrom bytes i = d.unitAt bytes i :: d.unitsFrom bytes (i + (d.unitAt bytes i).2) := by
  rw [unitsFrom, if_pos hi]

theorem unitsFrom_of_le {bytes : ByteArray} (hi : bytes.size ≤ i) : d.unitsFrom bytes i = [] := by
  rw [unitsFrom, if_neg (Nat.not_lt.2 hi)]

/-- Behind the first units come the others. -/
theorem unitsFrom_add_span {bytes : ByteArray} {us vs : List (Char × Nat)}
    (h : d.unitsFrom bytes i = us ++ vs) : d.unitsFrom bytes (i + span us) = vs := by
  induction us generalizing i with
  | nil => exact h
  | cons u us ih =>
    by_cases hi : i < bytes.size
    · rw [unitsFrom_of_lt hi, List.cons_append, List.cons.injEq] at h
      obtain ⟨rfl, h⟩ := h
      rw [span_cons, ← Nat.add_assoc]
      exact ih h
    · rw [unitsFrom_of_le (Nat.le_of_not_lt hi)] at h
      simp at h

theorem unitsFrom_eq_cons {bytes : ByteArray} {u : Char × Nat} {us : List (Char × Nat)}
    (h : d.unitsFrom bytes i = u :: us) : i < bytes.size ∧ d.unitAt bytes i = u := by
  by_cases hi : i < bytes.size
  · rw [unitsFrom_of_lt hi, List.cons.injEq] at h
    exact ⟨hi, h.1⟩
  · rw [unitsFrom_of_le (Nat.le_of_not_lt hi)] at h
    simp at h

theorem span_pos {bytes : ByteArray} {us vs : List (Char × Nat)}
    (h : d.unitsFrom bytes i = us ++ vs) (hus : us ≠ []) : 0 < span us := by
  obtain ⟨u, us, rfl⟩ := List.exists_cons_of_ne_nil hus
  obtain ⟨-, rfl⟩ := unitsFrom_eq_cons h
  have hwidth := d.one_le_width bytes i
  rw [span_cons]
  omega

/-- The units reach to the end of the bytes. -/
theorem span_unitsFrom (d : Decoding) {bytes : ByteArray} (hi : i ≤ bytes.size) :
    i + span (d.unitsFrom bytes i) = bytes.size := by
  induction h : bytes.size - i using Nat.strongRecOn generalizing i with
  | ind m ih =>
    by_cases hlt : i < bytes.size
    · have hwidth := d.one_le_width bytes i
      rw [unitsFrom_of_lt hlt, span_cons, ← Nat.add_assoc]
      exact ih _ (by omega) (d.add_width_le_size bytes i hlt) rfl
    · rw [unitsFrom_of_le (Nat.le_of_not_lt hlt), span_nil]
      omega

/-- Units are as many as their bytes at most. -/
theorem length_unitsFrom_le (d : Decoding) {bytes : ByteArray} (hi : i ≤ bytes.size) :
    (d.unitsFrom bytes i).length ≤ bytes.size - i := by
  induction hm : bytes.size - i using Nat.strongRecOn generalizing i with
  | ind m ih =>
    by_cases hlt : i < bytes.size
    · have hwidth := d.one_le_width bytes i
      have hrest := ih _ (by omega) (d.add_width_le_size bytes i hlt) rfl
      rw [unitsFrom_of_lt hlt, List.length_cons]
      omega
    · rw [unitsFrom_of_le (Nat.le_of_not_lt hlt)]
      exact Nat.zero_le _

/-- The first units lie inside the bytes. -/
theorem add_span_le {bytes : ByteArray} {us vs : List (Char × Nat)}
    (h : d.unitsFrom bytes i = us ++ vs) (hi : i ≤ bytes.size) : i + span us ≤ bytes.size := by
  rw [← d.span_unitsFrom hi, h, span_append, ← Nat.add_assoc]
  exact Nat.le_add_right _ _

theorem unitsFrom_append_right (d : Decoding) (x y : ByteArray) (j : Nat) :
    d.unitsFrom (x ++ y) (x.size + j) = d.unitsFrom y j := by
  induction h : y.size - j using Nat.strongRecOn generalizing j with
  | ind m ih =>
    by_cases hj : j < y.size
    · have hj' : x.size + j < (x ++ y).size := by
        rw [ByteArray.size_append]
        omega
      have hwidth := d.one_le_width y j
      rw [unitsFrom_of_lt hj, unitsFrom_of_lt hj', d.unitAt_append_right, Nat.add_assoc,
        ih _ (by omega) _ rfl]
    · have hj' : (x ++ y).size ≤ x.size + j := by
        rw [ByteArray.size_append]
        omega
      rw [unitsFrom_of_le (Nat.le_of_not_lt hj), unitsFrom_of_le hj']

/-- The units from an offset on are those of the bytes from there on. -/
theorem unitsFrom_eq_units (d : Decoding) (bytes : ByteArray) (i : Nat) :
    d.unitsFrom bytes i = d.units (bytes.extract i bytes.size) := by
  by_cases hi : i ≤ bytes.size
  · have hsize : (bytes.extract 0 i).size = i := by
      rw [ByteArray.size_extract]
      omega
    have hright := d.unitsFrom_append_right (bytes.extract 0 i) (bytes.extract i bytes.size) 0
    rwa [hsize, Nat.add_zero, ← ByteArray.extract_eq_extract_append_extract _ (Nat.zero_le _) hi,
      ByteArray.extract_zero_size] at hright
  · rw [units, unitsFrom_of_le (Nat.le_of_not_le hi), unitsFrom_of_le]
    rw [ByteArray.size_extract]
    omega

theorem unitsFrom_append_left (d : Decoding) (h : Parted x y) (hi : i ≤ x.size) :
    d.unitsFrom (x ++ y) i = d.unitsFrom x i ++ d.units y := by
  induction hm : x.size - i using Nat.strongRecOn generalizing i with
  | ind m ih =>
    by_cases hlt : i < x.size
    · have hi' : i < (x ++ y).size := by
        rw [ByteArray.size_append]
        omega
      have hwidth := d.one_le_width x i
      rw [unitsFrom_of_lt hlt, unitsFrom_of_lt hi', d.unitAt_append_left x y i h hlt,
        ih _ (by omega) (d.add_width_le_size x i hlt) rfl, List.cons_append]
    · obtain rfl : i = x.size := by omega
      have hright := d.unitsFrom_append_right x y 0
      rw [Nat.add_zero] at hright
      rw [hright, unitsFrom_of_le (Nat.le_refl _), List.nil_append, units]

/-- The units of parted bytes are those of the parts. -/
theorem units_append (d : Decoding) (h : Parted x y) : d.units (x ++ y) = d.units x ++ d.units y :=
  d.unitsFrom_append_left h (Nat.zero_le _)

/-- The units of encoded characters are the characters. -/
theorem units_utf8Encode (d : Decoding) (cs : List Char) :
    d.units cs.utf8Encode = cs.map fun c => (c, c.utf8Size) := by
  induction cs with
  | nil => exact unitsFrom_of_le (Nat.zero_le _)
  | cons c cs ih =>
    have hencode : (c :: cs).utf8Encode =
        (String.utf8EncodeChar c).toByteArray ++ cs.utf8Encode := by
      rw [List.utf8Encode, List.flatMap_cons, List.toByteArray_append, ← List.utf8Encode]
    have hunit := d.unitAt_of_decode? (c :: cs).utf8Encode 0 c List.utf8DecodeChar?_utf8Encode_cons
    have hsize : 0 < (c :: cs).utf8Encode.size := by
      have := c.utf8Size_pos
      simp [hencode]
      omega
    rw [units, unitsFrom_of_lt hsize, hunit, List.map_cons, ← ih, hencode]
    have hright := d.unitsFrom_append_right (String.utf8EncodeChar c).toByteArray cs.utf8Encode 0
    simpa [units] using hright

/-- The units of an encoded string are its characters. -/
theorem units_toUTF8 (d : Decoding) (s : String) :
    d.units s.toUTF8 = s.toList.map fun c => (c, c.utf8Size) := by
  rw [String.toUTF8_eq_toByteArray, ← String.utf8Encode_toList, units_utf8Encode]

end Decoding

/-! ## Runes and texts -/

theorem width_runeAt_le_four (bytes : ByteArray) (i : Nat) : (runeAt bytes i).2 ≤ 4 := by
  rw [runeAt]
  split
  · exact Char.utf8Size_le_four _
  · decide

/-- A rune ends inside the input. -/
theorem add_width_runeAt_le_size {bytes : ByteArray} {i : Nat} (h : i < bytes.size) :
    i + (runeAt bytes i).2 ≤ bytes.size := by
  rw [runeAt]
  split
  · next hc => exact ByteArray.le_size_of_utf8DecodeChar?_eq_some hc
  · exact h

theorem add_width_glyphAt_le_size {bytes : ByteArray} {i : Nat} (h : i < bytes.size) :
    i + (glyphAt bytes i).2 ≤ bytes.size := by
  rw [glyphAt]
  split
  · next hc => exact ByteArray.le_size_of_utf8DecodeChar?_eq_some hc
  · exact add_brokenWidth_le_size h

/-- An ASCII rune is a single byte. -/
theorem runeAt_eq_of_ascii {bytes : ByteArray} {i : Nat} (h : (runeAt bytes i).1.val < 0x80) :
    (runeAt bytes i).2 = 1 ∧ ∃ b < 0x80, bytes[i]? = some b := by
  rw [runeAt] at *
  split at h
  · next c hc =>
    have hsize : c.utf8Size = 1 := Char.utf8Size_eq_one_iff.2 (Nat.le_of_lt_succ h)
    have hbyte := decode?_eq_some_iff.1 hc 0 (by omega)
    rw [Nat.add_zero, String.utf8EncodeChar_eq_singleton hsize] at hbyte
    refine ⟨hsize, c.val.toUInt8, ?_, hbyte⟩
    rw [UInt8.lt_iff_toNat_lt, UInt32.toNat_toUInt8]
    exact Nat.lt_of_le_of_lt (Nat.mod_le _ _) h
  · exact absurd h (by decide)

/-- Reading rune by rune. -/
def runes : Decoding where
  unitAt := runeAt
  one_le_width := one_le_width_runeAt
  add_width_le_size _ _ := add_width_runeAt_le_size
  unitAt_of_decode? bytes i c h := by rw [runeAt, h]
  unitAt_append_left x y i h hi := by rw [runeAt, runeAt, decode?_append_left h hi]
  unitAt_append_right x y j := by rw [runeAt, runeAt, decode?_append_right]

/-- Reading as a text. -/
def glyphs : Decoding where
  unitAt := glyphAt
  one_le_width := one_le_width_glyphAt
  add_width_le_size _ _ := add_width_glyphAt_le_size
  unitAt_of_decode? bytes i c h := by rw [glyphAt, h]
  unitAt_append_left x y i h hi := by
    rw [glyphAt, glyphAt, decode?_append_left h hi, brokenWidth_append_left h hi]
  unitAt_append_right x y j := by
    rw [glyphAt, glyphAt, decode?_append_right, brokenWidth_append_right]

/-- The unit of an ASCII rune is a single byte. -/
theorem unitsFrom_of_ascii {bytes : ByteArray} {i : Nat} {u : Char × Nat} {us : List (Char × Nat)}
    (h : runes.unitsFrom bytes i = u :: us) (hu : u.1.val < 0x80) :
    u.2 = 1 ∧ ∃ b < 0x80, bytes[i]? = some b := by
  obtain ⟨-, rfl⟩ := Decoding.unitsFrom_eq_cons h
  exact runeAt_eq_of_ascii hu

/-- ASCII runes are as wide as they are many. -/
theorem span_of_ascii {bytes : ByteArray} {i : Nat} {us vs : List (Char × Nat)}
    (h : runes.unitsFrom bytes i = us ++ vs) (hus : ∀ u ∈ us, u.1.val < 0x80) :
    span us = us.length := by
  induction us generalizing i with
  | nil => rfl
  | cons u us ih =>
    have hwidth := (unitsFrom_of_ascii h (hus u List.mem_cons_self)).1
    have hcons : runes.unitsFrom bytes i = [u] ++ (us ++ vs) := h
    have hrest := Decoding.unitsFrom_add_span hcons
    rw [span_cons, List.length_cons, hwidth, Nat.add_comm,
      ih hrest fun v hv => hus v (List.mem_cons_of_mem _ hv)]

/-- Bytes are parted next to an ASCII rune. -/
theorem parted_extract {bytes : ByteArray} {i : Nat} {us vs : List (Char × Nat)}
    (h : runes.unitsFrom bytes i = us ++ vs) (hi : i ≤ bytes.size)
    (hascii : (∀ u ∈ us.getLast?, u.1.val < 0x80) ∨ ∀ u ∈ vs.head?, u.1.val < 0x80) :
    Parted (bytes.extract i (i + span us)) (bytes.extract (i + span us) bytes.size) := by
  have hend := runes.span_unitsFrom hi
  rw [h, span_append, ← Nat.add_assoc] at hend
  rcases hascii with hascii | hascii
  · refine .inl fun b hb => ?_
    rw [ByteArray.size_extract, Nat.min_eq_left (Nat.le.intro hend), Nat.add_sub_cancel_left] at hb
    rcases List.eq_nil_or_concat us with rfl | ⟨init, u, rfl⟩
    · rw [span_nil, Nat.add_zero, ByteArray.extract_same] at hb
      simp at hb
    · rw [List.concat_eq_append] at h hascii hb
      rw [List.append_assoc] at h
      obtain ⟨hwidth, b', hb', hbyte⟩ :=
        unitsFrom_of_ascii (Decoding.unitsFrom_add_span h) (hascii u (by simp))
      have hspan : span (init ++ [u]) = span init + 1 := by
        rw [span_append, span_cons, span_nil, hwidth]
      rw [hspan, Nat.add_sub_cancel, getElem?_extract_of (.inl (by omega))] at hb
      obtain rfl := Option.some.inj (hbyte.symm.trans hb)
      exact hb'
  · refine .inr fun b hb => ?_
    rw [getElem?_extract, Nat.add_zero] at hb
    cases vs with
    | nil =>
      rw [span_nil, Nat.add_zero] at hend
      rw [hend, getElem?_neg bytes _ (Nat.lt_irrefl _)] at hb
      simp at hb
    | cons v vs =>
      obtain ⟨-, b', hb', hbyte⟩ :=
        unitsFrom_of_ascii (Decoding.unitsFrom_add_span h) (hascii v rfl)
      obtain rfl := Option.some.inj (hbyte.symm.trans hb)
      exact hb'

theorem textFrom_eq (bytes : ByteArray) (i : Nat) :
    textFrom bytes i "" = String.ofList ((glyphs.unitsFrom bytes i).map Prod.fst) := by
  induction h : bytes.size - i using Nat.strongRecOn generalizing i with
  | ind m ih =>
    by_cases hi : i < bytes.size
    · have hwidth := one_le_width_glyphAt bytes i
      rw [textFrom, if_pos hi, textFrom_eq_append, ih _ (by omega) _ rfl,
        Decoding.unitsFrom_of_lt hi, List.map_cons, String.ofList_cons]
      rfl
    · rw [textFrom, if_neg hi, Decoding.unitsFrom_of_le (Nat.le_of_not_lt hi)]
      rfl

/-- A text shows the characters of its units. -/
theorem text_eq (bytes : ByteArray) :
    text bytes = String.ofList ((glyphs.units bytes).map Prod.fst) :=
  textFrom_eq bytes 0

@[simp] theorem text_empty : text ByteArray.empty = "" := by
  rw [text_eq, Decoding.units, Decoding.unitsFrom_of_le (Nat.zero_le _)]
  rfl

/-- The text of parted bytes is that of the parts. -/
theorem text_append (h : Parted x y) : text (x ++ y) = text x ++ text y := by
  rw [text_eq, text_eq, text_eq, glyphs.units_append h, List.map_append, String.ofList_append]

/-- The text of an encoded string is the string. -/
theorem text_toUTF8 (s : String) : text s.toUTF8 = s := by
  rw [text_eq, glyphs.units_toUTF8, List.map_map]
  simp [Function.comp_def]

theorem text_utf8Encode (cs : List Char) : text cs.utf8Encode = String.ofList cs := by
  have htext := text_toUTF8 (String.ofList cs)
  rwa [String.toUTF8_eq_toByteArray, String.toByteArray_ofList] at htext

end StateLexer.Utf8
