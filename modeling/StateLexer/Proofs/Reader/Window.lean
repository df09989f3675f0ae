import StateLexer.Proofs.Reader.Bytes

/-!
# The text of a window

A window is read rune by rune, and shown as a text. Where its bytes are well-formed, these
are the same characters (`text_extract`). Elsewhere they need not be, since a text shows one
replacement character for several malformed bytes; but either way an ASCII character stands
for one byte of its own, so both hold the same ASCII characters, and a text holds none of a
class that no rune belongs to (`forall_text`).
-/

namespace StateLexer.Utf8

variable {bytes : ByteArray} {i : Nat} {us vs : List (Char × Nat)} {c : Char}

/-! ## Well-formed bytes -/

/-- Where no rune stands for a malformed byte, the text shows the runes. -/
theorem text_extract (h : runes.unitsFrom bytes i = us ++ vs)
    (hus : ∀ u ∈ us, u.1 ≠ replacement) :
    text (bytes.extract i (i + span us)) = String.ofList (us.map Prod.fst) := by
  rw [extract_eq_utf8Encode h hus, text_utf8Encode]

/-! ## Malformed bytes -/

/-- A text shows the same character at an offset as the rune there. -/
theorem glyphAt_fst (bytes : ByteArray) (i : Nat) : (glyphAt bytes i).1 = (runeAt bytes i).1 := by
  rw [glyphAt, runeAt]
  split <;> rfl

/-- An ASCII character of a text is one of its bytes. -/
theorem exists_byte_of_mem_text (hc : c ∈ (text bytes).toList) (hascii : c.val < 0x80) :
    ∃ j : Nat, bytes[j]? = some c.toUInt8 := by
  rw [text_eq, String.toList_ofList] at hc
  obtain ⟨u, hu, rfl⟩ := List.mem_map.1 hc
  obtain ⟨j, hj⟩ := Decoding.exists_unitAt hu
  have hglyph : glyphAt bytes j = u := hj
  refine ⟨j, ?_⟩
  rw [← hglyph, glyphAt_fst] at hascii ⊢
  exact byte_of_runeAt hascii

/-- An ASCII byte among runes is one of them. -/
theorem exists_unit_of_byte {b : UInt8} {j : Nat} (h : runes.unitsFrom bytes i = us ++ vs)
    (hj : j < span us) (hbyte : bytes[i + j]? = some b) (hb : b < 0x80) :
    ∃ u ∈ us, u.1 = Char.ofUInt8 b := by
  induction us generalizing i j with
  | nil => exact absurd hj (Nat.not_lt_zero j)
  | cons u us ih =>
    obtain ⟨hi, hunit⟩ := Decoding.unitsFrom_eq_cons h
    have hrune : runeAt bytes i = u := hunit
    rcases Nat.lt_or_ge j u.2 with hlt | hge
    · -- The byte is in the first rune, which is no longer than the byte.
      refine ⟨u, List.mem_cons_self, ?_⟩
      rcases Nat.eq_zero_or_pos j with rfl | hpos
      · rw [Nat.add_zero] at hbyte
        rw [← hrune, runeAt_of_byte hbyte hb]
      · -- A rune of several bytes has no ASCII byte.
        rw [runeAt] at hrune
        split at hrune
        · next c hc =>
          subst hrune
          rw [decode?_eq_some_iff.1 hc j hlt] at hbyte
          have hle := le_of_mem_utf8EncodeChar (by simp at hlt; omega) (List.mem_of_getElem? hbyte)
          exact absurd hb (UInt8.not_lt.2 hle)
        · subst hrune
          simp at hlt
          omega
    · have hcut : runes.unitsFrom bytes i = [u] ++ (us ++ vs) := h
      have hrest := Decoding.unitsFrom_add_span hcut
      rw [span_cons, span_nil, Nat.add_zero] at hrest
      rw [span_cons] at hj
      obtain ⟨v, hv, heq⟩ := ih (j := j - u.2) hrest (by omega) (by
        rw [← hbyte]; congr 1; omega)
      exact ⟨v, List.mem_cons_of_mem _ hv, heq⟩

/-- If no rune belongs to a class of ASCII characters, the text shows none of them. -/
theorem forall_text {p : Char → Bool} (hp : AsciiOnly p) (h : runes.unitsFrom bytes i = us ++ vs)
    (hus : ∀ u ∈ us, p u.1 = false) :
    ∀ c ∈ (text (bytes.extract i (i + span us))).toList, p c = false := by
  intro c hc
  rw [← Bool.not_eq_true]
  intro hpc
  have hascii := hp c hpc
  obtain ⟨j, hj⟩ := exists_byte_of_mem_text hc hascii
  obtain ⟨hlt, -⟩ := getElem?_eq_some_iff.1 hj
  rw [ByteArray.size_extract] at hlt
  rw [getElem?_extract_of (.inl (by omega))] at hj
  obtain ⟨u, hu, heq⟩ := exists_unit_of_byte h (by omega) hj (lt_of_toUInt8 hascii)
  rw [ofUInt8_toUInt8 hascii] at heq
  rw [← heq, hus u hu] at hpc
  exact Bool.false_ne_true hpc

/-- The text of any bytes shows something. -/
theorem text_ne_nil (h : bytes.size ≠ 0) : (text bytes).toList ≠ [] := by
  rw [text_eq, String.toList_ofList, Decoding.units,
    Decoding.unitsFrom_of_lt (Nat.pos_of_ne_zero h)]
  simp

end StateLexer.Utf8
