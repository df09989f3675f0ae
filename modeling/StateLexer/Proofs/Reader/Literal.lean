import StateLexer.Proofs.Reader.Steps

/-!
# Accepting a text

A text is accepted by its bytes, all at once, and not rune by rune. Yet it is accepted exactly
if as many steps as it has characters yield them, and it leads to where these steps do
(`acceptLiteral_agrees`): the bytes are there if the encoded characters are the units ahead
(`Utf8.extract_eq_utf8Encode_iff`), and of the units ahead, the characters alone are seen by
steps (`nexts_eq_iff`).

The one thing that steps cannot tell apart is a replacement character from a malformed byte,
which they show as one. So the text must not hold any, or there must be no malformed bytes.
-/

namespace StateLexer.Reader

open Utf8

variable {r : Reader} {text : String} {cs : List Char}

/-- Steps yield some characters if these are ahead. -/
theorem nexts_eq_iff : (r.nexts cs.length).1 = cs.map some ↔ cs <+: r.ahead := by
  rw [nexts_fst, List.prefix_iff_getElem?, List.ext_getElem_iff]
  simp

/-! ## Characters and units -/

/-- If no malformed byte can be mistaken for one of them, characters are ahead as soon as steps
    show them. -/
theorem encoded_isPrefix_iff
    (h : replacement ∉ cs ∨ (r.input.extract r.pos r.input.size).IsValidUTF8) :
    cs.map (fun c => (c, c.utf8Size)) <+: r.units ↔ cs <+: r.ahead := by
  constructor
  · intro hunits
    have hchars := hunits.map Prod.fst
    rwa [List.map_map, Function.comp_def, List.map_id'] at hchars
  · intro hahead
    have htaken : (r.units.take cs.length).map Prod.fst = cs := by
      rw [List.map_take]
      exact (List.prefix_iff_eq_take.1 hahead).symm
    have hencoded : cs.map (fun c => (c, c.utf8Size)) = r.units.take cs.length := by
      refine (congrArg _ htaken.symm).trans (map_encoded fun u hu => ?_)
      have hmem := List.mem_of_mem_take hu
      rcases h with hnone | hvalid
      · refine width_of_ne_replacement hmem fun heq => hnone ?_
        rw [← heq, ← htaken]
        exact List.mem_map_of_mem hu
      · exact width_of_valid hmem hvalid
    rw [hencoded]
    exact List.take_prefix _ _

/-! ## The bytes of a text -/

theorem acceptLiteral_iff_units :
    (r.acceptLiteral text).1 = true ↔
      text.toList.map (fun c => (c, c.utf8Size)) <+: r.units := by
  have hencode : text.toUTF8 = text.toList.utf8Encode := by
    rw [String.toUTF8_eq_toByteArray, String.utf8Encode_toList]
  rw [units, ← extract_eq_utf8Encode_iff, ← hencode, acceptLiteral]
  split
  · next hdata =>
    refine iff_of_true ?_ (ByteArray.ext hdata)
    split <;> rfl
  · next hdata => exact iff_of_false Bool.false_ne_true fun hext => hdata (congrArg _ hext)

theorem pos_acceptLiteral (h : (r.acceptLiteral text).1 = true) :
    (r.acceptLiteral text).2.pos = r.pos + text.toUTF8.size := by
  rw [acceptLiteral] at h ⊢
  split at h
  · next hdata =>
    rw [if_pos hdata]
    split
    · next hempty => rw [hempty, Nat.add_zero]
    · rfl
  · exact absurd h Bool.false_ne_true

/-- A text that is not accepted moves nothing. -/
theorem acceptLiteral_of_not (h : (r.acceptLiteral text).1 = false) :
    (r.acceptLiteral text).2 = r := by
  rw [acceptLiteral] at h ⊢
  split at h
  · split at h <;> exact absurd h.symm Bool.false_ne_true
  · next hdata => rw [if_neg hdata]

/-! ## Texts and steps -/

/-- A text is accepted exactly if as many steps as it has characters yield them, and leads to
    where these steps do; otherwise the reader stays as it is. -/
theorem acceptLiteral_agrees (r : Reader) (text : String)
    (h : replacement ∉ text.toList ∨ (r.input.extract r.pos r.input.size).IsValidUTF8) :
    ((r.acceptLiteral text).1 = true ↔
      (r.nexts text.length).1 = text.toList.map some) ∧
    ((r.acceptLiteral text).1 = true →
      (r.acceptLiteral text).2.pos = (r.nexts text.length).2.pos) ∧
    ((r.acceptLiteral text).1 = false → (r.acceptLiteral text).2 = r) := by
  refine ⟨?_, fun haccept => ?_, acceptLiteral_of_not⟩
  · rw [acceptLiteral_iff_units, encoded_isPrefix_iff h, ← nexts_eq_iff, String.length_toList]
  · have hunits := List.prefix_iff_eq_take.1 (acceptLiteral_iff_units.1 haccept)
    rw [List.length_map, String.length_toList] at hunits
    rw [pos_acceptLiteral haccept, pos_nexts, ← hunits, span_encoded, String.utf8Encode_toList,
      String.toUTF8_eq_toByteArray]

/-- Among malformed bytes, a text of two characters is accepted, and they are two steps. -/
theorem acceptLiteral_agrees_accent :
    let r : Reader := { input := ⟨#[0xFF, 0x61, 0xC3, 0xA9, 0xFF]⟩, pos := 1 }
    replacement ∉ "aé".toList ∧ (r.acceptLiteral "aé").1 = true ∧
      (r.nexts 2).1 = [some 'a', some 'é'] ∧ (r.acceptLiteral "aé").2.pos = (r.nexts 2).2.pos ∧
      (r.nexts 2).2.pos = 4 := by
  intro r
  have hnone : replacement ∉ "aé".toList := by decide +kernel
  obtain ⟨hiff, hpos, -⟩ := acceptLiteral_agrees r "aé" (.inl hnone)
  have haccept : (r.acceptLiteral "aé").1 = true := hiff.2 (by decide +kernel)
  exact ⟨hnone, haccept, hiff.1 haccept, hpos haccept, by decide +kernel⟩

/-- A step shows a malformed byte as a replacement character, whose encoding is not there. -/
example :
    let r : Reader := { input := ⟨#[0xFF]⟩ }
    (r.nexts 1).1 = [some replacement] ∧ (r.acceptLiteral "\uFFFD").1 = false := by
  decide +kernel

end StateLexer.Reader
