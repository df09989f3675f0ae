import StateLexer.Proofs.Reader.Ahead
import StateLexer.Proofs.Text.Lead

/-!
# One step after the other

Steps forward go over the runes ahead, one after the other, and stay at the end of the input
once they have come to it (`Reader.nexts`). So what they yield are the characters ahead, and
then none (`nexts_fst`), and the place where they come to is behind as many units
(`pos_nexts`).

What these characters are is told by encodings (`Utf8.IsRune`). `steps_read_runes` puts both
together: steps through an encoded string yield what it is made of, and those through any bytes
come to their end.
-/

namespace StateLexer

open Utf8

namespace Reader

variable {r : Reader} {k : Nat}

/-- Reads `k` runes, one after the other. -/
def nexts : (k : Nat) → Reader → List Rune × Reader
  | 0, r => ([], r)
  | k + 1, r => (r.next.1 :: (nexts k r.next.2).1, (nexts k r.next.2).2)

/-- Steps yield the characters ahead, and then none. -/
theorem nexts_fst (k : Nat) (r : Reader) : (r.nexts k).1 = (List.range k).map (r.ahead[·]?) := by
  induction k generalizing r with
  | zero => rfl
  | succ k ih =>
    rw [nexts, ih, List.range_succ_eq_map, List.map_cons, List.map_map, ahead, ahead]
    cases hunits : r.units with
    | nil =>
      obtain ⟨hnone, hrest, -⟩ := next_of_units_nil hunits
      rw [hnone, hrest]
      rfl
    | cons u us =>
      obtain ⟨hsome, hrest, -⟩ := next_of_units_cons hunits
      rw [hsome, hrest]
      rfl

/-- Steps go over one unit each, as long as there are any. -/
theorem pos_nexts (k : Nat) (r : Reader) : (r.nexts k).2.pos = r.pos + span (r.units.take k) := by
  induction k generalizing r with
  | zero => rfl
  | succ k ih =>
    rw [nexts, ih]
    cases hunits : r.units with
    | nil =>
      obtain ⟨-, hrest, hpos⟩ := next_of_units_nil hunits
      rw [hrest, hpos, List.take_nil, List.take_nil]
    | cons u us =>
      obtain ⟨-, hrest, hpos⟩ := next_of_units_cons hunits
      rw [hrest, hpos, List.take_succ_cons, span_cons, Nat.add_assoc]

/-- Steps come to the end exactly when there are no units left. -/
theorem pos_nexts_eq_size_iff (h : r.pos ≤ r.input.size) :
    (r.nexts k).2.pos = r.input.size ↔ r.units.length ≤ k := by
  have hend := runes.span_unitsFrom h
  have hsplit : r.units = r.units.take k ++ r.units.drop k := (List.take_append_drop k _).symm
  have hunits : runes.unitsFrom r.input r.pos = r.units := rfl
  rw [hunits, hsplit, span_append, ← Nat.add_assoc, ← pos_nexts] at hend
  rw [← List.drop_eq_nil_iff, ← hend]
  constructor
  · intro heq
    by_contra hne
    have hrest := Decoding.unitsFrom_add_span hsplit
    rw [← List.append_nil (r.units.drop k)] at hrest
    have hpos := Decoding.span_pos hrest hne
    omega
  · intro hnil
    rw [hnil, span_nil, Nat.add_zero]

theorem pos_nexts_le_size (h : r.pos ≤ r.input.size) : (r.nexts k).2.pos ≤ r.input.size := by
  rw [pos_nexts]
  exact Decoding.add_span_le (List.take_append_drop k r.units).symm h

end Reader

open Reader

/-- A rune is the character that is encoded at its offset, or a single byte where there is none,
    and its lead is enough to tell. Whatever a reader has done before, steps from the beginning
    of an encoded string yield its characters, and then none for ever; and those from the
    beginning of any bytes come exactly to their end, each step being worth a byte at least. -/
theorem steps_read_runes (bytes : ByteArray) :
    (∀ i (hi : i < bytes.size), IsRune bytes i (runeAt bytes i) ∧
      runeByLead bytes i hi = ((runeAt bytes i).1.toString, (runeAt bytes i).2)) ∧
    (∀ (s : String) (place : Place) k,
      (nexts k { toPlace := { place with pos := 0 }, input := s.toUTF8 }).1 =
        (List.range k).map (s.toList[·]?)) ∧
    ∀ place : Place, ∃ last ≤ bytes.size, ∀ k,
      (nexts k { toPlace := { place with pos := 0 }, input := bytes }).2.pos ≤ bytes.size ∧
      ((nexts k { toPlace := { place with pos := 0 }, input := bytes }).2.pos = bytes.size ↔
        last ≤ k) := by
  refine ⟨fun i hi => ⟨isRune_runeAt hi, runeByLead_eq hi⟩, fun s place k => ?_, fun place => ?_⟩
  · have hahead : ({ toPlace := { place with pos := 0 }, input := s.toUTF8 } : Reader).ahead =
        s.toList := ahead_toUTF8 s
    rw [nexts_fst, hahead]
  · refine ⟨(runes.units bytes).length, runes.length_unitsFrom_le (Nat.zero_le _), fun k => ?_⟩
    exact ⟨pos_nexts_le_size (Nat.zero_le _), pos_nexts_eq_size_iff (Nat.zero_le _)⟩

/-- A character of three bytes is a rune of its own, and each byte of a surrogate is one, since no
    character is encoded there, although its lead asks for three bytes. -/
theorem steps_read_runes_surrogate :
    let bytes : ByteArray := ⟨#[0xE2, 0x82, 0xAC, 0xED, 0xA0, 0x80]⟩
    EncodedAt bytes 0 '€' ∧ runeAt bytes 0 = ('€', 3) ∧
      leadWidth 0xED = some 3 ∧ (∀ c, ¬EncodedAt bytes 3 c) ∧ runeAt bytes 3 = (replacement, 1) ∧
      runeByLead bytes 3 (by decide) = ("\uFFFD", 1) := by
  intro bytes
  have hencoded : EncodedAt bytes 0 '€' := by decide +kernel
  have hnone (c : Char) : ¬EncodedAt bytes 3 c := fun hc => by
    rw [EncodedAt, ← decode?_eq_some_iff_isPrefix] at hc
    have hdecode : bytes.utf8DecodeChar? 3 = none := by decide +kernel
    rw [hdecode] at hc
    simp at hc
  obtain ⟨hrunes, -, -⟩ := steps_read_runes bytes
  obtain ⟨hrune, hlead⟩ := hrunes 3 (by decide)
  have hbroken := hrune.broken hnone
  rw [hbroken] at hlead
  exact ⟨hencoded, (hrunes 0 (by decide)).1.encoded '€' hencoded, by decide, hnone, hbroken, hlead⟩

end StateLexer
