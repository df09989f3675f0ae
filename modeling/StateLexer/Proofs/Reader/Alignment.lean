import StateLexer.Proofs.Run.Passage
import StateLexer.Proofs.Text.Boundary

/-!
# Windows between boundaries

If steps back are strict, a reader never stands in the middle of a rune: its window lies
between two boundaries of the input (`Reader.Aligned`), on whatever passage
(`Passage.aligned`). Otherwise the width of some rune that has been read before can lead
it anywhere in its window.

A window between boundaries of an encoded string is an encoded string itself, so the text
of a token spells it (`Aligned.toUTF8_text`) and ends where the window does
(`Aligned.stop_eq`).
-/

namespace StateLexer

/-- The window lies between boundaries, and so does what is left of it when the last rune
    is given back, if it can be. -/
structure Reader.Aligned (r : Reader) : Prop where
  start_le_pos : r.start ≤ r.pos
  isBoundary_start : Utf8.IsBoundary r.input r.start
  isBoundary_pos : Utf8.IsBoundary r.input r.pos
  back : r.canBackup = true →
    r.start ≤ r.pos - r.width ∧ Utf8.IsBoundary r.input (r.pos - r.width)

namespace Reader

variable {r r' : Reader}

theorem aligned_mk (input : ByteArray) : Aligned { input } :=
  ⟨Nat.le_refl 0, .zero, .zero, fun h => absurd h Bool.false_ne_true⟩

/-! ## Moves -/

theorem aligned_next (h : r.Aligned) : r.next.2.Aligned := by
  rw [next]
  split
  · next hlt =>
    refine ⟨Nat.le_trans h.start_le_pos (Nat.le_add_right _ _), h.isBoundary_start,
      h.isBoundary_pos.add_width hlt, fun _ => ?_⟩
    simp only [Nat.add_sub_cancel]
    exact ⟨h.start_le_pos, h.isBoundary_pos⟩
  · exact ⟨h.start_le_pos, h.isBoundary_start, h.isBoundary_pos,
      fun _ => ⟨h.start_le_pos, h.isBoundary_pos⟩⟩

/-- The window does not hold a step back that undoes a step forward. -/
theorem aligned_stepBack (h : r.Aligned) (hbackup : r.canBackup = true) : r.stepBack.Aligned := by
  obtain ⟨hstart, hboundary⟩ := h.back hbackup
  have hpos : r.stepBack.pos = r.pos - r.width := Nat.max_eq_right hstart
  refine ⟨Nat.le_max_left _ _, h.isBoundary_start, ?_, fun h => absurd h Bool.false_ne_true⟩
  rw [hpos]
  exact hboundary

theorem aligned_renew (h : r.Aligned) : r.renew.Aligned :=
  ⟨Nat.le_refl _, h.isBoundary_pos, h.isBoundary_pos, fun h => absurd h Bool.false_ne_true⟩

theorem aligned_acceptLiteral (text : String) (h : r.Aligned) :
    (r.acceptLiteral text).2.Aligned := by
  simp only [acceptLiteral]
  split
  · next hext =>
    split
    · exact h
    · refine ⟨Nat.le_trans h.start_le_pos (Nat.le_add_right _ _), h.isBoundary_start, ?_,
        fun h => absurd h Bool.false_ne_true⟩
      exact h.isBoundary_pos.add_text (ByteArray.ext hext)
  · exact h

theorem Moves.aligned (h : r.Moves true r') (hr : r.Aligned) : r'.Aligned := by
  induction h with
  | refl => exact hr
  | next => exact aligned_next hr
  | stepBack hbackup => exact aligned_stepBack hr (hbackup rfl)
  | literal text => exact aligned_acceptLiteral text hr
  | trans h h' ih ih' => exact ih' (ih hr)

/-! ## Texts -/

variable {source : String}

/-- The text of a window between boundaries spells it. -/
theorem Aligned.toUTF8_text (h : r.Aligned) (hinput : r.input = source.toUTF8) (kind : Kind) :
    (r.token kind).text.toUTF8 = r.window := by
  obtain ⟨hle, hstart, hpos, -⟩ := h
  rw [hinput] at hstart hpos
  obtain ⟨s, hs⟩ := hstart.exists_toUTF8 hpos hle
  have hwindow : r.window = s.toUTF8 := by rw [window, hinput, hs]
  rw [token, pending, hwindow, Utf8.text_toUTF8]

theorem Aligned.stop_eq (h : r.Aligned) (hinput : r.input = source.toUTF8) (kind : Kind) :
    (r.token kind).stop = r.pos := by
  have htext := congrArg ByteArray.size (h.toUTF8_text hinput kind)
  have hle := h.isBoundary_pos.le_size
  have hstart := h.start_le_pos
  rw [window, ByteArray.size_extract, Nat.min_eq_left hle, String.toUTF8_eq_toByteArray,
    String.size_toByteArray] at htext
  rw [Token.stop, htext]
  simp only [token]
  omega

end Reader

/-- On a strict passage, all windows lie between boundaries. -/
theorem Passage.aligned {r r' : Reader} {cs : List Closing} (h : Passage true r cs r')
    (hr : r.Aligned) : r'.Aligned ∧ ∀ c ∈ cs, c.reader.Aligned :=
  h.keeps (fun _ _ hmoves => hmoves.aligned) (fun _ => Reader.aligned_renew) hr

end StateLexer
