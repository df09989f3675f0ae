import StateLexer.Proofs.Run.Passage
import StateLexer.Proofs.Text.Decoding

/-!
# Readers stay on their input

A reader is *on* an input if it reads that input, its window begins no later
than it ends, and it ends no later than the input (`Reader.On`). Nothing that a
grammar can do leads off the input:

* `on_next`, `on_stepBack`, `on_acceptLiteral`, `on_renew`: the moves that all others
  are made of;
* `Moves.on`, `Passage.on`: whatever is made of them;
* `Lexer.on_call`: the call of a state, of whatever grammar.

A run is on an input if its reader is so at the end and wherever it offers a
token, which is then the window (`Run.On`). The width of the last rune is bounded
too, so that there are only finitely many places on an input.
-/

namespace StateLexer

/-- The reader is at a place on the input. -/
structure Reader.On (input : ByteArray) (r : Reader) : Prop where
  input_eq : r.input = input
  start_le_pos : r.start ≤ r.pos
  pos_le_size : r.pos ≤ input.size
  width_le_four : r.width ≤ 4

namespace Reader

variable {input : ByteArray} {r : Reader}

/-- A reader that has read nothing. -/
theorem on_mk (input : ByteArray) : On input { input } :=
  ⟨rfl, Nat.le_refl 0, Nat.zero_le _, Nat.zero_le 4⟩

/-- A reader on the input is where its place says. -/
theorem On.mk_toPlace (h : r.On input) : ({ toPlace := r.toPlace, input } : Reader) = r := by
  obtain ⟨place, bytes⟩ := r
  obtain rfl : bytes = input := h.input_eq
  rfl

/-! ## Moves -/

theorem on_next (h : r.On input) : r.next.2.On input := by
  obtain ⟨rfl, hstart, hpos, -⟩ := h
  rw [next]
  split
  · next hlt =>
    refine ⟨rfl, ?_, Utf8.add_width_runeAt_le_size hlt, Utf8.width_runeAt_le_four _ _⟩
    exact Nat.le_trans hstart (Nat.le_add_right _ _)
  · exact ⟨rfl, hstart, hpos, Nat.zero_le 4⟩

theorem on_stepBack (h : r.On input) : r.stepBack.On input := by
  obtain ⟨rfl, hstart, hpos, hwidth⟩ := h
  refine ⟨rfl, Nat.le_max_left _ _, ?_, hwidth⟩
  exact Nat.max_le.2 ⟨Nat.le_trans hstart hpos, Nat.le_trans (Nat.sub_le _ _) hpos⟩

theorem on_renew (h : r.On input) : r.renew.On input :=
  ⟨h.input_eq, Nat.le_refl _, h.pos_le_size, h.width_le_four⟩

theorem on_acceptLiteral (text : String) (h : r.On input) :
    (r.acceptLiteral text).2.On input := by
  obtain ⟨rfl, hstart, hpos, hwidth⟩ := h
  simp only [acceptLiteral]
  split
  · next hext =>
    split
    · exact ⟨rfl, hstart, hpos, hwidth⟩
    · refine ⟨rfl, Nat.le_trans hstart (Nat.le_add_right _ _), ?_, hwidth⟩
      -- The bytes of the text are all there, so the input holds as many.
      have hsize := congrArg Array.size hext
      simp only [ByteArray.size_data, ByteArray.size_extract] at hsize
      change r.pos + text.toUTF8.size ≤ r.input.size
      omega
  · exact ⟨rfl, hstart, hpos, hwidth⟩

theorem Moves.on {strict : Bool} {r' : Reader} (h : r.Moves strict r') (hr : r.On input) :
    r'.On input := by
  induction h with
  | refl => exact hr
  | next => exact on_next hr
  | stepBack => exact on_stepBack hr
  | literal text => exact on_acceptLiteral text hr
  | trans h h' ih ih' => exact ih' (ih hr)

end Reader

/-- On a passage the reader stays on the input, and so it does where it closes a window. -/
theorem Passage.on {strict : Bool} {input : ByteArray} {r r' : Reader} {cs : List Closing}
    (h : Passage strict r cs r') (hr : r.On input) :
    r'.On input ∧ ∀ c ∈ cs, c.reader.On input :=
  h.keeps (fun _ _ hmoves => hmoves.on) (fun _ => Reader.on_renew) hr

/-! ## Runs -/

/-- The reader is on the input at the end of the run and at every offer, and
    what is offered is its window. -/
structure Run.On {α : Type} (input : ByteArray) (run : Run α) : Prop where
  on_reader : run.reader.On input
  on_offer : ∀ r t, Event.offer r t ∈ run.events → r.On input ∧ ∃ kind, t = r.token kind

namespace Run

variable {α : Type} {input : ByteArray} {r : Reader}

/-- A run that passes stays on the input. -/
theorem Passes.on {strict : Bool} {cs : List Closing} {run : Run α}
    (h : run.Passes strict r cs) (hr : r.On input) : run.On input := by
  obtain ⟨hreader, hclosings⟩ := h.passage.on hr
  refine ⟨hreader, fun r' t hoffer => ?_⟩
  have hoffered : (⟨r', some t⟩ : Closing) ∈ run.offers :=
    List.mem_filterMap.2 ⟨_, hoffer, rfl⟩
  rw [h.offers_eq] at hoffered
  have hclosing := (List.mem_filter.1 hoffered).1
  exact ⟨hclosings _ hclosing, h.passage.exists_kind _ hclosing t rfl⟩

end Run

/-- A state call stays on the input. -/
theorem Lexer.on_call {n : Nat} {input : ByteArray} {r : Reader} (lexer : Lexer n) (env : Env)
    (q : State n) (h : r.On input) : (lexer.call env q r).On input :=
  (lexer.passes_call env q r).on h

end StateLexer
