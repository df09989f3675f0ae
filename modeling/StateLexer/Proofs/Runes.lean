import StateLexer.Proofs.Backward
import StateLexer.Proofs.Text.Replacement

/-!
# Windows and their runes

A grammar goes over a window rune by rune, with the whole input in sight, and what it emits is
the text of the window alone. If steps back are strict, the window lies between boundaries, so
there are runes that lead from its one end to the other (`Utf8.Delivers`), and the text is what
these runes are, with replacement characters left out next to others (`Utf8.Abridges`): it
never shows a character that has not been read, and never leaves out any other.

* `Reader.Aligned.agrees`: a window between boundaries and its runes;
* `Passage.agree`: all windows of a strict passage, be they emitted or left out;
* `text_agrees`: whatever is done with a stepper, however far a scan goes, and on any strict
  walk.
-/

namespace StateLexer

variable {input : ByteArray} {r : Reader} {cs : List Closing} {ts : List Token} {n : Nat}

/-- The text of the window on the input agrees with the runes that lead from its beginning to
    its end. -/
structure Reader.Agrees (input : ByteArray) (r : Reader) : Prop where
  pending_eq : r.pending = Utf8.text (input.extract r.start r.pos)
  exists_delivers : ∃ read, Utf8.Delivers input r.start read r.pos
  squeeze_eq : ∀ read, Utf8.Delivers input r.start read r.pos →
    Utf8.squeeze r.pending.toList = Utf8.squeeze read
  length_le : ∀ read, Utf8.Delivers input r.start read r.pos →
    r.pending.length ≤ read.length
  eq_of_valid : (input.extract r.start r.pos).IsValidUTF8 →
    ∀ read, Utf8.Delivers input r.start read r.pos → r.pending.toList = read

/-- A window between boundaries agrees with its runes. -/
theorem Reader.Aligned.agrees (h : r.Aligned) (hinput : r.input = input) : r.Agrees input := by
  subst hinput
  have hsize := h.isBoundary_pos.le_size
  refine ⟨rfl, h.isBoundary_start.exists_delivers h.isBoundary_pos h.start_le_pos,
    fun read hread => ?_, fun read hread => ?_, fun hvalid read hread => ?_⟩
  · rw [hread.eq_runes hsize]
    exact (Utf8.abridges_text r.window).squeeze_eq
  · rw [hread.eq_runes hsize]
    exact (Utf8.abridges_text r.window).length_le
  · rw [hread.eq_runes hsize]
    exact Utf8.toList_text_of_valid hvalid

/-- No walk leads off the input. -/
theorem Reader.on_walk (strides : List Reader.Stride) (h : r.On input) :
    (r.walk strides).On input := by
  induction strides generalizing r with
  | nil => exact h
  | cons s strides ih =>
    refine ih ?_
    cases s with
    | next => exact on_next h
    | stepBack => exact on_stepBack h
    | literal text => exact on_acceptLiteral text h
    | renew => exact on_renew h

/-- What holds where windows of the input have been closed, tokens have been made of some of
    them, and the reader has come to its place: each window agrees with its runes, and a token
    shows the text of its window. -/
structure Agree (input : ByteArray) (cs : List Closing) (ts : List Token) (r : Reader) :
    Prop where
  reader : r.Agrees input
  closing : ∀ c ∈ cs, c.reader.Agrees input
  tokens_eq : ts = cs.filterMap Closing.token
  token : ∀ c ∈ cs, ∀ t ∈ c.token, t.pos = c.reader.start ∧ t.text = c.reader.pending

/-- All windows of a strict passage from the beginning of the input agree with their runes. -/
theorem Passage.agree (h : Passage true { input } cs r) (hts : ts = cs.filterMap Closing.token) :
    Agree input cs ts r := by
  obtain ⟨haligned, hclosings⟩ := h.aligned (Reader.aligned_mk input)
  obtain ⟨hon, honclosings⟩ := h.on (Reader.on_mk input)
  refine ⟨haligned.agrees hon.input_eq,
    fun c hc => (hclosings c hc).agrees (honclosings c hc).input_eq, hts, fun c hc t ht => ?_⟩
  obtain ⟨kind, rfl⟩ := h.exists_kind c hc t ht
  exact ⟨rfl, rfl⟩

/-- If steps back are strict, the text of every window agrees with the runes that have been
    read in it: whatever is done with a stepper on the input, however far a scan of the input
    goes, and wherever a walk comes to in the middle of a call. -/
theorem text_agrees (lexer : Lexer n) (settings : Settings) (input : ByteArray) :
    let strict : Settings := { settings with strictBackup := true }
    (∀ channel acts,
      Agree input ((Stepper.new lexer strict input channel).closings acts)
        ((Stepper.new lexer strict input channel).yield acts)
        ((Stepper.new lexer strict input channel).actAll acts).reader) ∧
      (∀ k, Agree input (lexer.scanClosings strict input k)
        (lexer.unbroken strict input k).tokens (lexer.unbroken strict input k).reader) ∧
      ∀ strides, Reader.Strict { input } strides →
        (Reader.walk { input } strides).Agrees input := by
  intro strict
  refine ⟨fun channel acts => ?_, fun k => ?_, fun strides hstrict => ?_⟩
  · obtain ⟨hpassage, hyield⟩ := (Stepper.new lexer strict input channel).passage_actAll acts
    exact hpassage.agree hyield
  · have hcalls := lexer.passes_calls { settings := strict } k (some lexer.start) { input }
    exact hcalls.passage.agree hcalls.tokens_eq
  · have haligned := hstrict.aligned (Reader.aligned_mk input)
    exact haligned.agrees (Reader.on_walk strides (Reader.on_mk input)).input_eq

/-- Three bytes that begin a character which is never completed are three runes, and one
    character of the text, wherever a step has been undone. -/
theorem text_agrees_broken :
    let input : ByteArray := ⟨#[0xF0, 0x9F, 0x98, 0x41]⟩
    let strides : List Reader.Stride := [.next, .next, .stepBack, .next, .next, .next]
    Reader.Strict { input } strides ∧ (Reader.walk { input } strides).Agrees input ∧
      (Reader.walk { input } strides).pending = "\uFFFDA" ∧
      Utf8.Delivers input 0 ['\uFFFD', '\uFFFD', '\uFFFD', 'A'] 4 := by
  intro input strides
  have hstrict : Reader.Strict { input } strides :=
    ⟨nofun, nofun, fun _ => Reader.canBackup_next _, nofun, nofun, nofun, trivial⟩
  obtain ⟨-, -, hwalks⟩ := text_agrees Lexer.standard {} input
  have hagrees := hwalks strides hstrict
  obtain ⟨read, hread⟩ := hagrees.exists_delivers
  have hstart : (Reader.walk { input } strides).start = 0 := by decide +kernel
  have hpos : (Reader.walk { input } strides).pos = 4 := by decide +kernel
  rw [hstart, hpos] at hread
  have hrunes : read = ['\uFFFD', '\uFFFD', '\uFFFD', 'A'] :=
    (hread.eq_runes (Nat.le_refl 4)).trans (by decide +kernel)
  exact ⟨hstrict, hagrees, by decide +kernel, hrunes ▸ hread⟩

end StateLexer
