import StateLexer.Proofs.Reader.Alignment
import StateLexer.Proofs.Reader.Bounds
import StateLexer.Proofs.Stepper

/-!
# Windows in order

Whatever a grammar does, its windows come in the order of the input: each begins where the
one before it ends, and none is closed twice. So between two tokens that follow each other
there is nothing but what has been left out (`Windows.between`), and the tokens never
overlap or go back, also where steps back are not strict and lead anywhere in a window.

Whether strict or not, this holds of every passage (`Passage.abut`), and so

* of a stepper, whatever is done with it: steps and state calls of a grammar, which may
  fail, and an end of its channel at any time (`Stepper.passage_actAll`);
* of a scan, as far as one looks (`Lexer.passes_calls`).

`windows_in_order` says so of both.
-/

namespace StateLexer

variable {strict : Bool} {input : ByteArray} {r r' : Reader} {cs cs' : List Closing}
  {ts : List Token} {a b c n : Nat}

/-! ## One behind the other -/

/-- The windows lie one behind the other, from the one offset to the other. -/
def Abut : Nat → List Closing → Nat → Prop
  | a, [], b => a = b
  | a, c :: cs, b => c.reader.start = a ∧ Abut c.reader.pos cs b

theorem Abut.append (h : Abut a cs b) (h' : Abut b cs' c) : Abut a (cs ++ cs') c := by
  induction cs generalizing a with
  | nil =>
    obtain rfl : a = b := h
    exact h'
  | cons d cs ih => exact ⟨h.1, ih h.2⟩

theorem Abut.exists_of_append (h : Abut a (cs ++ cs') c) : ∃ b, Abut a cs b ∧ Abut b cs' c := by
  induction cs generalizing a with
  | nil => exact ⟨a, rfl, h⟩
  | cons d cs ih =>
    obtain ⟨b, hcs, hcs'⟩ := ih h.2
    exact ⟨b, ⟨h.1, hcs⟩, hcs'⟩

/-- The windows of a passage lie one behind the other. -/
theorem Passage.abut (h : Passage strict r cs r') : Abut r.start cs r'.start := by
  induction h with
  | moves h => exact h.start_eq.symm
  | close r => exact ⟨rfl, rfl⟩
  | trans h h' ih ih' => exact ih.append ih'

/-- The offsets of the bytes in the window. -/
def Closing.offsets (c : Closing) : List Nat :=
  List.range' c.reader.start (c.reader.pos - c.reader.start)

/-- Windows that lie one behind the other hold every byte between their ends once. -/
theorem Abut.offsets_eq (h : Abut a cs b) (hcs : ∀ c ∈ cs, c.reader.start ≤ c.reader.pos) :
    a ≤ b ∧ cs.flatMap Closing.offsets = List.range' a (b - a) := by
  induction cs generalizing a with
  | nil =>
    obtain rfl : a = b := h
    exact ⟨Nat.le_refl a, by simp⟩
  | cons c cs ih =>
    obtain ⟨rfl, h⟩ := h
    have hc := hcs c List.mem_cons_self
    obtain ⟨hle, hoffsets⟩ := ih h fun d hd => hcs d (List.mem_cons_of_mem _ hd)
    have hsplit : b - c.reader.start = (c.reader.pos - c.reader.start) + (b - c.reader.pos) := by
      omega
    have hmid : c.reader.start + (c.reader.pos - c.reader.start) = c.reader.pos := by omega
    refine ⟨Nat.le_trans hc hle, ?_⟩
    rw [List.flatMap_cons, hoffsets, Closing.offsets, hsplit, ← List.range'_append_1, hmid]

/-- No window begins in front of the one before it. -/
theorem Passage.start_le (h : Passage strict r cs r') (hr : r.On input) : r.start ≤ r'.start :=
  (h.abut.offsets_eq fun c hc => ((h.on hr).2 c hc).start_le_pos).1

/-! ## The windows of a run -/

/-- What holds where windows of the input have been closed, tokens have been made of some
    of them, and the reader has come to its place. -/
structure Windows (strict : Bool) (input : ByteArray) (cs : List Closing) (ts : List Token)
    (r : Reader) : Prop where
  on_reader : r.On input
  on_closing : ∀ c ∈ cs, c.reader.On input
  tokens_eq : ts = cs.filterMap Closing.token
  token : ∀ c ∈ cs, ∀ t ∈ c.token, t.pos = c.reader.start ∧
    t.text = Utf8.text (input.extract c.reader.start c.reader.pos)
  /-- Every byte in front of the window of the reader is in one of the closed windows. -/
  covered : cs.flatMap Closing.offsets = List.range' 0 r.start
  /-- The bytes between two windows are those of the windows between them: if the two
      are the windows of a token and the next, these have been left out. -/
  between : ∀ before c skipped c' after, cs = before ++ c :: (skipped ++ c' :: after) →
    c.reader.pos ≤ c'.reader.start ∧
      skipped.flatMap Closing.offsets =
        List.range' c.reader.pos (c'.reader.start - c.reader.pos) ∧
      (skipped = [] → c'.reader.start = c.reader.pos)
  /-- A token spells its window, where steps back are strict and the input is encoded. -/
  spelled : strict = true → ∀ source : String, input = source.toUTF8 →
    ∀ c ∈ cs, ∀ t ∈ c.token, t.stop = c.reader.pos ∧
      t.text.toUTF8 = input.extract c.reader.start c.reader.pos

/-- All this holds of a passage from the beginning of the input. -/
theorem Passage.windows (h : Passage strict { input } cs r)
    (hts : ts = cs.filterMap Closing.token) : Windows strict input cs ts r := by
  obtain ⟨hreader, hclosings⟩ := h.on (Reader.on_mk input)
  refine ⟨hreader, hclosings, hts, ?token, ?covered, ?between, ?spelled⟩
  case token =>
    intro c hc t ht
    obtain ⟨kind, rfl⟩ := h.exists_kind c hc t ht
    refine ⟨rfl, ?_⟩
    rw [← (hclosings c hc).input_eq]
    rfl
  case covered => exact (h.abut.offsets_eq fun c hc => (hclosings c hc).start_le_pos).2
  case between =>
    intro before c skipped c' after hcs
    subst hcs
    obtain ⟨a, -, -, habut⟩ := h.abut.exists_of_append
    obtain ⟨b, hskipped, rfl, -⟩ := habut.exists_of_append
    obtain ⟨hle, hoffsets⟩ := hskipped.offsets_eq fun d hd =>
      (hclosings d (by simp [hd])).start_le_pos
    refine ⟨hle, hoffsets, fun hnone => ?_⟩
    subst hnone
    exact hskipped.symm
  case spelled =>
    intro hstrict source hinput c hc t ht
    subst hstrict
    obtain ⟨kind, rfl⟩ := h.exists_kind c hc t ht
    have hsource := (hclosings c hc).input_eq.trans hinput
    have haligned := (h.aligned (Reader.aligned_mk input)).2 c hc
    refine ⟨haligned.stop_eq hsource kind, ?_⟩
    rw [haligned.toUTF8_text hsource kind, Reader.window, (hclosings c hc).input_eq]

/-! ## All of them -/

/-- Whatever is done with a stepper on the input, and however far a scan of the input
    goes, the windows come in the order of the input; and from any place on the input,
    the steps of a script do not lead off it. -/
theorem windows_in_order (lexer : Lexer n) (settings : Settings) (input : ByteArray) :
    (∀ channel acts,
      Windows settings.strictBackup input
        ((Stepper.new lexer settings input channel).closings acts)
        ((Stepper.new lexer settings input channel).yield acts)
        ((Stepper.new lexer settings input channel).actAll acts).reader) ∧
      (∀ k, Windows settings.strictBackup input (lexer.scanClosings settings input k)
        (lexer.unbroken settings input k).tokens (lexer.unbroken settings input k).reader) ∧
      ∀ env steps value r, r.On input → (Step.runAll env steps value r).reader.On input := by
  refine ⟨fun channel acts => ?_, fun k => ?_, fun env steps value r hr => ?_⟩
  · obtain ⟨hpassage, hyield⟩ := (Stepper.new lexer settings input channel).passage_actAll acts
    exact hpassage.windows hyield
  · have hcalls := lexer.passes_calls { settings } k (some lexer.start) { input }
    exact hcalls.passage.windows hcalls.tokens_eq
  · exact ((Step.passes_runAll env steps value r).on hr).on_reader

/-- Two letters are emitted, and what lies between them is skipped in two windows. -/
theorem windows_in_order_letters :
    let s : Stepper 0 := .new .standard {} "aβ c".toUTF8 {}
    let steps : List Step :=
      [.next, .emit .hostname, .next, .skip, .next, .skip, .next, .emit .hostname]
    let acts : List (Stepper.Act 0) := steps.map fun step => .move (.step step)
    s.yield acts = [⟨.hostname, 0, "a"⟩, ⟨.hostname, 4, "c"⟩] ∧
      ((s.closings acts).map fun c => (c.reader.start, c.reader.pos, c.token.isSome)) =
        [(0, 1, true), (1, 3, false), (3, 4, false), (4, 5, true)] ∧
      Windows true "aβ c".toUTF8 (s.closings acts) (s.yield acts) (s.actAll acts).reader ∧
      (∀ c ∈ s.closings acts, ∀ t ∈ c.token, t.stop = c.reader.pos) ∧
      (Step.runAll { settings := {} } steps .nothing s.reader).reader.On "aβ c".toUTF8 := by
  intro s steps acts
  obtain ⟨hstepper, -, hscript⟩ := windows_in_order .standard {} "aβ c".toUTF8
  have hwindows := hstepper {} acts
  refine ⟨by decide +kernel, by decide +kernel, hwindows, fun c hc t ht => ?_, ?_⟩
  · exact (hwindows.spelled rfl "aβ c" rfl c hc t ht).1
  · exact hscript _ steps _ s.reader (Reader.on_mk _)

end StateLexer
