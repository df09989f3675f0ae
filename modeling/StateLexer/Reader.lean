import StateLexer.Predicate
import StateLexer.Text.Utf8
import StateLexer.Token

/-!
# Readers

A reader goes through the bytes of its input rune by rune. Behind it lies the
*window*: what has been read since the last token, and will be the text of the
next one. A step forward can be undone once (`stepBack`), by the width of the
rune that was read; a look ahead is a step forward that is undone.

* `input_next`, `start_next`, `input_stepBack`, `start_stepBack`: a step in
  either direction changes neither the input nor the beginning of the window;
* `stepBack_next_pos`: a look ahead leaves the position as it is;
* `remaining_next_lt`: a step that yields a character brings the end nearer;
* `remaining_stepBack_next_le`: a step that is undone does not lose ground.
-/

namespace StateLexer

/-- Where a reader is. -/
structure Place where
  /-- The offset of the next rune. -/
  pos : Nat := 0
  /-- The offset where the window begins. -/
  start : Nat := 0
  /-- The width of the last rune that was read, zero for the end of the input. -/
  width : Nat := 0
  /-- The last move was a step forward. -/
  canBackup : Bool := false
  deriving DecidableEq

/-- A reader: an input, and a place in it. -/
structure Reader extends Place where
  /-- The bytes that are read. -/
  input : ByteArray

namespace Reader

/-- The number of bytes that are still to be read. -/
def remaining (r : Reader) : Nat :=
  r.input.size - r.pos

/-! ## The window -/

/-- The bytes of the window. -/
def window (r : Reader) : ByteArray :=
  r.input.extract r.start r.pos

/-- The text of the window. -/
def pending (r : Reader) : String :=
  Utf8.text r.window

/-- The window as a token. -/
def token (r : Reader) (kind : Kind) : Token :=
  { kind, pos := r.start, text := r.pending }

/-- Begins a new window, which is empty. -/
def renew (r : Reader) : Reader :=
  { r with start := r.pos, canBackup := false }

/-! ## Steps -/

/-- Reads a rune. -/
def next (r : Reader) : Rune × Reader :=
  if r.pos < r.input.size then
    let rune := Utf8.runeAt r.input r.pos
    (some rune.1, { r with pos := r.pos + rune.2, width := rune.2, canBackup := true })
  else (none, { r with width := 0, canBackup := true })

/-- Goes back by the width of the last rune, but not out of the window. -/
def stepBack (r : Reader) : Reader :=
  { r with pos := max r.start (r.pos - r.width), canBackup := false }

/-- From offset `i`, the first byte back that is no continuation, at most
    `steps` bytes away. -/
def leadBefore (bytes : ByteArray) : (steps i : Nat) → Nat
  | 0, i => i
  | steps + 1, i =>
    if 0 < i ∧ (bytes[i]?.any Utf8.isContinuation) then leadBefore bytes steps (i - 1) else i

/-- The rune that ends at the position; at the beginning of the input, none. -/
def prevRune (r : Reader) : Rune :=
  if r.pos = 0 then none
  else
    let i := leadBefore r.input 3 (r.pos - 1)
    let rune := Utf8.runeAt r.input i
    some (if i + rune.2 = r.pos then rune.1 else Utf8.replacement)

/-! ## What a step leaves alone -/

@[simp] theorem input_next (r : Reader) : r.next.2.input = r.input := by
  unfold next
  split <;> rfl

@[simp] theorem start_next (r : Reader) : r.next.2.start = r.start := by
  unfold next
  split <;> rfl

@[simp] theorem canBackup_next (r : Reader) : r.next.2.canBackup = true := by
  unfold next
  split <;> rfl

@[simp] theorem input_stepBack (r : Reader) : r.stepBack.input = r.input := rfl

@[simp] theorem start_stepBack (r : Reader) : r.stepBack.start = r.start := rfl

/-- A step leads forward by the width of its rune. -/
theorem pos_next (r : Reader) : r.next.2.pos = r.pos + r.next.2.width := by
  unfold next
  split <;> simp

/-- A step forward and back again ends where it began, inside the window. -/
theorem stepBack_next_pos {r : Reader} (h : r.start ≤ r.pos) : r.next.2.stepBack.pos = r.pos := by
  simp only [stepBack, start_next, pos_next]
  omega

/-! ## Progress -/

theorem remaining_next_lt {r r' : Reader} {c : Char} (h : r.next = (some c, r')) :
    r'.remaining < r.remaining := by
  unfold next at h
  split at h
  · obtain ⟨-, rfl⟩ := Prod.mk.inj h
    have := Utf8.one_le_width_runeAt r.input r.pos
    simp only [remaining]
    omega
  · simp at h

theorem remaining_stepBack_next_le (r : Reader) : r.next.2.stepBack.remaining ≤ r.remaining := by
  unfold next
  split <;> simp only [stepBack, remaining] <;> omega

end Reader

end StateLexer
