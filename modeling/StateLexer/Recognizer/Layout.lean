import StateLexer.Recognizer.Reading

/-!
# Layout

Runs of spaces, runs of blanks (spaces and tabs), and line endings. A run may
be empty. A carriage return and a line feed behind it are one line ending.
-/

namespace StateLexer.Layout

variable {F : Type → Type} (m : Mode F)

/-- Reads a run of spaces. -/
def readSpaces (r : Reader) : F Reading :=
  m.andThen (m.acceptWhile CharClass.space.has r) fun _ r => m.ret .accepted r

/-- Reads a run of spaces and tabs. -/
def readBlanks (r : Reader) : F Reading :=
  m.andThen (m.acceptWhile CharClass.whitespace.has r) fun _ r => m.ret .accepted r

/-- Reads one line ending. -/
def readNewline (r : Reader) : F Reading :=
  if r.next.1 = some '\r' then
    m.andThen (m.acceptChar (· = '\n') r.next.2) fun _ r => m.ret .accepted r
  else if r.next.1 = some '\n' then m.ret .accepted r.next.2
  else m.undo .rejected r.next.2

variable {settings : Settings}

@[simp] theorem checked_readSpaces (r : Reader) :
    readSpaces (.checked settings) r = .pure (readSpaces .plain r).1 (readSpaces .plain r).2 := by
  simp [readSpaces]

@[simp] theorem checked_readBlanks (r : Reader) :
    readBlanks (.checked settings) r = .pure (readBlanks .plain r).1 (readBlanks .plain r).2 := by
  simp [readBlanks]

@[simp] theorem checked_readNewline (r : Reader) : readNewline (.checked settings) r =
    .pure (readNewline .plain r).1 (readNewline .plain r).2 := by
  simp only [readNewline, Mode.checked_acceptChar, Mode.checked_andThen, Mode.checked_undo_next,
    Run.pure_andThen]
  split
  · rfl
  · split <;> rfl

end StateLexer.Layout
