import StateLexer.Notice
import StateLexer.Reader.Accept

/-!
# Readings

A recognizer decides where a token of one class ends, and whether there is one
at all. Its *reading* of the input is one of three: what it has read is a
token; the input does not begin like one, and nothing has been read; or the
input begins like a token and has a flaw, and what has been read is an error.
-/

namespace StateLexer

/-- What a recognizer finds at the reader's position. -/
inductive Reading
  /-- What has been read is a token of the class. -/
  | accepted
  /-- The input does not begin like a token of the class. -/
  | rejected
  /-- What has been read begins like a token of the class and is none. -/
  | malformed (flaw : Flaw)
  deriving DecidableEq

namespace CharClass

/-- A letter, a digit or a hyphen: a character of a label. -/
def inLabel (c : Char) : Bool :=
  hostname.has c

/-- A character of a label, or the point between two of them: a character of a
    word. -/
def inWord (c : Char) : Bool :=
  inLabel c || c = '.'

theorem inWord_append_point {cs : List Char} (h : ∀ c ∈ cs, inWord c = true) :
    ∀ c ∈ cs ++ ['.'], inWord c = true := by
  intro c hc
  rcases List.mem_append.1 hc with hc | hc
  · exact h c hc
  · rw [List.mem_singleton.1 hc]
    rfl

end CharClass

/-! ## Flawed words -/

/-- Reads the rest of a word that is flawed. -/
def flawedWord {F : Type → Type} (m : Mode F) (flaw : Flaw) (r : Reader) : F Reading :=
  m.andThen (m.acceptWhile CharClass.inWord r) fun _ r => m.ret (.malformed flaw) r

@[simp] theorem checked_flawedWord {settings : Settings} (flaw : Flaw) (r : Reader) :
    flawedWord (.checked settings) flaw r =
      .pure (flawedWord .plain flaw r).1 (flawedWord .plain flaw r).2 := by
  simp [flawedWord]

end StateLexer
