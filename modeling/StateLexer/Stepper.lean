import StateLexer.Channel
import StateLexer.Grammar

/-!
# Stepping by hand

A grammar can be tried out without a session: a *stepper* makes one move after
the other, a step or a state call, on a single reader. Every token that is
offered is taken at once, unless the channel has been closed or cancelled. A
move that fails leaves the stepper where the fault was raised, and further
moves go on from there.
-/

namespace StateLexer

/-- What a stepper does at once. -/
inductive Move (n : Nat)
  | step (s : Step)
  /-- Calls a state. -/
  | call (q : State n)

/-- What a move yields. -/
inductive MoveValue (n : Nat)
  | ofStep (value : Value)
  /-- The state that comes next, if any. -/
  | ofCall (next : Option (State n))

/-- A grammar on an input, moved by hand. -/
structure Stepper (n : Nat) where
  lexer : Lexer n
  settings : Settings
  reader : Reader
  channel : Channel Token := {}

namespace Stepper

variable {n : Nat}

/-- The record of a move. -/
def record (s : Stepper n) : Move n → Run (MoveValue n)
  | .step step =>
    (step.run { settings := s.settings, refusal := s.channel.refusal } s.reader).andThen
      fun value r => .pure (.ofStep value) r
  | .call q =>
    (s.lexer.call { settings := s.settings, refusal := s.channel.refusal } q s.reader).andThen
      fun next r => .pure (.ofCall next) r

/-- The stepper after a move with the given record. -/
def after (s : Stepper n) (record : Run (MoveValue n)) : Stepper n :=
  { s with
    reader := record.reader
    channel := record.tokens.foldl (fun c token => (c.offer token).take) s.channel }

/-- Makes a move. -/
def move (s : Stepper n) (m : Move n) : Run (MoveValue n) × Stepper n :=
  (s.record m, s.after (s.record m))

/-- Closes the channel. -/
def close (s : Stepper n) : Stepper n :=
  { s with channel := s.channel.close }

/-- Cancels the channel. -/
def cancel (s : Stepper n) : Stepper n :=
  { s with channel := s.channel.cancel }

end Stepper

end StateLexer
