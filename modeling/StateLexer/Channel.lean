import StateLexer.Fault

/-!
# Channels

A channel hands values from a producer to a consumer, one at a time, and holds
nothing: a value is *offered* and waits in the slot until it is *taken*, and
only then is the producer's turn again. A second offer displaces the value that
waits. A channel can be *closed*, when there will be no more values, or
*cancelled*, when no more are wanted; then it accepts none, but a closed one
still hands over the value that waits.

The channel counts the values that were handed on, on either side. A value that
is offered to an empty channel and taken counts once on both, and one that is
displaced counts on the producer's side only.
-/

namespace StateLexer

/-- A channel for values of type `α`. -/
structure Channel (α : Type) where
  /-- The value that waits. -/
  slot : Option α := none
  closed : Bool := false
  cancelled : Bool := false
  /-- How many values have left the producer: taken or displaced. -/
  sent : Nat := 0
  /-- How many values have been taken. -/
  received : Nat := 0
  deriving DecidableEq

namespace Channel

variable {α : Type}

/-- Why the channel accepts no value, if so. -/
def refusal (c : Channel α) : Option Refusal :=
  if c.cancelled then some .cancelled
  else if c.closed then some .closed
  else none

/-- Offers a value. -/
def offer (c : Channel α) (a : α) : Channel α :=
  { c with slot := some a, sent := if c.slot.isSome then c.sent + 1 else c.sent }

/-- The channel after the value that waits, if any, has been taken. -/
def take (c : Channel α) : Channel α :=
  if c.slot.isSome then
    { c with slot := none, sent := c.sent + 1, received := c.received + 1 }
  else c

/-- Says that there will be no more values. -/
def close (c : Channel α) : Channel α :=
  { c with closed := true }

/-- Says that no more values are wanted; the one that waits is dropped. -/
def cancel (c : Channel α) : Channel α :=
  { c with slot := none, cancelled := true }

theorem refusal_eq_none_iff {c : Channel α} :
    c.refusal = none ↔ c.cancelled = false ∧ c.closed = false := by
  unfold refusal
  cases c.cancelled <;> cases c.closed <;> simp

end Channel

end StateLexer
