import StateLexer.Channel

/-!
# Rendezvous

A channel between parties that wait for each other. Each operation that may
have to wait carries a *ticket*, and ends with an outcome, now or later
(`Finish`): a token is sent once it is taken or displaced, and one receives as
soon as there is a token or the channel is closed. An operation says which
tickets end with it, and the state between two operations tells who is still
waiting: nobody who could go on.
-/

namespace StateLexer

/-- How an operation ends. -/
inductive Finish
  | sent
  /-- A token, or none since the channel is closed. -/
  | received (token : Option Token)
  | refused (why : Refusal)
  deriving DecidableEq

/-- A channel with the tickets of those who wait at it. -/
structure Rendezvous where
  /-- The channel; its slot holds a token and the ticket of its sender. -/
  channel : Channel (Nat × Token) := {}
  /-- The tickets of those who wait for a token, in order. -/
  receivers : List Nat := []

namespace Rendezvous

/-- The tickets that end with an operation, in order. -/
abbrev Ended := List (Nat × Finish)

/-- Puts the tickets in order. -/
def Ended.sort (ended : Ended) : Ended :=
  ended.mergeSort fun a b => a.1 ≤ b.1

/-- The ticket of the sender that waits, if any, with its outcome. -/
def senderEnds (v : Rendezvous) (finish : Finish) : Ended :=
  v.channel.slot.toList.map fun waiting => (waiting.1, finish)

/-- The tickets of those who wait. -/
def waiting (v : Rendezvous) : List Nat :=
  (v.channel.slot.toList.map (·.1) ++ v.receivers).mergeSort

/-- Sends a token. Whoever waits for one takes it at once. -/
def send (v : Rendezvous) (ticket : Nat) (token : Token) : Rendezvous × Ended :=
  match v.channel.refusal with
  | some why => (v, [(ticket, .refused why)])
  | none =>
    let displaced := v.senderEnds .sent
    let channel := v.channel.offer (ticket, token)
    match v.receivers with
    | [] => ({ v with channel }, displaced)
    | receiver :: receivers =>
      ({ channel := channel.take, receivers },
        Ended.sort ((receiver, .received (some token)) :: (ticket, .sent) :: displaced))

/-- Receives a token, or waits for one. -/
def receiveAsync (v : Rendezvous) (ticket : Nat) : Rendezvous × Ended :=
  match v.channel.slot with
  | some (_, token) =>
    ({ v with channel := v.channel.take },
      Ended.sort ((ticket, .received (some token)) :: v.senderEnds .sent))
  | none =>
    if v.channel.closed then (v, [(ticket, .received none)])
    else ({ v with receivers := v.receivers ++ [ticket] }, [])

/-- What there is to receive without waiting for a sender. -/
inductive Ready
  | token (t : Token)
  | closed
  | nothing

/-- Receives a token if one is there, and waits for none. -/
def receiveNow (v : Rendezvous) : Ready × Rendezvous × Ended :=
  match v.channel.slot with
  | some (_, token) => (.token token, { v with channel := v.channel.take }, v.senderEnds .sent)
  | none => (if v.channel.closed then .closed else .nothing, v, [])

/-- Closes the channel: nobody waits for a token any more. -/
def close (v : Rendezvous) : Rendezvous × Ended :=
  ({ channel := v.channel.close, receivers := [] },
    v.receivers.map fun receiver => (receiver, .received none))

/-- Cancels the channel: no token waits any more. -/
def cancel (v : Rendezvous) : Rendezvous × Ended :=
  ({ v with channel := v.channel.cancel }, v.senderEnds (.refused .cancelled))

end Rendezvous

end StateLexer
