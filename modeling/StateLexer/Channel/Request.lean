import StateLexer.Channel.Rendezvous

/-!
# Requests to a channel

All that can be asked of a channel, as data: whoever asks does so with a ticket, and one
day departs with an outcome (`Departure`). To *perform* a request tells who departs with
it: the one who asks, or others who have been waiting (`Rendezvous.perform`).

A token that is sent goes together with the ticket of its sender, so that equal tokens of
different senders are told apart, also where they are received.
-/

namespace StateLexer

/-- A token with the ticket of its sender. -/
abbrev Parcel := Nat × Token

/-- How one who has asked something of a channel departs. -/
inductive Departure
  /-- The token has been taken or displaced. -/
  | sent
  | refused (why : Refusal)
  | received (parcel : Parcel)
  /-- There is nothing to receive any more. -/
  | exhausted
  /-- Nothing has come in time. -/
  | timedOut
  /-- The channel has been closed, or cancelled. -/
  | done
  deriving DecidableEq

/-- The outcome as a departure, where `ticket` is that of the sender of what is received. -/
def Finish.departure (ticket : Nat) : Finish → Departure
  | sent => .sent
  | received (some token) => .received (ticket, token)
  | received none => .exhausted
  | refused why => .refused why

namespace Rendezvous

/-- What can be asked of a channel. -/
inductive Request
  | send (token : Token)
  /-- Waits for a token as long as it takes. -/
  | receive
  /-- Waits for a token for a limited time. Nobody else comes in the meantime, so it is in
      vain to wait at all. -/
  | receiveWithin
  | close
  | cancel
  deriving DecidableEq

namespace Request

/-- The request is to receive something. -/
def receives : Request → Bool
  | receive | receiveWithin => true
  | _ => false

/-- The token that is to be sent, if so. -/
def token? : Request → Option Token
  | send token => some token
  | _ => none

end Request

/-- The ticket of the sender that waits; if there is none, the given one. -/
def sender (v : Rendezvous) (ticket : Nat) : Nat :=
  (v.channel.slot.map Prod.fst).getD ticket

/-- The tickets that end with an operation, as departures, where `ticket` is that of the
    sender of what is received. -/
def Ended.departures (ticket : Nat) (ended : Ended) : List (Nat × Departure) :=
  ended.map fun (who, finish) => (who, finish.departure ticket)

/-- What comes of it to wait for no more than what is ready. -/
def Ready.departure (ticket : Nat) : Ready → Departure
  | token t => .received (ticket, t)
  | closed => .exhausted
  | nothing => .timedOut

/-- Performs the request of the ticket: the channel behind it, and who departs with it. -/
def perform (v : Rendezvous) (ticket : Nat) : Request → Rendezvous × List (Nat × Departure)
  | .send token => ((v.send ticket token).1, (v.send ticket token).2.departures ticket)
  | .receive =>
    ((v.receiveAsync ticket).1, (v.receiveAsync ticket).2.departures (v.sender ticket))
  | .receiveWithin =>
    let (ready, rest, ended) := v.receiveNow
    (rest, (ticket, ready.departure (v.sender ticket)) :: ended.departures (v.sender ticket))
  | .close => (v.close.1, (ticket, .done) :: v.close.2.departures ticket)
  | .cancel => (v.cancel.1, (ticket, .done) :: v.cancel.2.departures ticket)

end Rendezvous

end StateLexer
