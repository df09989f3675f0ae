import StateLexer.Session.Consumer

/-!
# Requests

All that a consumer can ask of a session, as data: a `Request` has an `Answer`
and leads to another session (`Session.perform`), and so do several of them,
one behind the other (`Session.performAll`). What holds whatever the consumer
does is a statement about all lists of requests.

A scan that is left in good order is drained first; one that is left by an
error is cancelled.
-/

namespace StateLexer

/-- A request of the consumer. -/
inductive Request (n : Nat)
  /-- Start the scan of an input, with a producer that goes on by itself. -/
  | start (input : ByteArray)
  /-- Run the scan of an input, while a helper takes the tokens. -/
  | run (input : ByteArray)
  /-- Take the next token. -/
  | next (limit : Option Seconds)
  /-- Take tokens one by one, up to `limit` if there is one. -/
  | iterate (limit : Option Nat)
  /-- Take the remaining tokens without looking at them. -/
  | drain
  | cancel
  /-- Wait for the producer to finish. -/
  | join (limit : Option Seconds)
  /-- Drain the scan and wait for the producer. -/
  | close
  /-- Enter the scope of a scan that has been started. -/
  | enter
  /-- Leave the scope in good order. -/
  | leave
  /-- Leave the scope by an error. -/
  | abandon
  /-- Ask which state a target stands for. -/
  | resolve (target : Target (State n))

/-- The request stops the producer early. -/
def Request.cancels {n : Nat} : Request n → Bool
  | cancel => true
  | abandon => true
  | _ => false

/-- The answer to a request. -/
inductive Answer (n : Nat)
  | done
  | token (t : Token)
  | tokens (i : Iteration)
  | count (k : Nat)
  | flag (b : Bool)
  | state (q : Option (State n))
  | error (e : ScanError)
  /-- There is none, however long the consumer waits. -/
  | never

/-- The answer that a reply is, if a value is answered as `f`. -/
def Reply.toAnswer {n : Nat} {α : Type} (f : α → Answer n) : Reply α → Answer n
  | value a => f a
  | error e => .error e
  | never => .never

namespace Session

variable {n : Nat}

/-- Answers a request. -/
def perform (s : Session n) : Request n → Answer n × Session n
  | .start input => ((s.start input).1.toAnswer fun _ => .done, (s.start input).2)
  | .run input => (.tokens (s.run input).1, (s.run input).2)
  | .next limit => ((s.next limit).1.toAnswer .token, (s.next limit).2)
  | .iterate limit => (.tokens (s.iterate limit).1, (s.iterate limit).2)
  | .drain => (s.drain.1.toAnswer .count, s.drain.2)
  | .cancel => (.done, s.cancel)
  | .join limit => ((s.join limit).1.toAnswer .flag, (s.join limit).2)
  | .close => (s.close.1.toAnswer fun _ => .done, s.close.2)
  | .enter => (s.enter.toAnswer fun _ => .done, s)
  | .leave => (s.close.1.toAnswer fun _ => .done, s.close.2)
  | .abandon => (s.abandon.1.toAnswer fun _ => .done, s.abandon.2)
  | .resolve target => (.state (target.resolve s.lexer.home), s)

/-- Answers requests, one behind the other. -/
def performAll (s : Session n) : List (Request n) → List (Answer n) × Session n
  | [] => ([], s)
  | request :: requests =>
    let first := s.perform request
    let rest := first.2.performAll requests
    (first.1 :: rest.1, rest.2)

end Session

end StateLexer
