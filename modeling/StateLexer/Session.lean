import StateLexer.Channel
import StateLexer.Grammar

/-!
# Sessions

A session is one scan of one input: a *producer*, which calls one state after
the other, and a *consumer*, who takes the tokens. The producer offers a token
and waits until it is taken. It is therefore never more than one token ahead,
and whenever the consumer looks, the producer is at rest (`Task`): it has not
been started, it waits with a token, or it is finished. Only a grammar that
does not come to an end, and emits nothing any more, keeps it busy for ever.

A session between two requests of the consumer is a value of type `Session`.
This module holds the producer's part of it, `drive`, which goes on from one
rest to the next. The calls of a grammar depend on nothing but the state and
the place of the reader, of which there are finitely many (`callBound`), so a
producer that is as it was before since its last token is busy for ever, and
`drive` can tell.
-/

namespace StateLexer

/-- What the producer is doing while the consumer looks. -/
inductive Task (n : Nat)
  /-- The session has not been started. -/
  | idle
  /-- It waits with the token, in a call of which `rest` is still to come. -/
  | offering (token : Token) (rest : Run (Option (State n)))
  /-- It calls states for ever, and offers no tokens. -/
  | looping
  /-- It stays in one call for ever. -/
  | stuck
  | finished

/-- Who writes in the journal. -/
inductive Side
  | consumer
  | producer
  deriving DecidableEq

/-- A scan between two requests of the consumer. -/
structure Session (n : Nat) where
  lexer : Lexer n
  /-- The settings, which do not change after the session has been made. -/
  settings : Settings
  reader : Reader
  /-- The state that is called, or comes next; none once the scan is over. -/
  state : Option (State n)
  channel : Channel Token := {}
  task : Task n := .idle
  /-- The producer goes on by itself, and is not run by the consumer. -/
  background : Bool := false
  /-- What ended the scan early. -/
  failure : Option Fault := none
  /-- The last token that the producer has handed over. -/
  lastToken : Option Token := none
  /-- The tokens that have been taken, in order. -/
  taken : Array Token := #[]
  /-- The offset of the last token that the consumer has looked at. -/
  lastPos : Int := 0
  journal : Array (Side × Notice) := #[]

/-- The number of different calls on an input of the given size, for a grammar
    that defines `n` states: each state can be called at each place of the
    reader. A rune is at most four bytes wide. -/
def callCount (n size : Nat) : Nat :=
  (n + Standard.all.length) * ((size + 1) * (size + 1)) * 5 * 2

namespace Session

variable {n : Nat}

/-- A session that has not been started. -/
def new (lexer : Lexer n) (settings : Settings) : Session n :=
  { lexer, settings, reader := { input := ByteArray.empty }, state := some lexer.start }

/-- The session has been started. -/
def isStarted (s : Session n) : Bool :=
  match s.task with
  | .idle => false
  | _ => true

/-- The producer goes on by itself, and has not finished. -/
def isRunning (s : Session n) : Bool :=
  s.background &&
    match s.task with
    | .idle => false
    | .finished => false
    | _ => true

/-! ## The journal -/

/-- Writes a notice in the journal. -/
def write (s : Session n) (side : Side) (notice : Notice) : Session n :=
  { s with journal := s.journal.push (side, notice) }

/-- Writes a notice of the producer, or of the consumer who runs it. -/
def note (s : Session n) (notice : Notice) : Session n :=
  s.write (if s.background then .producer else .consumer) notice

/-- The notices of one side, in order. -/
def notices (s : Session n) (side : Side) : List Notice :=
  s.journal.toList.filterMap fun entry => if entry.1 = side then some entry.2 else none

/-! ## The end of a scan -/

/-- Ends the scan. -/
def finish (s : Session n) : Session n :=
  { s with state := none, channel := s.channel.close, task := .finished }.note
    (.finished s.channel.sent)

/-- Ends the scan in front of a state call, since it is cancelled. -/
def haltBetween (s : Session n) : Session n :=
  (s.note (.cancelledBetween s.reader.pos)).finish

/-- Ends the scan in a state call that has raised a fault. A cancellation is no
    failure. -/
def haltWithin (s : Session n) (fault : Fault) : Session n :=
  if fault.isCancellation then
    (s.note (.cancelledWithin s.reader.pos s.channel.sent)).finish
  else
    ({ s with failure := some fault }.note (.failed s.reader.pos)).finish

/-! ## The producer -/

/-- Goes on with a call, of which the given events and the end of the record
    `call` are still to come, to the next token or the end. Tells whether the
    next state is to be called. -/
def advance (call : Run (Option (State n))) : List Event → Session n → Bool × Session n
  | .note notice :: events, s => advance call events (s.note notice)
  | .offer reader token :: events, s =>
    (false,
      { s with
        reader
        channel := s.channel.offer token
        task := .offering token { call with events } })
  | [], s =>
    let s := { s with reader := call.reader }
    match call.outcome with
    | .done next => (true, { s with state := next })
    | .raised fault => (false, s.haltWithin fault)
    | .stuck => (false, { s with task := .stuck })

/-- Calls states until the producer is at rest, at most `fuel` of them. The
    `trail` holds the states that have been called since the last rest, with
    the place of the reader: to come back to one of them is to go round for ever. -/
def drive (trail : List (State n × Place)) : (fuel : Nat) → Session n → Session n
  | 0, s => { s with task := .looping }
  | fuel + 1, s =>
    match s.state with
    | none => s.finish
    | some q =>
      if s.channel.cancelled then s.haltBetween
      else if (q, s.reader.toPlace) ∈ trail then { s with task := .looping }
      else
        let call := s.lexer.call { settings := s.settings } q s.reader
        let turn := advance call call.events s
        if turn.1 then drive ((q, s.reader.toPlace) :: trail) fuel turn.2 else turn.2

/-- How many different calls there are on the input. -/
def callBound (s : Session n) : Nat :=
  callCount n s.reader.input.size

/-- Brings the producer to its next rest, in front of a state call. -/
def proceed (s : Session n) : Session n :=
  drive [] (s.callBound + 1) s

/-- Brings the producer to its next rest behind the token, of whose call `rest` is still to
    come. -/
def goOn (token : Token) (rest : Run (Option (State n))) (s : Session n) : Session n :=
  let turn := advance rest rest.events { s with lastToken := some token }
  if turn.1 then turn.2.proceed else turn.2

/-- Brings the producer to its next rest, once its token has been taken. -/
def resume (s : Session n) : Session n :=
  match s.task with
  | .offering token rest => s.goOn token rest
  | _ => s

/-- Has the producer look at the channel again, while it waits with the token in a call of which
    `rest` is still to come. If no token is accepted any more, that is what emitting it comes to,
    and the rest of the call does not come. -/
def reconsider (token : Token) (rest : Run (Option (State n))) (s : Session n) : Session n :=
  let env : Env := { settings := s.settings, refusal := s.channel.refusal }
  let call := (Run.emit env token.kind s.reader).andThen fun _ _ => rest
  (advance call call.events s).2

/-- To emit a token that is refused ends the scan with that fault. -/
theorem reconsider_of_refusal {s : Session n} {why : Refusal} (h : s.channel.refusal = some why)
    (token : Token) (rest : Run (Option (State n))) :
    s.reconsider token rest = s.haltWithin (.refused why) := by
  rw [reconsider, Run.emit_of_refusal h, Run.raise_andThen]
  rfl

/-- Starts the scan of an input. -/
def launch (s : Session n) (background : Bool) (input : ByteArray) : Session n :=
  ({ s with reader := { input }, background }.note (.started input.size)).proceed

/-! ## What the producer leaves alone -/

/-- What is not the producer's to change: the settings, who runs it, the tokens that have been
    taken, and the offset of the last one that the consumer has looked at. -/
def untouched (s : Session n) : Settings × Bool × Array Token × Int :=
  (s.settings, s.background, s.taken, s.lastPos)

theorem untouched_haltWithin (s : Session n) (fault : Fault) :
    (s.haltWithin fault).untouched = s.untouched := by
  rw [haltWithin]
  split <;> rfl

theorem untouched_advance (call : Run (Option (State n))) (events : List Event) (s : Session n) :
    (advance call events s).2.untouched = s.untouched := by
  induction events generalizing s with
  | nil =>
    rw [advance]
    split
    · rfl
    · exact untouched_haltWithin _ _
    · rfl
  | cons event events ih =>
    cases event with
    | note notice => exact ih (s.note notice)
    | offer r t => rfl

theorem untouched_drive (trail : List (State n × Place)) (fuel : Nat) (s : Session n) :
    (drive trail fuel s).untouched = s.untouched := by
  induction fuel generalizing trail s with
  | zero => rfl
  | succ fuel ih =>
    rw [drive]
    split
    · rfl
    · split
      · rfl
      · split
        · rfl
        · simp only
          split
          · exact (ih _ _).trans (untouched_advance _ _ s)
          · exact untouched_advance _ _ s

theorem untouched_resume (s : Session n) : s.resume.untouched = s.untouched := by
  rw [resume]
  split
  · simp only [goOn]
    split
    · exact (untouched_drive _ _ _).trans (untouched_advance _ _ _)
    · exact untouched_advance _ _ _
  · rfl

theorem untouched_launch (s : Session n) (background : Bool) (input : ByteArray) :
    (s.launch background input).untouched = (s.settings, background, s.taken, s.lastPos) :=
  untouched_drive _ _ _

end Session

end StateLexer
