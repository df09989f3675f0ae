import Mathlib.Logic.Relation
import StateLexer.Channel.Request

/-!
# The threads at a channel

Those who ask something of a channel are threads. Each of them has the channel to itself
for a moment, and then it departs or falls asleep until another one wakes all that sleep. A
thread that has been woken looks again whether it can go on: a sender does if its token is
no longer in the slot, or if the channel has been cancelled, and a receiver if there is a
token, or if the channel has been closed (`Monitor.go`). One who receives for a limited time
also looks a last time when it is up.

Which of the threads comes next is left open (`Monitor.Step`). When none can go on, they *rest*,
and it is time for the next request (`Monitor.Comes`).
-/

namespace StateLexer

/-- Where a thread is. -/
inductive Stage
  /-- It is about to come, and to ask something. -/
  | coming (request : Rendezvous.Request)
  /-- It waits for its token to be taken, and may have been woken. -/
  | sending (token : Token) (awake : Bool)
  /-- It waits for a token, for a limited time or not, and may have been woken. -/
  | receiving (limited awake : Bool)
  /-- It has waited for a token until its time was up. -/
  | late
  | gone (departure : Departure)
  deriving DecidableEq

namespace Stage

/-- The stage of a thread that is woken. -/
def wake : Stage → Stage
  | sending token _ => sending token true
  | receiving limited _ => receiving limited true
  | stage => stage

/-- The thread goes on once it has the channel to itself. -/
def isReady : Stage → Bool
  | coming _ | late => true
  | sending _ awake | receiving _ awake => awake
  | gone _ => false

/-- The thread is gone, or only others can make it go on. -/
def rests : Stage → Bool
  | coming _ | late => false
  | sending _ awake => !awake
  | receiving limited awake => !limited && !awake
  | gone _ => true

end Stage

/-- A channel and the threads at it. The ticket of a thread is its index. -/
structure Monitor where
  channel : Channel Parcel := {}
  threads : List Stage := []

namespace Monitor

/-- The monitor with the thread at another stage. -/
def put (m : Monitor) (i : Nat) (stage : Stage) : Monitor :=
  { m with threads := m.threads.set i stage }

/-- Wakes all threads that are asleep. -/
def wakeAll (m : Monitor) : Monitor :=
  { m with threads := m.threads.map Stage.wake }

/-- The thread receives what is there. If there is nothing, but may be later on, it goes
    on as told. -/
def look (m : Monitor) (i : Nat) (otherwise : Stage) : Monitor :=
  match m.channel.slot with
  | some parcel =>
    let channel := { m.channel with slot := none, received := m.channel.received + 1 }
    ({ m with channel }).wakeAll.put i (.gone (.received parcel))
  | none => m.put i (if m.channel.closed then .gone .exhausted else otherwise)

/-- What the thread does at the stage while it has the channel to itself. -/
def go (m : Monitor) (i : Nat) : Stage → Monitor
  | .coming (.send token) =>
    match m.channel.refusal with
    | some why => m.put i (.gone (.refused why))
    | none =>
      let channel := { m.channel with slot := some (i, token) }
      ({ m with channel }).wakeAll.put i (.sending token false)
  | .coming .receive => m.look i (.receiving false false)
  | .coming .receiveWithin => m.look i (.receiving true false)
  | .coming .close => ({ m with channel := m.channel.close }).wakeAll.put i (.gone .done)
  | .coming .cancel =>
    ({ m with channel := { m.channel with cancelled := true } }).wakeAll.put i (.gone .done)
  | .sending token _ =>
    if m.channel.slot = some (i, token) then
      if m.channel.cancelled then
        ({ m with channel := { m.channel with slot := none } }).put i (.gone (.refused .cancelled))
      else m.put i (.sending token false)
    else
      ({ m with channel := { m.channel with sent := m.channel.sent + 1 } }).put i (.gone .sent)
  | .receiving limited _ => m.look i (.receiving limited false)
  | .late => m.look i (.gone .timedOut)
  | .gone departure => m.put i (.gone departure)

/-- One of the threads goes on, or its time is up. -/
inductive Step : Monitor → Monitor → Prop
  | go {m : Monitor} {i : Nat} {stage : Stage} (hstage : m.threads[i]? = some stage)
    (hready : stage.isReady = true) : Step m (m.go i stage)
  | expire {m : Monitor} {i : Nat} {awake : Bool}
    (hstage : m.threads[i]? = some (.receiving true awake)) : Step m (m.put i .late)

/-- Another thread is about to come. -/
def accept (m : Monitor) (request : Rendezvous.Request) : Monitor :=
  { m with threads := m.threads ++ [.coming request] }

/-- No thread can go on. -/
def Rests (m : Monitor) : Prop :=
  ∀ stage ∈ m.threads, stage.rests = true

/-- The monitor at rest, where the requests have come one after the other, each of them when
    the monitor was at rest. -/
inductive Comes : List Rendezvous.Request → Monitor → Prop
  | nil : Comes [] {}
  | snoc {requests : List Rendezvous.Request} {m m' : Monitor} (hcomes : Comes requests m)
    (request : Rendezvous.Request) (hsteps : Relation.ReflTransGen Step (m.accept request) m')
    (hrests : m'.Rests) : Comes (requests ++ [request]) m'

end Monitor

end StateLexer
