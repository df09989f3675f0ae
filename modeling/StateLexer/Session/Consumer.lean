import StateLexer.Session

/-!
# The consumer of a session

The requests of the consumer: to start the scan, to take tokens one by one or
many at once, and to end it early. Taking a token lets the producer go on to
its next rest (`Session.receive`), and every request that takes tokens is made
of that. Once the scan is over, the tokens that were offered have all been
taken, and the consumer is told whether it ended with a fault.

A request can go unanswered: one that waits for a producer that is busy for
ever, or for all tokens of a scan that has no end (`Reply.never`). If there
were more tokens than calls of a state without repetition can offer
(`tokenBound`), there would be no end to them.
-/

namespace StateLexer

/-! ## Answers -/

/-- The answer to a request. -/
inductive Reply (α : Type)
  | value (a : α)
  | error (e : ScanError)
  /-- There is no answer, however long the consumer waits. -/
  | never

/-- What the consumer gets when it asks for a token. -/
inductive Receipt
  | token (t : Token)
  /-- The scan is over. -/
  | ended
  /-- There is no token, and there never will be. -/
  | silence

/-- Why no more tokens were taken. -/
inductive Stop
  /-- There are no more. -/
  | ended
  /-- These are enough. -/
  | enough
  /-- The token is unwanted. -/
  | unwanted (t : Token)
  /-- The next one never comes. -/
  | silence

/-- The tokens that were taken, and why no more. -/
structure Harvest where
  tokens : Array Token
  stop : Stop

/-- Why an iteration ends. -/
inductive IterationEnd
  /-- The scan is over. -/
  | done
  /-- As many tokens as were asked for have been taken. -/
  | more
  | failed (e : ScanError)
  | never

/-- The tokens of an iteration, and why it ends. -/
structure Iteration where
  tokens : List Token
  ending : IterationEnd

/-- The iteration that a harvest of up to `limit` tokens is, when the fault is
    reported as `report`. -/
def Harvest.toIteration (h : Harvest) (limit : Option Nat) (failure : Option Fault)
    (report : Fault → ScanError) : Iteration :=
  { tokens := h.tokens.toList
    ending :=
      match h.stop with
      | .ended => match failure with
        | some fault => .failed (report fault)
        | none => .done
      | .enough => if limit.isSome then .more else .never
      | .unwanted _ => .more
      | .silence => .never }

namespace Session

variable {n : Nat}

/-! ## Starting -/

/-- Starts the scan, with a producer that goes on by itself. -/
def start (s : Session n) (input : ByteArray) : Reply Unit × Session n :=
  if s.isStarted then (.error .alreadyStarted, s) else (.value (), s.launch true input)

/-- Asks for a session that has been started. -/
def enter (s : Session n) : Reply Unit :=
  if s.isStarted then .value () else .error .notStarted

/-! ## Taking tokens -/

/-- Takes the next token. -/
def receive (s : Session n) : Receipt × Session n :=
  match s.channel.slot with
  | some t => (.token t, { s with channel := s.channel.take, taken := s.taken.push t }.resume)
  | none => (if s.channel.closed then .ended else .silence, s)

/-- To take a token does not change who runs the producer. -/
theorem background_receive (s : Session n) : s.receive.2.background = s.background := by
  rw [receive]
  split
  · exact congrArg (·.2.1) (untouched_resume _)
  · rfl

/-- What the consumer is told when the scan is over: the fault, if it ended
    with one, or else `clean`. -/
def conclude {α : Type} (s : Session n) (clean : Reply α) : Reply α :=
  match s.failure with
  | some fault => .error (.failed fault)
  | none => clean

/-- Takes the next token and looks at it. A limit on the waiting time only
    matters where no token will come. -/
def next (s : Session n) (limit : Option Seconds) : Reply Token × Session n :=
  if !s.isStarted then (.error .notStarted, s)
  else
    match s.receive with
    | (.token t, s) => (.value t, { s with lastPos := t.pos })
    | (.ended, s) => (s.conclude (.error .exhausted), s)
    | (.silence, s) =>
      match limit with
      | some limit => (.error (.timedOut limit), s)
      | none => (.never, s)

/-- Takes up to `limit` tokens, and puts them behind those in `taken`. The
    consumer looks at them or not, and wants none that satisfies `unwanted`. -/
def collect (looks : Bool) (unwanted : Token → Bool) :
    (limit : Nat) → (taken : Array Token) → Session n → Harvest × Session n
  | 0, tokens, s => ({ tokens, stop := .enough }, s)
  | limit + 1, tokens, s =>
    match s.receive with
    | (.token t, s) =>
      let s := if looks then { s with lastPos := t.pos } else s
      if unwanted t then ({ tokens, stop := .unwanted t }, s)
      else collect looks unwanted limit (tokens.push t) s
    | (.ended, s) => ({ tokens, stop := .ended }, s)
    | (.silence, s) => ({ tokens, stop := .silence }, s)

/-- What it keeps to take a token and to look at it, it keeps to take many. -/
theorem collect_induction {P : Session n → Prop} {s : Session n}
    (hreceive : ∀ s, P s → P s.receive.2) (hlook : ∀ s pos, P s → P { s with lastPos := pos })
    (looks : Bool) (unwanted : Token → Bool) (limit : Nat) (tokens : Array Token) (h : P s) :
    P (s.collect looks unwanted limit tokens).2 := by
  induction limit generalizing tokens s with
  | zero => exact h
  | succ limit ih =>
    have hreceived := hreceive s h
    rw [collect]
    generalize s.receive = received at hreceived ⊢
    obtain ⟨receipt, s'⟩ := received
    cases receipt with
    | token t =>
      have hlooked : P (if looks then { s' with lastPos := t.pos } else s') := by
        split
        · exact hlook s' _ hreceived
        · exact hreceived
      simp only
      split
      · exact hlooked
      · exact ih _ hlooked
    | ended => exact hreceived
    | silence => exact hreceived

theorem background_collect (looks : Bool) (unwanted : Token → Bool) (limit : Nat)
    (tokens : Array Token) (s : Session n) :
    (s.collect looks unwanted limit tokens).2.background = s.background :=
  collect_induction (P := fun s' => s'.background = s.background)
    (fun s' h => s'.background_receive.trans h) (fun _ _ h => h) looks unwanted limit tokens rfl

/-- More tokens than a scan offers that has an end. -/
def tokenBound (s : Session n) : Nat :=
  s.callBound * s.lexer.burst + 1

/-- Takes tokens one by one and looks at them, up to `limit` if there is one.
    If none are asked for, nothing happens. -/
def iterate (s : Session n) (limit : Option Nat) : Iteration × Session n :=
  if limit = some 0 then ({ tokens := [], ending := .more }, s)
  else if !s.isStarted then ({ tokens := [], ending := .failed .notStarted }, s)
  else
    let (harvest, s) := s.collect true (fun _ => false) (limit.getD s.tokenBound) #[]
    (harvest.toIteration limit s.failure .failed, s)

/-- Takes the remaining tokens without looking at them; yields their number. -/
def drain (s : Session n) : Reply Nat × Session n :=
  if !s.isStarted then (.error .notStarted, s)
  else
    match s.collect false (fun _ => false) s.tokenBound #[] with
    | ({ tokens, stop := .ended }, s) =>
      let s := s.write .consumer (.drained tokens.size)
      (s.conclude (.value tokens.size), s)
    | (_, s) => (.never, s)

/-- Runs the scan itself, while somebody else takes the tokens and does not
    look at them. Here a fault is raised as it is. -/
def run (s : Session n) (input : ByteArray) : Iteration × Session n :=
  if s.isStarted then ({ tokens := [], ending := .failed .alreadyStarted }, s)
  else
    let s := s.launch false input
    let (harvest, s) := s.collect false (fun _ => false) s.tokenBound #[]
    (harvest.toIteration none s.failure .raised, s)

/-! ## Ending -/

/-- Cancels the scan. A producer that waits with a token drops it, and one that
    calls states calls no other. -/
def cancel (s : Session n) : Session n :=
  let s := { s with channel := s.channel.cancel }
  match s.task with
  | .offering token rest => s.reconsider token rest
  | .looping => s.haltBetween
  | _ => s

/-- The token that waits is refused, and the call in which it does has no other end. -/
theorem cancel_of_offering {s : Session n} {token : Token} {rest : Run (Option (State n))}
    (h : s.task = .offering token rest) :
    s.cancel = ({ s with channel := s.channel.cancel } : Session n).haltWithin
      (.refused .cancelled) := by
  rw [cancel, h]
  exact reconsider_of_refusal rfl token rest

theorem untouched_cancel (s : Session n) : s.cancel.untouched = s.untouched := by
  cases htask : s.task with
  | offering token rest => rw [cancel_of_offering htask, untouched_haltWithin]; rfl
  | _ => simp only [cancel, htask]; rfl

/-- Waits for the producer to finish, for a limited time unless neither the
    request nor the settings say so. Tells whether it has. -/
def join (s : Session n) (limit : Option Seconds) : Reply Bool × Session n :=
  if !s.isRunning then (.value true, s)
  else if limit.isNone ∧ s.settings.joinTimeout.isNone then (.never, s)
  else (.value false, s.write .consumer (.stillRunning s.settings.threadName))

theorem untouched_join (s : Session n) (limit : Option Seconds) :
    (s.join limit).2.untouched = s.untouched := by
  rw [join]
  split
  · rfl
  · split <;> rfl

/-- Takes the remaining tokens, and waits for the producer to finish. -/
def close (s : Session n) : Reply Unit × Session n :=
  match s.drain with
  | (.value _, s) =>
    match s.join none with
    | (.never, s) => (.never, s)
    | (_, s) => (.value (), s)
  | (.error e, s) => (.error e, s)
  | (.never, s) => (.never, s)

/-- Cancels the scan, and waits for the producer to finish: what is left to do
    for a consumer that gives up. -/
def abandon (s : Session n) : Reply Unit × Session n :=
  match s.cancel.join none with
  | (.never, s) => (.never, s)
  | (_, s) => (.value (), s)

end Session

end StateLexer
