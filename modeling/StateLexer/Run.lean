import StateLexer.Fault
import StateLexer.Notice
import StateLexer.Reader
import StateLexer.Settings

/-!
# Runs

A piece of a grammar, from a single step to a whole state call, moves the
reader, and on its way it writes notices and offers tokens to the consumer.
Nothing that the consumer does with a token changes what comes next, so a piece
can be run to its end at once, recording what happens (`Run.events`) in order:
whoever takes the tokens plays the record, and at each offer finds the reader
as it is while the token waits.

A run ends with a value or a fault, or it never ends. Runs are put together with
`Run.andThen`, and how they are bracketed makes no difference (`andThen_assoc`):
the second of two is what happens behind the first, unless that has failed
(`tokens_andThen_done`, `raise_andThen`).
-/

namespace StateLexer

/-- What happens in a run besides the moves of the reader. -/
inductive Event
  /-- A notice for the journal. -/
  | note (notice : Notice)
  /-- A token for the consumer, which is the window of the reader. -/
  | offer (reader : Reader) (token : Token)

/-- How a run ends. -/
inductive Outcome (α : Type)
  | done (value : α)
  | raised (fault : Fault)
  /-- It goes on for ever, without any events. -/
  | stuck

/-- The record of a run. -/
structure Run (α : Type) where
  /-- What happens, in order. -/
  events : List Event
  /-- The reader at the end. -/
  reader : Reader
  /-- The end. -/
  outcome : Outcome α

/-- What a run depends on besides the reader. -/
structure Env where
  settings : Settings
  /-- Why no token is accepted, if so. -/
  refusal : Option Refusal := none

namespace Run

variable {α β : Type}

/-- A run in which nothing happens. -/
def pure (value : α) (r : Reader) : Run α :=
  { events := [], reader := r, outcome := .done value }

/-- A run that ends with a fault at once. -/
def raise (fault : Fault) (r : Reader) : Run α :=
  { events := [], reader := r, outcome := .raised fault }

/-- One run and, unless it fails, another that depends on its value. -/
def andThen (first : Run α) (second : α → Reader → Run β) : Run β :=
  match first.outcome with
  | .done value =>
    let rest := second value first.reader
    { rest with events := first.events ++ rest.events }
  | .raised fault => { first with outcome := .raised fault }
  | .stuck => { first with outcome := .stuck }

/-- Writes a notice. -/
def note (notice : Notice) (r : Reader) : Run Unit :=
  { events := [.note notice], reader := r, outcome := .done () }

/-- Offers the window as a token, and begins a new window once it is accepted. -/
def emit (env : Env) (kind : Kind) (r : Reader) : Run Unit :=
  match env.refusal with
  | some why => raise (.refused why) r
  | none => { events := [.offer r (r.token kind)], reader := r.renew, outcome := .done () }

/-- The tokens that are offered, in order. -/
def tokens (run : Run α) : List Token :=
  run.events.filterMap fun
    | .offer _ token => some token
    | .note _ => none

/-! ## Laws -/

@[simp] theorem pure_andThen (value : α) (r : Reader) (f : α → Reader → Run β) :
    (pure value r).andThen f = f value r := rfl

@[simp] theorem raise_andThen (fault : Fault) (r : Reader) (f : α → Reader → Run β) :
    (raise fault r).andThen f = raise fault r := rfl

@[simp] theorem tokens_pure (value : α) (r : Reader) : (pure value r).tokens = [] := rfl

@[simp] theorem tokens_raise (fault : Fault) (r : Reader) :
    (raise fault r : Run α).tokens = [] := rfl

theorem andThen_assoc {γ : Type} (run : Run α) (f : α → Reader → Run β)
    (g : β → Reader → Run γ) :
    (run.andThen f).andThen g = run.andThen fun value r => (f value r).andThen g := by
  obtain ⟨events, r, outcome⟩ := run
  cases outcome with
  | raised fault => rfl
  | stuck => rfl
  | done value =>
    simp only [andThen]
    cases (f value r).outcome <;> simp

/-- Behind a run that has a value, the tokens of the next one follow. -/
theorem tokens_andThen_done {run : Run α} {value : α} (h : run.outcome = .done value)
    (f : α → Reader → Run β) :
    (run.andThen f).tokens = run.tokens ++ (f value run.reader).tokens := by
  simp [andThen, h, tokens]

/-- A token that is accepted is the only one, and the window behind it is empty. -/
theorem tokens_emit {env : Env} (h : env.refusal = none) (kind : Kind) (r : Reader) :
    (emit env kind r).tokens = [r.token kind] := by
  simp [emit, h, tokens]

/-- A token that is refused leaves the window as it is. -/
theorem emit_of_refusal {env : Env} {why : Refusal} (h : env.refusal = some why) (kind : Kind)
    (r : Reader) : emit env kind r = raise (.refused why) r := by
  simp [emit, h]

end Run

end StateLexer
