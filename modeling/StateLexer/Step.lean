import StateLexer.Reader.Accept
import StateLexer.Run

/-!
# Steps

The moves that a grammar can make on its own: reading, looking, accepting,
skipping, emitting and raising faults. Each step yields a value, and where a
grammar has to choose it asks whether the last step has been a *success*: one
that found or read something.
-/

namespace StateLexer

/-- One move of a grammar. -/
inductive Step
  | next
  | peek
  | prevRune
  | backup
  /-- Leaves the window out of the tokens. -/
  | skip
  | acceptOneOf (runes : List String)
  | acceptRun (runes : List String)
  | acceptUntil (last : String)
  | acceptLiteral (text : String)
  | acceptWhile (p : Predicate)
  | acceptUntilMatch (p : Predicate)
  | emit (kind : Kind)
  | raise (sort : FaultSort) (text : String)

/-- What a step yields. -/
inductive Value
  | nothing
  | flag (b : Bool)
  | count (n : Nat)
  | rune (r : Rune)
  deriving DecidableEq

/-- The step that yields the value has found or read something. -/
def Value.isSuccess : Value → Bool
  | nothing => false
  | flag b => b
  | count n => n != 0
  | rune r => r.isSome

namespace Step

/-- A move of the reader that yields a value. -/
def ofMove {α : Type} (value : α → Value) (move : α × Reader) : Run Value :=
  .pure (value move.1) move.2

/-- A run that yields a value of a step. -/
def ofRun {α : Type} (value : α → Value) (run : Run α) : Run Value :=
  run.andThen fun a r => .pure (value a) r

/-- Makes the step. -/
def run (env : Env) : Step → Reader → Run Value
  | next, r => ofMove .rune r.next
  | peek, r => ofRun .rune ((Mode.checked env.settings).peek r)
  | prevRune, r => .pure (.rune r.prevRune) r
  | backup, r => (Mode.checked env.settings).undo .nothing r
  | skip, r => .pure .nothing r.renew
  | acceptOneOf runes, r =>
    ofRun .flag ((Mode.checked env.settings).acceptOneOf (runes.contains ·.text) r)
  | acceptRun runes, r =>
    match (Mode.checked env.settings).acceptRun (runes.contains ·.text) r with
    | some taken => ofRun .count taken
    | none => { events := [], reader := r, outcome := .stuck }
  | acceptUntil last, r => ofRun .flag ((Mode.checked env.settings).acceptUntil last r)
  | acceptLiteral text, r => ofMove .flag (r.acceptLiteral text)
  | acceptWhile p, r => ofRun .flag ((Mode.checked env.settings).acceptWhile p.admits r)
  | acceptUntilMatch p, r =>
    ofRun .flag ((Mode.checked env.settings).acceptUntilMatch p.admits r)
  | emit kind, r => (Run.emit env kind r).andThen fun _ r => .pure .nothing r
  | raise sort text, r => .raise (.thrown sort text) r

/-- Makes the steps in order; yields the value of the last one, or `value` if
    there is none. -/
def runAll (env : Env) : List Step → Value → Reader → Run Value
  | [], value, r => .pure value r
  | step :: steps, _, r => (step.run env r).andThen fun value r => runAll env steps value r

/-! ## As plain moves -/

@[simp] theorem ofRun_pure {α : Type} (value : α → Value) (a : α) (r : Reader) :
    ofRun value (.pure a r) = ofMove value (a, r) := rfl

variable (env : Env) (r : Reader)

theorem run_peek : peek.run env r = ofMove .rune r.peek := by
  simp [run]

theorem run_backup : backup.run env r =
    if env.settings.strictBackup && !r.canBackup then .raise (.misplacedBackup r.pos) r
    else .pure .nothing r.stepBack := rfl

theorem run_acceptOneOf (runes : List String) : (acceptOneOf runes).run env r =
    ofMove .flag (r.acceptOneOf fun rune => runes.contains rune.text) := by
  simp [run]

theorem run_acceptRun (runes : List String) : (acceptRun runes).run env r =
    match r.acceptRun fun rune => runes.contains rune.text with
    | some taken => ofMove .count taken
    | none => { events := [], reader := r, outcome := .stuck } := by
  rw [run, Mode.checked_acceptRun]
  cases r.acceptRun fun rune => runes.contains rune.text <;> rfl

theorem run_acceptUntil (last : String) :
    (acceptUntil last).run env r = ofMove .flag (r.acceptUntil last) := by
  simp [run]

theorem run_acceptWhile (p : Predicate) :
    (acceptWhile p).run env r = ofMove .flag (r.acceptWhile p.admits) := by
  simp [run]

theorem run_acceptUntilMatch (p : Predicate) :
    (acceptUntilMatch p).run env r = ofMove .flag (r.acceptUntilMatch p.admits) := by
  simp [run]

end Step

end StateLexer
