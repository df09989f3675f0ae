import StateLexer.Recognizer.Address
import StateLexer.Recognizer.Layout
import StateLexer.Recognizer.Name
import StateLexer.Step

/-!
# Recognizers

A recognizer is made of two parts. Its *matcher* reads on and gives a verdict:
accepted, rejected or invalid. A *transition* turns the verdict into tokens and
into the state that comes next, so that one recognizer can serve in several
grammars:

* what is accepted is emitted, or skipped if the transition says so;
* what is rejected has not been read, and nothing is emitted;
* what is invalid is emitted as an error, once.

A recognizer that has read nothing at the end of the input, and does not find
it invalid, leads nowhere: any other state would find the input at its end too.
-/

namespace StateLexer

/-! ## Targets and transitions -/

/-- Where a state leads, over a type `σ` of states. -/
inductive Target (σ : Type)
  /-- The scan is over. -/
  | halt
  /-- The home state of the scanner. -/
  | home
  | state (q : σ)
  deriving DecidableEq

/-- The state that a target stands for, if any. -/
def Target.resolve {σ : Type} (home : σ) : Target σ → Option σ
  | .halt => none
  | .home => some home
  | .state q => some q

/-- Where a recognizer leads, and what it emits. -/
structure Transition (σ : Type) where
  onSuccess : Target σ := .home
  onError : Target σ := .home
  onReject : Target σ := .home
  /-- What is accepted is emitted, and not skipped. -/
  emits : Bool := true
  /-- The kind to emit in place of the recognizer's own. -/
  kind : Option Kind := none
  deriving DecidableEq

/-- The transition that stops the scanner, whatever the verdict. -/
def Transition.terminal {σ : Type} (emits : Bool) (kind : Option Kind) : Transition σ :=
  { onSuccess := .halt, onError := .halt, onReject := .halt, emits, kind }

/-! ## Matchers -/

/-- What a matcher decides. -/
inductive Verdict
  | accepted
  | rejected
  | invalid
  deriving DecidableEq

namespace Verdict

/-- The verdicts, in their order. -/
def all : List Verdict :=
  [accepted, rejected, invalid]

/-- The name under which the verdict is written. -/
def name : Verdict → String
  | accepted => "ACCEPTED"
  | rejected => "REJECTED"
  | invalid => "INVALID"

/-- The verdict of a name. -/
def ofName? (name : String) : Option Verdict :=
  all.find? (·.name = name)

theorem ofName?_name (v : Verdict) : ofName? v.name = some v := by
  cases v <;> decide

end Verdict

/-- The classes of tokens that have a recognizer of their own. -/
inductive TokenClass
  | space
  | whitespace
  | newline
  | address
  | label
  | domainName
  deriving DecidableEq

namespace TokenClass

/-- The classes, in the order in which they are listed. -/
def all : List TokenClass :=
  [space, whitespace, newline, address, label, domainName]

/-- Reads a token of the class. -/
def read {F : Type → Type} (m : Mode F) (settings : Settings) : TokenClass → Reader → F Reading
  | space, r => Layout.readSpaces m r
  | whitespace, r => Layout.readBlanks m r
  | newline, r => Layout.readNewline m r
  | address, r => Address.read m settings.canonicalOctets r
  | label, r => Label.read m r
  | domainName, r => DomainName.read m r

@[simp] theorem checked_read {settings settings' : Settings} (k : TokenClass) (r : Reader) :
    k.read (.checked settings) settings' r =
      .pure (k.read .plain settings' r).1 (k.read .plain settings' r).2 := by
  cases k with
  | space => exact Layout.checked_readSpaces r
  | whitespace => exact Layout.checked_readBlanks r
  | newline => exact Layout.checked_readNewline r
  | address => exact Address.checked_read r
  | label => exact Label.checked_read r
  | domainName => exact DomainName.checked_read r

/-- The kind of the tokens of the class. -/
def kind : TokenClass → Kind
  | space => .space
  | whitespace => .space
  | newline => .newline
  | address => .address
  | label => .hostname
  | domainName => .hostname

end TokenClass

/-- Gives a verdict on the input at the reader. -/
inductive Matcher
  /-- Reads a token of a class. -/
  | token (k : TokenClass)
  /-- Makes steps, and gives the verdict `result`, or `otherwise`, if there is
      one, unless the last step is a success. -/
  | steps (steps : List Step) (result : Verdict) (otherwise : Option Verdict)

namespace Matcher

/-- The number of steps that the matcher makes. -/
def stepCount : Matcher → Nat
  | token _ => 0
  | steps ss _ _ => ss.length

/-- Records a reading: a flaw is noted in the journal with the window. -/
def ofReading (reading : Reading) (r : Reader) : Run Verdict :=
  match reading with
  | .accepted => .pure .accepted r
  | .rejected => .pure .rejected r
  | .malformed flaw =>
    (Run.note (.malformed r.start flaw r.pending) r).andThen fun _ r => .pure .invalid r

/-- The result of steps, with an alternative, if there is one, for a last step
    that is no success. -/
def choose {α : Type} (value : Value) (result : α) (otherwise : Option α) : α :=
  if value.isSuccess then result else otherwise.getD result

/-- Gives the verdict. -/
def run (env : Env) : Matcher → Reader → Run Verdict
  | token k, r => (k.read (.checked env.settings) env.settings r).andThen ofReading
  | steps ss result otherwise, r =>
    (Step.runAll env ss .nothing r).andThen fun value r =>
      .pure (choose value result otherwise) r

theorem run_token (env : Env) (k : TokenClass) (r : Reader) : (token k).run env r =
    ofReading (k.read .plain env.settings r).1 (k.read .plain env.settings r).2 := by
  rw [run, TokenClass.checked_read, Run.pure_andThen]

end Matcher

/-! ## Recognizers -/

/-- A matcher with the kind of token that it recognizes, under a name. -/
structure Recognizer where
  name : String
  kind : Kind
  matcher : Matcher

namespace Recognizer

/-- Nothing has been read since the window began, and nothing is left. The
    input is looked at only if nothing has been read. -/
def exhausted {F : Type → Type} (m : Mode F) (r : Reader) : F Bool :=
  if r.pos = r.start then m.andThen (m.peek r) fun rune r => m.ret rune.isNone r
  else m.ret false r

/-- Emits or skips what has been accepted. -/
def settle {σ : Type} (env : Env) (kind : Kind) (t : Transition σ) (r : Reader) : Run Unit :=
  if t.emits then .emit env (t.kind.getD kind) r else .pure () r.renew

/-- What a recognizer does once there is a verdict; yields the state that comes next. -/
def conclude {σ : Type} (env : Env) (home : σ) (kind : Kind) (t : Transition σ)
    (verdict : Verdict) (r : Reader) : Run (Option σ) :=
  match verdict with
  | .invalid =>
    (Run.emit env .error r).andThen fun _ r => .pure (t.onError.resolve home) r
  | .rejected =>
    (exhausted (.checked env.settings) r).andThen fun spent r =>
      .pure (if spent then none else t.onReject.resolve home) r
  | .accepted =>
    (exhausted (.checked env.settings) r).andThen fun spent r =>
      (settle env kind t r).andThen fun _ r =>
        .pure (if spent then none else t.onSuccess.resolve home) r

/-- Calls the recognizer as a state with the transition; yields the state that
    comes next. -/
def call {σ : Type} (env : Env) (home : σ) (recognizer : Recognizer) (t : Transition σ)
    (r : Reader) : Run (Option σ) :=
  (recognizer.matcher.run env r).andThen (conclude env home recognizer.kind t)

@[simp] theorem checked_exhausted {settings : Settings} (r : Reader) :
    exhausted (.checked settings) r =
      .pure (exhausted .plain r).1 (exhausted .plain r).2 := by
  simp only [exhausted, Mode.checked_peek, Mode.checked_andThen, Run.pure_andThen]
  split <;> rfl

section Conclude

variable {σ : Type} {env : Env} {home : σ} {kind : Kind} {t : Transition σ} {r : Reader}

theorem conclude_rejected : conclude env home kind t .rejected r =
    .pure (if (exhausted .plain r).1 then none else t.onReject.resolve home)
      (exhausted .plain r).2 := by
  rw [conclude, checked_exhausted, Run.pure_andThen]

theorem conclude_accepted : conclude env home kind t .accepted r =
    (settle env kind t (exhausted .plain r).2).andThen fun _ r' =>
      .pure (if (exhausted .plain r).1 then none else t.onSuccess.resolve home) r' := by
  rw [conclude, checked_exhausted, Run.pure_andThen]

end Conclude

end Recognizer

end StateLexer
