import StateLexer.Recognizer

/-!
# Grammars

A grammar is a set of states. Some come with the library: a state for each
class of tokens, which emits what it recognizes and goes home; `dispatch`,
which looks at the next rune and hands over to the state for it; and `unknown`,
which emits what can begin no token as an error. The others are defined by the
grammar, either as a recognizer with a transition or as a script of steps.

The states that a grammar defines are numbered, and a state names others by
their numbers, so every target exists.
-/

namespace StateLexer

/-- The states that come with the library. -/
inductive Standard
  /-- Recognizes a token of the class, emits it and goes home. -/
  | token (k : TokenClass)
  /-- Hands over by the next rune. -/
  | dispatch
  /-- Emits what can begin no token. -/
  | unknown
  deriving DecidableEq

/-- The states of a grammar that defines `n` of its own. -/
inductive State (n : Nat)
  | standard (q : Standard)
  | custom (i : Fin n)
  deriving DecidableEq

/-- A state that is written out as steps, over a type `σ` of states. -/
structure Script (σ : Type) where
  name : String
  steps : List Step
  /-- Where it leads. -/
  next : Target σ
  /-- Where it leads unless the last step is a success, if that differs. -/
  otherwise : Option (Target σ) := none
  /-- Where it leads at the end of the input, without making the steps, if
      that differs. -/
  atEnd : Option (Target σ) := none

/-- How a grammar defines a state, over a type `σ` of states. -/
inductive Definition (σ : Type)
  | recognizer (r : Recognizer) (t : Transition σ)
  | script (s : Script σ)

/-- The name of the state. -/
def Definition.name {σ : Type} : Definition σ → String
  | recognizer r _ => r.name
  | script s => s.name

/-- The number of steps in the definition. -/
def Definition.stepCount {σ : Type} : Definition σ → Nat
  | recognizer r _ => r.matcher.stepCount
  | script s => s.steps.length

/-- A grammar that defines `n` states. -/
abbrev Grammar (n : Nat) := Fin n → Definition (State n)

/-- The grammar that defines no states. -/
def Grammar.standard : Grammar 0 :=
  fun i => i.elim0

/-! ## Names -/

/-- The name of the state for a class of tokens. -/
def TokenClass.stateName : TokenClass → String
  | space => "scan_space"
  | whitespace => "scan_whitespace"
  | newline => "scan_newline"
  | address => "scan_ip"
  | label => "scan_hostname"
  | domainName => "scan_domain_name"

/-- The recognizer for a class of tokens. -/
def TokenClass.recognizer (k : TokenClass) : Recognizer :=
  { name := k.stateName, kind := k.kind, matcher := .token k }

namespace Standard

/-- The states, in the order in which they are listed. -/
def all : List Standard :=
  TokenClass.all.map token ++ [dispatch, unknown]

theorem mem_all (q : Standard) : q ∈ all := by
  cases q with
  | token k => cases k <;> decide
  | dispatch => decide
  | unknown => decide

/-- The name of the state. -/
def name : Standard → String
  | token k => k.stateName
  | dispatch => "scan_tokens"
  | unknown => "scan_unknown"

end Standard

/-- The name of a state of the grammar. -/
def State.name {n : Nat} (g : Grammar n) : State n → String
  | standard q => q.name
  | custom i => (g i).name

/-! ## Calls -/

/-- A rune that begins a token, so that an unknown span ends in front of it. -/
def beginsToken (c : Char) : Bool :=
  CharClass.whitespace.has c || CharClass.newline.has c || CharClass.alphanumeric.has c

/-- The states of a grammar, wired up: where to begin, and where home is. -/
structure Lexer (n : Nat) where
  grammar : Grammar n
  start : State n
  home : State n

namespace Lexer

variable {n : Nat}

/-- The lexer of the grammar that defines no states, which begins at `dispatch`
    and has it as its home. -/
def standard : Lexer 0 :=
  { grammar := .standard, start := .standard .dispatch, home := .standard .dispatch }

/-- As many tokens as a call of one of the states can offer, and one more. -/
def burst (lexer : Lexer n) : Nat :=
  2 + ((List.ofFn lexer.grammar).map Definition.stepCount).foldr (· + ·) 0

/-- The state for a token that begins with the character. -/
def stateFor (c : Char) : Standard :=
  if CharClass.whitespace.has c then .token .whitespace
  else if CharClass.newline.has c then .token .newline
  else if CharClass.digit.has c then .token .address
  else if CharClass.letter.has c then .token .domainName
  else .unknown

/-- Calls `dispatch`: emits the end of the input and halts there, and elsewhere
    leads to the state for the next rune. -/
def dispatch (env : Env) (r : Reader) : Run (Option (State n)) :=
  ((Mode.checked env.settings).peek r).andThen fun rune r =>
    match rune with
    | none => (Run.emit env .endOfInput r).andThen fun _ r => .pure none r
    | some c => .pure (some (.standard (stateFor c))) r

/-- Calls `unknown`: reads a rune, and on to the next that begins a token. -/
def unknown (env : Env) (home : State n) (r : Reader) : Run (Option (State n)) :=
  ((Mode.checked env.settings).acceptUntilMatch beginsToken r.next.2).andThen fun _ r =>
    (Run.note (.unrecognized r.start r.pending) r).andThen fun _ r =>
      (Run.emit env .error r).andThen fun _ r => .pure (some home) r

/-- Calls a script. The input is looked at only if the end makes a difference. -/
def script (env : Env) (home : State n) (s : Script (State n)) (r : Reader) :
    Run (Option (State n)) :=
  let steps (r : Reader) :=
    (Step.runAll env s.steps .nothing r).andThen fun value r =>
      .pure ((Matcher.choose value s.next s.otherwise).resolve home) r
  match s.atEnd with
  | none => steps r
  | some target =>
    ((Mode.checked env.settings).peek r).andThen fun rune r =>
      if rune.isNone then .pure (target.resolve home) r else steps r

/-- Calls a state; yields the state that comes next, or none if the scan is over. -/
def call (lexer : Lexer n) (env : Env) : State n → Reader → Run (Option (State n))
  | .standard (.token k), r => k.recognizer.call env lexer.home {} r
  | .standard .dispatch, r => dispatch env r
  | .standard .unknown, r => unknown env lexer.home r
  | .custom i, r =>
    match lexer.grammar i with
    | .recognizer recognizer t => recognizer.call env lexer.home t r
    | .script s => script env lexer.home s r

/-! ## As plain moves -/

theorem dispatch_of_end {env : Env} {r : Reader} (h : r.peek.1 = none) :
    (dispatch env r : Run (Option (State n))) =
      (Run.emit env .endOfInput r.peek.2).andThen fun _ r => .pure none r := by
  simp only [dispatch, Mode.checked_peek, Run.pure_andThen, h]

theorem dispatch_of_rune {env : Env} {r : Reader} {c : Char} (h : r.peek.1 = some c) :
    (dispatch env r : Run (Option (State n))) =
      .pure (some (.standard (stateFor c))) r.peek.2 := by
  simp only [dispatch, Mode.checked_peek, Run.pure_andThen, h]

theorem unknown_of_accept {env : Env} {home : State n} {r r' : Reader}
    (h : (r.next.2.acceptUntilMatch beginsToken).2 = r') : unknown env home r =
      (Run.note (.unrecognized r'.start r'.pending) r').andThen fun _ r =>
        (Run.emit env .error r).andThen fun _ r => .pure (some home) r := by
  rw [unknown, Mode.checked_acceptUntilMatch, Run.pure_andThen, h]

theorem script_of_atEnd {env : Env} {home : State n} {s : Script (State n)} {r : Reader}
    {target : Target (State n)} (h : s.atEnd = some target) : script env home s r =
      if r.peek.1.isNone then .pure (target.resolve home) r.peek.2
      else (Step.runAll env s.steps .nothing r.peek.2).andThen fun value r =>
        .pure ((Matcher.choose value s.next s.otherwise).resolve home) r := by
  simp only [script, h, Mode.checked_peek, Run.pure_andThen]

end Lexer

end StateLexer
