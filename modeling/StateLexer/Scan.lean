import StateLexer.Session.Consumer

/-!
# Scanning

The two ways to scan an input without a session at hand: all at once
(`Lexer.scan`), as a list of tokens, and bit by bit (`TokenStream`), as far as
they are asked for. A strict scan ends with an error at the first error token.
-/

namespace StateLexer

/-! ## All at once -/

/-- The tokens of the source, or why there are none, with the session that is
    left. A strict scan refuses error tokens, and reports where in `file` the
    first one is, once it has given up the session. -/
def Lexer.scan {n : Nat} (lexer : Lexer n) (settings : Settings) (strict : Bool)
    (file : Option String) (source : ByteArray) : Reply (List Token) × Session n :=
  let s := (Session.new lexer settings).launch true source
  let (harvest, s) := s.collect true (fun t => strict && t.kind = .error) s.tokenBound #[]
  match harvest.stop with
  | .ended =>
    match s.failure with
    | some fault => (.error (.failed fault), s.abandon.2)
    | none => (.value harvest.tokens.toList, s.close.2)
  | .unwanted t =>
    match s.abandon with
    | (.never, s) => (.never, s)
    | (_, s) => (.error (.invalidToken (.ofToken source file t)), s)
  | .enough => (.never, s)
  | .silence => (.never, s)

/-! ## Bit by bit -/

/-- A source whose tokens are taken when they are asked for. The scan starts
    with the first of them, and takes the settings in force then. -/
inductive TokenStream (n : Nat)
  | unopened (lexer : Lexer n) (source : ByteArray)
  | active (s : Session n)
  | ended

namespace TokenStream

variable {n : Nat}

/-- The stream after an iteration: it ends when there are no more tokens, with
    an error or without. -/
def after (iteration : Iteration × Session n) : Iteration × TokenStream n :=
  match iteration.1.ending with
  | .more => (iteration.1, active iteration.2)
  | _ => (iteration.1, ended)

/-- Takes tokens, up to `limit` if there is one. If none are asked for, nothing
    happens. -/
def take (settings : Settings) (limit : Option Nat) (stream : TokenStream n) :
    Iteration × TokenStream n :=
  if limit = some 0 then ({ tokens := [], ending := .more }, stream)
  else
    match stream with
    | unopened lexer source =>
      after (((Session.new lexer settings).launch true source).iterate limit)
    | active s => after (s.iterate limit)
    | ended => ({ tokens := [], ending := .done }, ended)

end TokenStream

end StateLexer
