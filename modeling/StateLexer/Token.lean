import StateLexer.Text.Quoted

/-!
# Tokens

What a lexer produces: tokens, each of a kind, with the byte offset where it
begins and the text that it covers. Where the input is well-formed UTF-8, a
token ends where its text does (`Token.stop`), and the texts of the tokens of
a complete run spell the input (`Token.concat`).
-/

namespace StateLexer

/-- The kinds of tokens. -/
inductive Kind
  /-- A span that is no token of any class. -/
  | error
  /-- The end of the input. -/
  | endOfInput
  | space
  | newline
  /-- A dotted numeric address. -/
  | address
  | hostname
  deriving DecidableEq

namespace Kind

/-- The kinds, in their order. -/
def all : List Kind :=
  [error, endOfInput, space, newline, address, hostname]

/-- The name under which the kind is written. -/
def name : Kind → String
  | error => "ERROR"
  | endOfInput => "EOF"
  | space => "SPACE"
  | newline => "NEWLINE"
  | address => "IP"
  | hostname => "HOSTNAME"

/-- The kind of a name. -/
def ofName? (name : String) : Option Kind :=
  all.find? (·.name = name)

theorem ofName?_name (k : Kind) : ofName? k.name = some k := by
  cases k <;> decide

/-- The kind marks a place in the stream and names no class of tokens. -/
def isSentinel (k : Kind) : Bool :=
  k = error || k = endOfInput

end Kind

/-- A piece of the input with its kind. -/
structure Token where
  kind : Kind
  /-- The byte offset where it begins. -/
  pos : Int
  /-- The text that it covers. -/
  text : String
  deriving DecidableEq

namespace Token

/-- The byte offset behind the token, if its text is spelled as in the input. -/
def stop (t : Token) : Int :=
  t.pos + t.text.utf8ByteSize

/-- The text cut to 17 characters and three points, if it has more than 20. -/
def abridge (text : String) : String :=
  if text.length > 20 then String.ofList (text.toList.take 17) ++ "..." else text

/-- The token on one short line. -/
def render (t : Token) : String :=
  "Item(" ++ t.kind.name ++ ", " ++ Text.quote (abridge t.text) ++ ", " ++ toString t.pos ++ ")"

/-- The texts of the tokens, one behind the other. -/
def concat (ts : List Token) : String :=
  String.join (ts.map (·.text))

theorem concat_cons (t : Token) (ts : List Token) : concat (t :: ts) = t.text ++ concat ts := by
  rw [concat, List.map_cons, String.join_cons]
  rfl

end Token

end StateLexer
