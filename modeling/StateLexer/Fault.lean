import StateLexer.Text.Location
import StateLexer.Text.Quoted
import StateLexer.Text.Seconds
import StateLexer.Token

/-!
# Faults and errors

Malformed input is no error: it becomes a token of kind `error`. What can go
wrong is the use of the engine. A *fault* ends a state call on the producer's
side: a step back without a step forward, a token that is not accepted, or one
that the grammar raises on purpose. An *error* answers a request on the
consumer's side. Both have a label and a message; a fault can also be quoted
in one line, which is how the consumer is told of it.
-/

namespace StateLexer

/-- Why a channel does not accept a token. -/
inductive Refusal
  /-- The consumer wants no more tokens. -/
  | cancelled
  /-- The stream has ended. -/
  | closed
  deriving DecidableEq

/-- The sorts of faults that a grammar can raise. -/
inductive FaultSort
  | value
  | runtime
  | key
  | cursor
  | cancellation
  deriving DecidableEq

namespace FaultSort

/-- The sorts, in the order in which they are listed. -/
def all : List FaultSort :=
  [value, runtime, key, cursor, cancellation]

/-- The label of the sort. -/
def label : FaultSort → String
  | value => "ValueError"
  | runtime => "RuntimeError"
  | key => "KeyError"
  | cursor => "CursorError"
  | cancellation => "ScanCancelled"

/-- The sort of a label. -/
def ofLabel? (label : String) : Option FaultSort :=
  all.find? (·.label = label)

theorem ofLabel?_label (sort : FaultSort) : ofLabel? sort.label = some sort := by
  cases sort <;> decide

end FaultSort

/-- What ends a state call early. -/
inductive Fault
  /-- A step back at the offset, with no step forward to undo. -/
  | misplacedBackup (offset : Nat)
  /-- A token that the channel did not accept. -/
  | refused (why : Refusal)
  /-- A fault that the grammar raises. -/
  | thrown (sort : FaultSort) (text : String)
  deriving DecidableEq

namespace Fault

/-- The label of the fault. -/
def label : Fault → String
  | misplacedBackup _ => FaultSort.cursor.label
  | refused .cancelled => FaultSort.cancellation.label
  | refused .closed => "ChannelClosedError"
  | thrown sort _ => sort.label

/-- The text that the fault carries. -/
def text : Fault → String
  | misplacedBackup offset =>
    "backup() without a preceding next() at offset " ++ toString offset
  | refused .cancelled => "scan cancelled by consumer"
  | refused .closed => "send on closed channel"
  | thrown _ text => text

/-- The message of the fault: its text, which a missing key has in quotes. -/
def message : Fault → String
  | thrown .key text => Text.quote text
  | fault => fault.text

/-- The fault in one line: its label and, in quotes, its text. -/
def quoted (f : Fault) : String :=
  f.label ++ "(" ++ Text.quote f.text ++ ")"

/-- The fault says that the scan is cancelled, and is no failure of the grammar. -/
def isCancellation : Fault → Bool
  | refused .cancelled => true
  | thrown .cancellation _ => true
  | _ => false

end Fault

/-! ## Invalid tokens -/

/-- An error token that a strict consumer met. -/
structure InvalidToken where
  /-- The text of the token. -/
  text : String
  /-- The byte offset where it begins. -/
  offset : Int
  /-- Its line, if known. -/
  line : Option Int := none
  /-- Its column, if known. -/
  column : Option Int := none
  /-- The file that holds the source. -/
  file : Option String := none
  deriving DecidableEq

namespace InvalidToken

/-- Where the token is: file, line and column, as far as they are known, each
    with a colon behind it. A column without its line says nothing. -/
def place (e : InvalidToken) : String :=
  let file := match e.file with
    | none => ""
    | some "" => ""
    | some name => name ++ ":"
  match e.line, e.column with
  | none, _ => file
  | some line, none => file ++ toString line ++ ":"
  | some line, some column => file ++ toString line ++ ":" ++ toString column ++ ":"

/-- The text without the colons at its end. -/
def dropColons (text : String) : String :=
  String.ofList (text.toList.reverse.dropWhile (· = ':')).reverse

/-- The message: where the token is, if anything is known, then its text and offset. -/
def message (e : InvalidToken) : String :=
  (if e.place = "" then "" else dropColons e.place ++ " ") ++
    "invalid token " ++ Text.quote e.text ++ " at offset " ++ toString e.offset

/-- What a strict consumer reports of an error token of the source. -/
def ofToken (bytes : ByteArray) (file : Option String) (t : Token) : InvalidToken :=
  let l := locate bytes t.pos file
  { text := t.text, offset := t.pos, line := l.line, column := l.column, file }

end InvalidToken

/-! ## Errors of the consumer -/

/-- Why a request is not granted. -/
inductive ScanError
  /-- A scanner runs once only. -/
  | alreadyStarted
  /-- A scanner that has not been started has no tokens. -/
  | notStarted
  /-- All tokens have been taken. -/
  | exhausted
  /-- A state call ended with the fault. -/
  | failed (fault : Fault)
  /-- No token arrived in time. -/
  | timedOut (limit : Seconds)
  /-- The fault itself, where the consumer runs the states on its own. -/
  | raised (fault : Fault)
  /-- A strict consumer met an error token. -/
  | invalidToken (e : InvalidToken)
  deriving DecidableEq

namespace ScanError

/-- The label of the error. -/
def label : ScanError → String
  | alreadyStarted => "ScannerStateError"
  | notStarted => "ScannerStateError"
  | exhausted => "ChannelClosedError"
  | failed _ => "ScanFailedError"
  | timedOut _ => "TimeoutError"
  | raised fault => fault.label
  | invalidToken _ => "InvalidTokenError"

/-- The message of the error. -/
def message : ScanError → String
  | alreadyStarted => "scanner already started; create one per input"
  | notStarted => "scanner not started; call start() first"
  | exhausted => "scan finished; no more items"
  | failed fault => "state function failed: " ++ fault.quoted
  | timedOut limit => "no item received within " ++ limit.text ++ "s"
  | raised fault => fault.message
  | invalidToken e => e.message

end ScanError

end StateLexer
