import StateLexer.Text.Quoted

/-!
# Notices

A scanner keeps a journal of what happens, as notices: the course of a scan,
the spans of input that are no tokens and why, and what the consumer did. Each
notice has a source, a level and a message.
-/

namespace StateLexer

/-- What is wrong with a span that begins like a token of some class. -/
inductive Flaw
  /-- A number of an address has no digits. -/
  | octetMissing (index : Nat)
  /-- A number of an address is not followed by a point. -/
  | octetUnended (index : Nat)
  /-- Something that continues an address stands behind its last number. -/
  | addressTooLong
  | labelStart
  | labelEnd
  /-- A label is not followed by a point. -/
  | labelUnended
  | labelTooLong
  | nameTooLong
  deriving DecidableEq

/-- The greatest length of a label, in bytes. -/
def maxLabelLength : Nat := 63

/-- The greatest length of a name, in bytes. -/
def maxNameLength : Nat := 253

/-- The flaw in words. -/
def Flaw.message : Flaw → String
  | octetMissing index => "octet " ++ toString index ++ ": expected a digit"
  | octetUnended index => "octet " ++ toString index ++ ": out of range or missing '.'"
  | addressTooLong => "too many octets or digits"
  | labelStart => "label must start with a letter or digit"
  | labelEnd => "label must not end with '-'"
  | labelUnended => "label must be followed by '.'"
  | labelTooLong => "label longer than " ++ toString maxLabelLength ++ " bytes"
  | nameTooLong => "name longer than " ++ toString maxNameLength ++ " bytes"

/-- An event of a scan, as the journal records it. -/
inductive Notice
  /-- The scan of so many bytes begins. -/
  | started (bytes : Nat)
  /-- The scan is cancelled, and no state is called any more. -/
  | cancelledBetween (offset : Nat)
  /-- The scan is cancelled within a state call. -/
  | cancelledWithin (offset tokens : Nat)
  /-- A state call ends with a fault. -/
  | failed (offset : Nat)
  /-- The scan is over. -/
  | finished (tokens : Nat)
  /-- A span begins like a token of some class and is none. -/
  | malformed (offset : Nat) (flaw : Flaw) (text : String)
  /-- A span begins like no token. -/
  | unrecognized (offset : Nat) (text : String)
  /-- The consumer has taken the remaining tokens. -/
  | drained (tokens : Nat)
  /-- The producer did not end in time. -/
  | stillRunning (thread : String)
  deriving DecidableEq

namespace Notice

/-- The part of the library that the notice comes from. -/
def source : Notice → String
  | malformed .. => "scanr.states.base"
  | unrecognized .. => "scanr.states.dispatch"
  | _ => "scanr.scanner.core"

/-- How serious the notice is. -/
def level : Notice → String
  | stillRunning _ => "WARNING"
  | _ => "DEBUG"

/-- The notice in words. -/
def message : Notice → String
  | started bytes => "scan started: " ++ toString bytes ++ " bytes"
  | cancelledBetween offset =>
    "scan cancelled at offset " ++ toString offset ++ " between states"
  | cancelledWithin offset tokens =>
    "scan cancelled at offset " ++ toString offset ++ " after " ++ toString tokens ++ " items"
  | failed offset => "state function failed at offset " ++ toString offset
  | finished tokens => "scan finished: " ++ toString tokens ++ " items emitted"
  | malformed offset flaw text =>
    "invalid span at offset " ++ toString offset ++ " (" ++ flaw.message ++ "): " ++
      Text.quote text
  | unrecognized offset text =>
    "unrecognized input at offset " ++ toString offset ++ ": " ++ Text.quote text
  | drained tokens => "drained " ++ toString tokens ++ " items"
  | stillRunning thread => "producer thread " ++ Text.quote thread ++ " still running"

end Notice

/-- The source under which a module's notices are filed: its name, below the
    name of the library unless it stands there already. -/
def qualify (name : String) : String :=
  if name = "scanr" ∨ name.startsWith "scanr." then name else "scanr." ++ name

end StateLexer
