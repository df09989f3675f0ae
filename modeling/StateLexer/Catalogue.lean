import StateLexer.Grammar
import StateLexer.Settings

/-!
# The catalogue

The names by which a grammar that is written down refers to the library's
parts: conditions on characters, recognizers and states. What goes by a name is
found by it (`condition?_conditionName`, `tokenClass?_factoryName`, `mem_states_iff`).
-/

namespace StateLexer.Catalogue

/-- The part of a state's name that all states have in common. -/
def statePart : String := "scan_"

/-- The name for building states with a recognizer that has the given name: the
    part that all states have in common is left out. -/
def factoryName (name : String) : String :=
  if name.startsWith statePart then String.ofList (name.toList.drop statePart.length) else name

/-- The name of the condition that asks for a class of characters. -/
def conditionName : CharClass → String
  | .space => "is_space"
  | .whitespace => "is_whitespace"
  | .quote => "is_quote"
  | .newline => "is_newline"
  | .lower => "is_alpha_lower"
  | .upper => "is_alpha_upper"
  | .letter => "is_alpha"
  | .digit => "is_digit"
  | .alphanumeric => "is_alnum"
  | .hostname => "is_hostname_char"

/-- The class of characters that a condition asks for. -/
def condition? (name : String) : Option CharClass :=
  CharClass.all.find? fun k => conditionName k = name

/-- The class of tokens whose recognizer has the name. -/
def tokenClass? (name : String) : Option TokenClass :=
  TokenClass.all.find? fun k => factoryName k.stateName = name

theorem condition?_conditionName (k : CharClass) : condition? (conditionName k) = some k := by
  cases k <;> decide

theorem tokenClass?_factoryName (k : TokenClass) :
    tokenClass? (factoryName k.stateName) = some k := by
  cases k <;> decide +kernel

/-- The states that a grammar can name: its own, under the names that it gives
    them, and those of the library. -/
def states {n : Nat} (names : Fin n → String) : List (String × State n) :=
  List.ofFn (fun i => (names i, State.custom i)) ++
    Standard.all.map fun q => (q.name, State.standard q)

/-- Every state of a grammar is listed, under its name and under no other. -/
theorem mem_states_iff {n : Nat} (g : Grammar n) (name : String) (q : State n) :
    (name, q) ∈ states (fun i => (g i).name) ↔ name = q.name g := by
  cases q with
  | standard q =>
    have hall : q ∈ Standard.all := Standard.mem_all q
    simp [states, State.name, List.mem_ofFn, hall, eq_comm]
  | custom i => simp [states, State.name, List.mem_ofFn, eq_comm]

end StateLexer.Catalogue
