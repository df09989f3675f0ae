import StateLexer.CharClass

/-!
# Runes and predicates

Reading yields *runes*: characters, and `none` once the input has ended. The
end has a spelling too, the empty text, so a rune is a text of at most one
character. A set of runes is given by the texts in it; one that holds the
empty text admits the end of the input, while texts of several characters
never match a rune.
-/

namespace StateLexer

/-- A character of the input, or `none` for its end. -/
abbrev Rune := Option Char

/-- The spelling of a rune; the end of the input is the empty text. -/
def Rune.text : Rune → String
  | none => ""
  | some c => c.toString

/-- A condition on runes, in the words of a grammar. -/
inductive Predicate
  /-- The characters of a class. -/
  | isIn (k : CharClass)
  /-- The texts that are listed. -/
  | oneOf (members : List String)
  /-- Those that one of the conditions admits. -/
  | anyOf (alternatives : List Predicate)

mutual

/-- The text satisfies the condition. -/
def Predicate.holds : Predicate → String → Bool
  | .isIn k, text =>
    match text.toList with
    | [c] => k.has c
    | _ => false
  | .oneOf members, text => members.contains text
  | .anyOf alternatives, text => Predicate.someHolds alternatives text

/-- The text satisfies one of the conditions. -/
def Predicate.someHolds : List Predicate → String → Bool
  | [], _ => false
  | p :: ps, text => p.holds text || Predicate.someHolds ps text

end

/-- The character satisfies the condition. -/
def Predicate.admits (p : Predicate) (c : Char) : Bool :=
  p.holds c.toString

end StateLexer
