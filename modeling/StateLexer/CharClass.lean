/-!
# Character classes

The classes of characters that token rules are made of. All of them are sets
of ASCII characters: a letter with an accent is in none, and neither is the
replacement character that stands for malformed bytes.
-/

namespace StateLexer

/-- A named class of characters. -/
inductive CharClass
  | space
  | whitespace
  | quote
  | newline
  | lower
  | upper
  | letter
  | digit
  | alphanumeric
  | hostname
  deriving DecidableEq

namespace CharClass

/-- The classes, in the order in which they are listed. -/
def all : List CharClass :=
  [space, whitespace, quote, newline, lower, upper, letter, digit, alphanumeric, hostname]

/-- The character belongs to the class. -/
def has : CharClass → Char → Bool
  | space, c => c = ' '
  | whitespace, c => c = ' ' || c = '\t'
  | quote, c => c = '\x22' || c = '\x27' || c = '\x60'
  | newline, c => c = '\r' || c = '\n'
  | lower, c => c.isLower
  | upper, c => c.isUpper
  | letter, c => c.isAlpha
  | digit, c => c.isDigit
  | alphanumeric, c => c.isAlphanum
  | hostname, c => c.isAlphanum || c = '-'

/-- The characters of the class, by code point. -/
def members (k : CharClass) : List Char :=
  ((List.range 0x80).map Char.ofNat).filter k.has

end CharClass

end StateLexer
