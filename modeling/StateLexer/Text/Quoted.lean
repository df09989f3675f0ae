import StateLexer.Text.Printable

/-!
# Quoted texts

A message quotes a text so that it can be told apart from the words around it
and contains no control characters (`Text.quote`). The quotation marks are
single, unless the text holds a single mark and no double one. Inside, the mark
in use and the backslash are escaped, line feed, carriage return and tab have
escapes of their own, every other character that is not printable is written
by its code point in hexadecimal, and the rest stand for themselves.
-/

namespace StateLexer.Text

/-- The number in lower-case hexadecimal, filled up with zeros to `width` digits. -/
def hexadecimal (width n : Nat) : String :=
  let digits := Nat.toDigits 16 n
  String.ofList (List.replicate (width - digits.length) '0' ++ digits)

/-- The escape of a character by its code point: two, four or eight digits,
    whichever are the fewest that hold it. -/
def escapeCodePoint (c : Char) : String :=
  if c.toNat < 0x100 then "\\x" ++ hexadecimal 2 c.toNat
  else if c.toNat < 0x10000 then "\\u" ++ hexadecimal 4 c.toNat
  else "\\U" ++ hexadecimal 8 c.toNat

/-- How a character is written between the quotation marks `mark`. -/
def quoteChar (mark c : Char) : String :=
  if c = mark || c = '\\' then String.ofList ['\\', c]
  else if c = '\n' then "\\n"
  else if c = '\r' then "\\r"
  else if c = '\t' then "\\t"
  else if isPrintable c then c.toString
  else escapeCodePoint c

/-- The quotation mark for a text: single, unless the text holds a single mark
    and no double one. -/
def quotationMark (text : List Char) : Char :=
  if '\x27' ∈ text ∧ '\x22' ∉ text then '\x22' else '\x27'

/-- The text between quotation marks, with its special characters escaped. -/
def quote (text : String) : String :=
  let mark := quotationMark text.toList
  mark.toString ++ String.join (text.toList.map (quoteChar mark)) ++ mark.toString

end StateLexer.Text
