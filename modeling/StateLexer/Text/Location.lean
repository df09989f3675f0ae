import StateLexer.Text.Utf8

/-!
# Locations

A token carries the byte offset where it begins; a location says where that is
for a person: in which line, and how far into it (`locate`). Lines and columns
count from one. A line ends with a line feed, a carriage return, or both in
that order, which are one ending. A column counts characters, as the text of
the line so far shows them.
-/

namespace StateLexer

/-- A place in a source text. -/
structure Location where
  /-- The line, counted from one. -/
  line : Int
  /-- The column in characters, counted from one. -/
  column : Int
  /-- The offset in bytes. -/
  offset : Int := 0
  /-- The file that holds the source. -/
  file : Option String := none
  deriving DecidableEq

/-- The location in words: line and column, behind the file if it has a name. -/
def Location.text (l : Location) : String :=
  let place := toString l.line ++ ":" ++ toString l.column
  match l.file with
  | none => place
  | some "" => place
  | some name => name ++ ":" ++ place

/-! ## Line endings -/

/-- A line feed. -/
def lineFeed : UInt8 := 10

/-- A carriage return. -/
def carriageReturn : UInt8 := 13

/-- The byte ends a line. -/
def isLineBreak (b : UInt8) : Bool :=
  b == lineFeed || b == carriageReturn

/-- How often a carriage return stands directly in front of a line feed. -/
def pairedBreaks : List UInt8 → Nat
  | a :: b :: rest =>
    (if a = carriageReturn ∧ b = lineFeed then 1 else 0) + pairedBreaks (b :: rest)
  | _ => 0

/-- A pair takes a carriage return of its own, so pairs are no more than those. -/
theorem pairedBreaks_le_count (bytes : List UInt8) :
    pairedBreaks bytes ≤ bytes.count carriageReturn := by
  fun_induction pairedBreaks bytes with
  | case1 a b rest ih =>
    rw [List.count_cons]
    split
    · simp_all
      omega
    · omega
  | case2 => exact Nat.zero_le _

/-- The number of line endings: each break byte is one, but a pair is one too. -/
def lineEndings (bytes : List UInt8) : Nat :=
  bytes.count lineFeed + bytes.count carriageReturn - pairedBreaks bytes

/-- The bytes behind the last break: the beginning of the last line. -/
def lastLine (bytes : List UInt8) : List UInt8 :=
  (bytes.reverse.takeWhile (!isLineBreak ·)).reverse

/-! ## From an offset to a location -/

/-- The offset moved into the source, if it lies before or behind it. -/
def clampOffset (bytes : ByteArray) (offset : Int) : Nat :=
  min offset.toNat bytes.size

/-- Where the byte offset is in the source. -/
def locate (bytes : ByteArray) (offset : Int) (file : Option String) : Location :=
  let before := (bytes.extract 0 (clampOffset bytes offset)).data.toList
  { line := 1 + lineEndings before
    column := (Utf8.text (lastLine before).toByteArray).length + 1
    offset := clampOffset bytes offset
    file }

end StateLexer
