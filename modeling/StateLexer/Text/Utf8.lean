/-!
# Reading bytes as UTF-8

The input is a string of bytes that need not be well-formed UTF-8. It is read
in two ways:

* *rune by rune* (`Utf8.runeAt`): the character encoded at an offset, or else
  a single byte, which counts as the replacement character U+FFFD, so that a
  reader advances whatever the bytes are;
* *as a text* (`Utf8.text`): a whole string of bytes at once, with one U+FFFD
  for each *maximal subpart*, the longest run of bytes that begin the encoding
  of some character without completing it, or a single byte that begins none.

Either way a character takes at least one byte (`one_le_width_runeAt`,
`one_le_width_glyphAt`), which bounds every loop over the input.
-/

namespace StateLexer.Utf8

/-- The character that stands for bytes which encode none. -/
def replacement : Char := '\uFFFD'

/-- The rune at offset `i` and its width in bytes: the character encoded
    there, or the replacement character for a byte where none is. -/
def runeAt (bytes : ByteArray) (i : Nat) : Char × Nat :=
  match bytes.utf8DecodeChar? i with
  | some c => (c, c.utf8Size)
  | none => (replacement, 1)

theorem one_le_width_runeAt (bytes : ByteArray) (i : Nat) : 1 ≤ (runeAt bytes i).2 := by
  unfold runeAt
  split
  · exact Char.utf8Size_pos _
  · exact Nat.le_refl 1

/-! ## Maximal subparts -/

/-- The byte continues an encoded character: its two high bits are `10`. -/
def isContinuation (b : UInt8) : Bool :=
  b &&& 0xC0 == 0x80

/-- An encoding of three or four bytes can begin with `lead` and `second`. The
    second byte is a continuation, and after four of the leads its range is
    narrower: it must not make the encoding overlong, a surrogate, or a value
    above U+10FFFF. -/
def opensLong (lead second : UInt8) : Bool :=
  isContinuation second && 0xE0 ≤ lead && lead ≤ 0xF4 &&
    (lead != 0xE0 || 0xA0 ≤ second) && (lead != 0xED || second < 0xA0) &&
    (lead != 0xF0 || 0x90 ≤ second) && (lead != 0xF4 || second < 0x90)

/-- The width of the maximal subpart at offset `i`, where no character is
    encoded. The lead of a two-byte encoding is alone in it: with a
    continuation behind it there would be a character. -/
def brokenWidth (bytes : ByteArray) (i : Nat) : Nat :=
  match bytes[i]?, bytes[i + 1]?, bytes[i + 2]? with
  | some lead, some second, some third =>
    if opensLong lead second then
      if 0xF0 ≤ lead && isContinuation third then 3 else 2
    else 1
  | some lead, some second, none => if opensLong lead second then 2 else 1
  | _, _, _ => 1

theorem one_le_brokenWidth (bytes : ByteArray) (i : Nat) : 1 ≤ brokenWidth bytes i := by
  unfold brokenWidth
  repeat' split
  all_goals decide

/-! ## Texts -/

/-- The character a text shows at offset `i`, and the number of bytes it stands for. -/
def glyphAt (bytes : ByteArray) (i : Nat) : Char × Nat :=
  match bytes.utf8DecodeChar? i with
  | some c => (c, c.utf8Size)
  | none => (replacement, brokenWidth bytes i)

theorem one_le_width_glyphAt (bytes : ByteArray) (i : Nat) : 1 ≤ (glyphAt bytes i).2 := by
  unfold glyphAt
  split
  · exact Char.utf8Size_pos _
  · exact one_le_brokenWidth bytes i

/-- The text of the bytes from offset `i` on, written behind `before`. -/
def textFrom (bytes : ByteArray) (i : Nat) (before : String) : String :=
  if i < bytes.size then
    textFrom bytes (i + (glyphAt bytes i).2) (before.push (glyphAt bytes i).1)
  else before
termination_by bytes.size - i
decreasing_by have := one_le_width_glyphAt bytes i; omega

/-- The text of a string of bytes. -/
def text (bytes : ByteArray) : String :=
  textFrom bytes 0 ""

/-- A text written behind another is the text alone, behind it. -/
theorem textFrom_eq_append (bytes : ByteArray) (i : Nat) (before : String) :
    textFrom bytes i before = before ++ textFrom bytes i "" := by
  induction h : bytes.size - i using Nat.strongRecOn generalizing i before with
  | ind n ih =>
    rw [textFrom, textFrom.eq_def bytes i ""]
    split
    · have hw := one_le_width_glyphAt bytes i
      rw [ih _ (by omega) _ _ rfl, ih _ (by omega) _ ("".push _) rfl, ← String.append_assoc]
      simp
    · simp

end StateLexer.Utf8
