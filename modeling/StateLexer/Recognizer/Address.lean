import StateLexer.Recognizer.Reading

/-!
# Addresses

Four numbers from 0 to 255 with points between them. The digits of a number
are read one by one, and those before decide which may follow, so no number
that is read exceeds 255:

* behind `1`, up to two digits;
* behind `2`, a digit up to `4` and any other, `5` and a digit up to `5`, or a
  single digit above `5`;
* behind `0`, nothing if numbers must be canonical;
* otherwise, up to one digit.

Nothing that is read is given back. A digit that is left over stands where a
point is due, or behind the address, where no digit and no point may stand;
then the rest of the word belongs to the error.
-/

namespace StateLexer.Address

/-- How many numbers an address has. -/
def octetCount : Nat := 4

variable {F : Type → Type} (m : Mode F) (canonical : Bool)

/-- Reads the digits of a number behind its first. Whether the last one that may follow
    does makes no difference. -/
def readTail (lead : Char) (r : Reader) : F Bool :=
  if lead = '1' then
    m.andThen (m.acceptChar Char.isDigit r) fun second r =>
      if second then m.acceptChar Char.isDigit r else m.ret false r
  else if lead = '2' then
    m.andThen (m.acceptChar (fun c => '0' ≤ c && c ≤ '4') r) fun low r =>
      if low then m.acceptChar Char.isDigit r
      else
        m.andThen (m.acceptChar (· = '5') r) fun five r =>
          if five then m.acceptChar (fun c => '0' ≤ c && c ≤ '5') r
          else m.acceptChar (fun c => '6' ≤ c && c ≤ '9') r
  else if lead = '0' && canonical then m.ret false r
  else m.acceptChar Char.isDigit r

/-- Reads a number, and tells whether there is one. -/
def readOctet (r : Reader) : F Bool :=
  match r.next with
  | (some c, r') =>
    if c.isDigit then m.andThen (readTail m canonical c r') fun _ r => m.ret true r
    else m.undo false r'
  | (none, r') => m.undo false r'

/-- Looks behind the last number: an address ends where no digit and no point
    follow. -/
def readEnd (r : Reader) : F Reading :=
  m.andThen (m.peek r) fun rune r =>
    if rune.any fun c => c.isDigit || c = '.' then flawedWord m .addressTooLong r
    else m.ret .accepted r

/-- Reads a number, which has the given index, and `more` numbers behind it. -/
def readOctets (index : Nat) : (more : Nat) → Reader → F Reading
  | 0, r =>
    m.andThen (readOctet m canonical r) fun number r =>
      if number then readEnd m r else flawedWord m (.octetMissing index) r
  | more + 1, r =>
    m.andThen (readOctet m canonical r) fun number r =>
      if number then
        m.andThen (m.acceptChar (· = '.') r) fun point r =>
          if point then readOctets (index + 1) more r
          else flawedWord m (.octetUnended index) r
      else flawedWord m (.octetMissing index) r

/-- Reads an address. -/
def read (r : Reader) : F Reading :=
  m.andThen (m.peek r) fun rune r =>
    if rune.any Char.isDigit then readOctets m canonical 1 (octetCount - 1) r
    else m.ret .rejected r

/-! ## Checked -/

variable {settings : Settings} {canonical}

@[simp] theorem checked_readTail (lead : Char) (r : Reader) :
    readTail (.checked settings) canonical lead r =
      .pure (readTail .plain canonical lead r).1 (readTail .plain canonical lead r).2 := by
  simp only [readTail, Mode.checked_acceptChar, Mode.checked_andThen, Run.pure_andThen,
    Mode.plain_andThen, Mode.plain_acceptChar]
  split
  · split <;> rfl
  · split
    · split
      · rfl
      · split <;> rfl
    · split <;> rfl

@[simp] theorem checked_readOctet (r : Reader) : readOctet (.checked settings) canonical r =
    .pure (readOctet .plain canonical r).1 (readOctet .plain canonical r).2 := by
  obtain ⟨rune, r', hnext⟩ : ∃ rune r', r.next = (rune, r') := ⟨_, _, rfl⟩
  cases rune with
  | none =>
    simp only [readOctet, hnext, Mode.checked_undo hnext]
    rfl
  | some c =>
    simp only [readOctet, hnext, checked_readTail, Mode.checked_andThen, Run.pure_andThen,
      Mode.checked_undo hnext]
    split <;> rfl

@[simp] theorem checked_readEnd (r : Reader) :
    readEnd (.checked settings) r = .pure (readEnd .plain r).1 (readEnd .plain r).2 := by
  simp only [readEnd, Mode.checked_peek, Mode.checked_andThen, Run.pure_andThen,
    checked_flawedWord, Mode.plain_andThen, Mode.plain_peek]
  split <;> rfl

@[simp] theorem checked_readOctets (index more : Nat) (r : Reader) :
    readOctets (.checked settings) canonical index more r =
      .pure (readOctets .plain canonical index more r).1
        (readOctets .plain canonical index more r).2 := by
  induction more generalizing index r with
  | zero =>
    simp only [readOctets, checked_readOctet, checked_readEnd, checked_flawedWord,
      Mode.checked_andThen, Run.pure_andThen, Mode.plain_andThen]
    split <;> rfl
  | succ more ih =>
    simp only [readOctets, checked_readOctet, checked_flawedWord, Mode.checked_acceptChar, ih,
      Mode.checked_andThen, Run.pure_andThen, Mode.plain_andThen, Mode.plain_acceptChar]
    split
    · split <;> rfl
    · rfl

@[simp] theorem checked_read (r : Reader) : read (.checked settings) canonical r =
    .pure (read .plain canonical r).1 (read .plain canonical r).2 := by
  simp only [read, Mode.checked_peek, checked_readOctets, Mode.checked_andThen, Run.pure_andThen,
    Mode.plain_andThen, Mode.plain_peek]
  split <;> rfl

end StateLexer.Address
