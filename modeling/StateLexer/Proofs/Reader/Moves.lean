import StateLexer.Recognizer

/-!
# Moves inside a window

To read, to look ahead and to accept are made of a few single moves: a step forward, a
step back, and a jump over a text. None of them begins a new window (`Moves.start_eq`),
and what each of them keeps, all keep, by induction on `Reader.Moves`.

If steps back are *strict*, each of them undoes a step forward. The readings of the
library go back only where they have just gone forward, so they are strict whatever the
settings are (`Moves.acceptWhile`, …, `TokenClass.moves_read`).
-/

namespace StateLexer

/-- The reader gets from the one place to the other by moves inside its window. If they
    are strict, then no step back comes without a step forward to undo. -/
inductive Reader.Moves (strict : Bool) : Reader → Reader → Prop
  | refl (r : Reader) : Moves strict r r
  | next (r : Reader) : Moves strict r r.next.2
  | stepBack {r : Reader} (h : strict = true → r.canBackup = true) : Moves strict r r.stepBack
  | literal (text : String) (r : Reader) : Moves strict r (r.acceptLiteral text).2
  | trans {r r' r'' : Reader} (h : Moves strict r r') (h' : Moves strict r' r'') :
    Moves strict r r''

variable {strict : Bool} {r r' : Reader}

namespace Reader

/-- No move begins a new window. -/
theorem Moves.start_eq (h : Moves strict r r') : r'.start = r.start := by
  induction h with
  | refl => rfl
  | next => exact start_next _
  | stepBack => exact start_stepBack _
  | literal text r =>
    simp only [Reader.acceptLiteral]
    split
    · split <;> rfl
    · rfl
  | trans h h' ih ih' => exact ih'.trans ih

/-! ## Reading -/

theorem Moves.step (h : Moves strict r r') : Moves strict r r'.next.2 :=
  h.trans (.next r')

/-- A step forward that is undone. -/
theorem Moves.look (h : Moves strict r r') : Moves strict r r'.next.2.stepBack :=
  h.step.trans (.stepBack fun _ => canBackup_next r')

theorem Moves.takeFrom (p : Char → Bool) (count : Nat) (h : Moves strict r r') :
    Moves strict r (r'.takeFrom p count).2 := by
  rw [Reader.takeFrom]
  fun_induction Mode.takeFrom Mode.plain p r' count with
  | case1 r' count c r'' hnext hp ih => exact ih (by simpa [hnext] using h.step)
  | case2 r' count c r'' hnext hp => simpa [hnext] using h.look
  | case3 r' count r'' hnext => simpa [hnext] using h.look

theorem Moves.takeWhile (p : Char → Bool) (h : Moves strict r r') :
    Moves strict r (r'.takeWhile p).2 :=
  h.takeFrom p 0

theorem Moves.acceptOneOf (p : Rune → Bool) (h : Moves strict r r') :
    Moves strict r (r'.acceptOneOf p).2 := by
  rw [Reader.acceptOneOf_def]
  split
  · exact h.step
  · exact h.look

theorem Moves.acceptChar (p : Char → Bool) (h : Moves strict r r') :
    Moves strict r (r'.acceptChar p).2 :=
  h.acceptOneOf _

theorem Moves.acceptRun {p : Rune → Bool} {taken : Nat × Reader} (h : Moves strict r r')
    (ht : r'.acceptRun p = some taken) : Moves strict r taken.2 := by
  rw [Reader.acceptRun_def] at ht
  split at ht
  · simp at ht
  · exact Option.some.inj ht ▸ h.takeWhile _

theorem Moves.acceptWhile (p : Char → Bool) (h : Moves strict r r') :
    Moves strict r (r'.acceptWhile p).2 :=
  h.takeWhile p

theorem Moves.acceptUntil (last : String) (h : Moves strict r r') :
    Moves strict r (r'.acceptUntil last).2 := by
  rw [Reader.acceptUntil_def]
  split
  · exact h.look
  · exact h.look.takeWhile _

theorem Moves.acceptLiteral (text : String) (h : Moves strict r r') :
    Moves strict r (r'.acceptLiteral text).2 :=
  h.trans (.literal text r')

end Reader

open Reader

/-! ## Recognizers -/

namespace Address

theorem moves_readTail (canonical : Bool) (lead : Char) (h : Moves strict r r') :
    Moves strict r (readTail .plain canonical lead r').2 := by
  simp only [readTail, Mode.plain_andThen, Mode.plain_acceptChar]
  split
  · split
    · exact (h.acceptChar _).acceptChar _
    · exact h.acceptChar _
  · split
    · split
      · exact (h.acceptChar _).acceptChar _
      · split
        · exact ((h.acceptChar _).acceptChar _).acceptChar _
        · exact ((h.acceptChar _).acceptChar _).acceptChar _
    · split
      · exact h
      · exact h.acceptChar _

theorem moves_readOctet (canonical : Bool) (h : Moves strict r r') :
    Moves strict r (readOctet .plain canonical r').2 := by
  rw [readOctet]
  split
  · next hnext =>
    split
    · exact moves_readTail _ _ (by simpa [hnext] using h.step)
    · simpa [hnext] using h.look
  · next hnext => simpa [hnext] using h.look

theorem moves_readEnd (h : Moves strict r r') : Moves strict r (readEnd .plain r').2 := by
  simp only [readEnd, Mode.plain_andThen, Mode.plain_peek]
  split
  · exact h.look.acceptWhile _
  · exact h.look

theorem moves_readOctets (canonical : Bool) (index more : Nat) (h : Moves strict r r') :
    Moves strict r (readOctets .plain canonical index more r').2 := by
  induction more generalizing index r' with
  | zero =>
    have hnumber := moves_readOctet canonical h
    simp only [readOctets, Mode.plain_andThen]
    split
    · exact moves_readEnd hnumber
    · exact hnumber.acceptWhile _
  | succ more ih =>
    have hnumber := moves_readOctet canonical h
    simp only [readOctets, Mode.plain_andThen, Mode.plain_acceptChar]
    split
    · split
      · exact ih _ (hnumber.acceptChar _)
      · exact (hnumber.acceptChar _).acceptWhile _
    · exact hnumber.acceptWhile _

theorem moves_read (canonical : Bool) (h : Moves strict r r') :
    Moves strict r (read .plain canonical r').2 := by
  simp only [read, Mode.plain_andThen, Mode.plain_peek]
  split
  · exact moves_readOctets canonical 1 _ h.look
  · exact h.look

end Address

namespace Layout

theorem moves_readNewline (h : Moves strict r r') : Moves strict r (readNewline .plain r').2 := by
  simp only [readNewline, Mode.plain_andThen, Mode.plain_acceptChar]
  split
  · exact h.step.acceptChar _
  · split
    · exact h.step
    · exact h.look

end Layout

namespace Label

theorem moves_flawed (flaw : Flaw) (h : Moves strict r r') :
    Moves strict r (flawed .plain flaw r').2 :=
  (h.acceptWhile _).acceptChar _

theorem moves_readRest (h : Moves strict r r') : Moves strict r (readRest .plain r').2 := by
  simp only [readRest, Mode.plain_andThen, Mode.plain_acceptWhile, Mode.plain_acceptChar]
  split
  · exact moves_flawed _ (h.acceptWhile _)
  · split
    · exact (h.acceptWhile _).acceptChar _
    · exact moves_flawed _ ((h.acceptWhile _).acceptChar _)

theorem moves_read (h : Moves strict r r') : Moves strict r (read .plain r').2 := by
  simp only [read]
  split
  · exact h.look
  · split
    · exact moves_flawed _ h.step
    · exact moves_readRest h.step

end Label

namespace DomainName

theorem moves_readEnd (start : Nat) (h : Moves strict r r') :
    Moves strict r (readEnd .plain start r').2 := by
  have hend (length : Nat) : Moves strict r (if length > maxNameLength then
      flawedWord .plain .nameTooLong r' else (.accepted, r')).2 := by
    split
    · exact h.acceptWhile _
    · exact h
  exact hend _

theorem moves_readLabels (start : Nat) (first : Bool) (h : Moves strict r r') :
    Moves strict r (readLabels .plain start first r').2 := by
  fun_induction readLabels .plain start first r' with
  | case1 first r' c r'' hnext halnum label ih =>
    have hlabel : Moves strict r label :=
      Moves.acceptWhile _ (by simpa [hnext] using h.step)
    simp only [Mode.plain_andThen]
    split
    · exact hlabel.acceptWhile _
    · split
      · exact hlabel.acceptWhile _
      · split
        · exact ih (hlabel.acceptChar _)
        · exact moves_readEnd start (hlabel.acceptChar _)
  | case2 first r' c r'' hnext halnum =>
    have hlook : Moves strict r r''.stepBack := by simpa [hnext] using h.look
    simp only [Mode.plain_andThen, Mode.plain_undo]
    split
    · exact hlook.acceptWhile _
    · exact moves_readEnd start hlook
  | case3 first r' r'' hnext =>
    have hlook : Moves strict r r''.stepBack := by simpa [hnext] using h.look
    simp only [Mode.plain_andThen, Mode.plain_undo]
    split
    · exact hlook.acceptWhile _
    · exact moves_readEnd start hlook

theorem moves_read (h : Moves strict r r') : Moves strict r (read .plain r').2 := by
  simp only [read, Mode.plain_andThen, Mode.plain_peek]
  split
  · exact moves_readLabels _ _ h.look
  · exact h.look

end DomainName

/-- To read a token of a class is to move inside the window. -/
theorem TokenClass.moves_read (settings : Settings) (k : TokenClass) (h : Moves strict r r') :
    Moves strict r (k.read .plain settings r').2 := by
  cases k with
  | space => exact h.acceptWhile _
  | whitespace => exact h.acceptWhile _
  | newline => exact Layout.moves_readNewline h
  | address => exact Address.moves_read _ h
  | label => exact Label.moves_read h
  | domainName => exact DomainName.moves_read h

theorem Recognizer.moves_exhausted (h : Moves strict r r') :
    Moves strict r (exhausted .plain r').2 := by
  rw [exhausted]
  split
  · exact h.look
  · exact h

end StateLexer
