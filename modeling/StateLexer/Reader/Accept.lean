import StateLexer.Reader.Mode

/-!
# Accepting runes

Ways to read as much as fits. Each of them goes one rune too far and steps back, so the
reader ends in front of the first rune that does not fit. They are defined for any mode
(`Mode.acceptWhile`), and the plain ones are moves of a reader (`Reader.acceptWhile`).

* `Mode.checked_peek`, …, `Mode.checked_acceptUntil`: the checks find nothing;
* `remaining_acceptWhile_le`, `remaining_acceptChar_le`: none of them loses ground.
-/

namespace StateLexer

/-! ## In any mode -/

namespace Mode

variable {F : Type → Type} (m : Mode F)

/-- The next rune, which stays unread. -/
def peek (r : Reader) : F Rune :=
  m.undo r.next.1 r.next.2

/-- Reads characters as long as they satisfy `p`, and counts them from `count`. -/
def takeFrom (p : Char → Bool) (r : Reader) (count : Nat) : F Nat :=
  match _h : r.next with
  | (some c, r') => if p c then takeFrom p r' (count + 1) else m.undo count r'
  | (none, r') => m.undo count r'
termination_by r.remaining
decreasing_by exact Reader.remaining_next_lt _h

/-- Reads characters as long as they satisfy `p`, and counts them. -/
def takeWhile (p : Char → Bool) (r : Reader) : F Nat :=
  m.takeFrom p r 0

/-- Reads a rune if it satisfies `p`. -/
def acceptOneOf (p : Rune → Bool) (r : Reader) : F Bool :=
  if p r.next.1 then m.ret true r.next.2 else m.undo false r.next.2

/-- Reads a character if it satisfies `p`. -/
def acceptChar (p : Char → Bool) (r : Reader) : F Bool :=
  m.acceptOneOf (·.any p) r

/-- Reads characters as long as they satisfy `p`, and tells whether there were any. -/
def acceptWhile (p : Char → Bool) (r : Reader) : F Bool :=
  m.andThen (m.takeWhile p r) fun count r => m.ret (count != 0) r

/-- Reads characters up to one that satisfies `p`, and tells whether there were any. -/
def acceptUntilMatch (p : Char → Bool) (r : Reader) : F Bool :=
  m.acceptWhile (fun c => !p c) r

/-- Reads characters up to the rune that is spelled `last`, and tells whether
    there were any. -/
def acceptUntil (last : String) (r : Reader) : F Bool :=
  m.andThen (m.peek r) fun rune r =>
    if rune.text = last ∨ rune = none then m.ret false r
    else m.andThen (m.takeWhile (fun c => c.toString ≠ last) r) fun _ r => m.ret true r

end Mode

/-! ## As they are -/

namespace Reader

/-- The next rune, which stays unread. -/
def peek (r : Reader) : Rune × Reader :=
  Mode.plain.peek r

/-- Reads characters as long as they satisfy `p`, and counts them from `count`. -/
def takeFrom (p : Char → Bool) (r : Reader) (count : Nat) : Nat × Reader :=
  Mode.plain.takeFrom p r count

/-- Reads characters as long as they satisfy `p`, and counts them. -/
def takeWhile (p : Char → Bool) (r : Reader) : Nat × Reader :=
  Mode.plain.takeWhile p r

/-- Reads a rune if it satisfies `p`. -/
def acceptOneOf (p : Rune → Bool) (r : Reader) : Bool × Reader :=
  Mode.plain.acceptOneOf p r

/-- Reads a character if it satisfies `p`. -/
def acceptChar (p : Char → Bool) (r : Reader) : Bool × Reader :=
  Mode.plain.acceptChar p r

/-- Reads characters as long as they satisfy `p`, and tells whether there were any. -/
def acceptWhile (p : Char → Bool) (r : Reader) : Bool × Reader :=
  Mode.plain.acceptWhile p r

/-- Reads characters up to one that satisfies `p`, and tells whether there were any. -/
def acceptUntilMatch (p : Char → Bool) (r : Reader) : Bool × Reader :=
  Mode.plain.acceptUntilMatch p r

/-- Reads characters up to the rune that is spelled `last`, and tells whether
    there were any. -/
def acceptUntil (last : String) (r : Reader) : Bool × Reader :=
  Mode.plain.acceptUntil last r

/-- Reads the text if the input goes on with it. A text is more than a step, so
    it cannot be undone; an empty one is no move at all. -/
def acceptLiteral (text : String) (r : Reader) : Bool × Reader :=
  let bytes := text.toUTF8
  if (r.input.extract r.pos (r.pos + bytes.size)).data = bytes.data then
    if bytes.size = 0 then (true, r)
    else (true, { r with pos := r.pos + bytes.size, canBackup := false })
  else (false, r)

end Reader

/-! ## Runs of runes -/

/-- Reads runes as long as they satisfy `p`, and counts them. There is no
    outcome if the end of the input satisfies `p` and is reached, since it can
    be read for ever. -/
def Mode.acceptRun {F : Type → Type} (m : Mode F) (p : Rune → Bool) (r : Reader) :
    Option (F Nat) :=
  let fits (c : Char) : Bool := p (some c)
  if p none ∧ (r.takeWhile fits).2.remaining = 0 then none else some (m.takeWhile fits r)

/-- Reads runes as long as they satisfy `p`, and counts them, if that has an end. -/
def Reader.acceptRun (p : Rune → Bool) (r : Reader) : Option (Nat × Reader) :=
  Mode.plain.acceptRun p r

/-! ## Plain moves -/

namespace Mode

variable (p : Char → Bool) (r : Reader)

@[simp] theorem plain_peek : plain.peek r = r.peek := rfl

@[simp] theorem plain_takeWhile : plain.takeWhile p r = r.takeWhile p := rfl

@[simp] theorem plain_acceptChar : plain.acceptChar p r = r.acceptChar p := rfl

@[simp] theorem plain_acceptWhile : plain.acceptWhile p r = r.acceptWhile p := rfl

end Mode

namespace Reader

variable {p : Char → Bool} {r r' : Reader} {c : Char}

theorem peek_def (r : Reader) : r.peek = (r.next.1, r.next.2.stepBack) := rfl

theorem takeFrom_of_next (h : r.next = (some c, r')) (count : Nat) : r.takeFrom p count =
    if p c then r'.takeFrom p (count + 1) else (count, r'.stepBack) := by
  rw [takeFrom, Mode.takeFrom]
  split
  · next c' r'' h' =>
    obtain ⟨hc, rfl⟩ := Prod.mk.inj (h.symm.trans h')
    obtain rfl := Option.some.inj hc
    rfl
  · next r'' h' => exact absurd (h.symm.trans h') (by simp)

theorem takeFrom_of_end (h : r.next = (none, r')) (count : Nat) :
    r.takeFrom p count = (count, r'.stepBack) := by
  rw [takeFrom, Mode.takeFrom]
  split
  · next c r'' h' => exact absurd (h.symm.trans h') (by simp)
  · next r'' h' =>
    obtain ⟨-, rfl⟩ := Prod.mk.inj (h.symm.trans h')
    rfl

theorem acceptOneOf_def (p : Rune → Bool) (r : Reader) : r.acceptOneOf p =
    if p r.next.1 then (true, r.next.2) else (false, r.next.2.stepBack) := rfl

theorem acceptChar_def (p : Char → Bool) (r : Reader) : r.acceptChar p =
    if r.next.1.any p then (true, r.next.2) else (false, r.next.2.stepBack) := rfl

theorem acceptWhile_def (p : Char → Bool) (r : Reader) :
    r.acceptWhile p = ((r.takeWhile p).1 != 0, (r.takeWhile p).2) := rfl

theorem acceptUntil_def (last : String) (r : Reader) : r.acceptUntil last =
    if Rune.text r.peek.1 = last ∨ r.peek.1 = none then (false, r.peek.2)
    else (true, (r.peek.2.takeWhile fun c => c.toString ≠ last).2) := rfl

theorem acceptRun_def (p : Rune → Bool) (r : Reader) : r.acceptRun p =
    if p none ∧ (r.takeWhile fun c => p (some c)).2.remaining = 0 then none
    else some (r.takeWhile fun c => p (some c)) := rfl

end Reader

/-! ## Checked moves -/

namespace Mode

variable {settings : Settings}

@[simp] theorem checked_peek (r : Reader) :
    (checked settings).peek r = .pure r.peek.1 r.peek.2 :=
  checked_undo_next _ r

@[simp] theorem checked_takeFrom (p : Char → Bool) (r : Reader) (count : Nat) :
    (checked settings).takeFrom p r count =
      .pure (r.takeFrom p count).1 (r.takeFrom p count).2 := by
  fun_induction takeFrom (checked settings) p r count with
  | case1 r count c r' h hp ih => rw [ih, Reader.takeFrom_of_next h, if_pos hp]
  | case2 r count c r' h hp => rw [checked_undo h, Reader.takeFrom_of_next h, if_neg hp]
  | case3 r count r' h => rw [checked_undo h, Reader.takeFrom_of_end h]

@[simp] theorem checked_takeWhile (p : Char → Bool) (r : Reader) :
    (checked settings).takeWhile p r = .pure (r.takeWhile p).1 (r.takeWhile p).2 :=
  checked_takeFrom p r 0

@[simp] theorem checked_acceptOneOf (p : Rune → Bool) (r : Reader) :
    (checked settings).acceptOneOf p r = .pure (r.acceptOneOf p).1 (r.acceptOneOf p).2 := by
  rw [acceptOneOf, Reader.acceptOneOf_def, checked_undo_next]
  split <;> rfl

@[simp] theorem checked_acceptChar (p : Char → Bool) (r : Reader) :
    (checked settings).acceptChar p r = .pure (r.acceptChar p).1 (r.acceptChar p).2 :=
  checked_acceptOneOf _ r

@[simp] theorem checked_acceptWhile (p : Char → Bool) (r : Reader) :
    (checked settings).acceptWhile p r = .pure (r.acceptWhile p).1 (r.acceptWhile p).2 := by
  rw [acceptWhile, checked_takeWhile]
  rfl

@[simp] theorem checked_acceptUntilMatch (p : Char → Bool) (r : Reader) :
    (checked settings).acceptUntilMatch p r =
      .pure (r.acceptUntilMatch p).1 (r.acceptUntilMatch p).2 :=
  checked_acceptWhile _ r

@[simp] theorem checked_acceptUntil (last : String) (r : Reader) :
    (checked settings).acceptUntil last r =
      .pure (r.acceptUntil last).1 (r.acceptUntil last).2 := by
  simp only [acceptUntil, checked_peek, checked_takeWhile, checked_andThen, checked_ret,
    Run.pure_andThen, Reader.acceptUntil_def]
  split <;> rfl

@[simp] theorem checked_acceptRun (p : Rune → Bool) (r : Reader) :
    (checked settings).acceptRun p r =
      (r.acceptRun p).map fun taken => .pure taken.1 taken.2 := by
  rw [acceptRun, Reader.acceptRun_def, checked_takeWhile]
  split <;> rfl

end Mode

/-! ## Progress -/

namespace Reader

theorem remaining_takeFrom_le (p : Char → Bool) (r : Reader) (count : Nat) :
    (r.takeFrom p count).2.remaining ≤ r.remaining := by
  rw [takeFrom]
  fun_induction Mode.takeFrom Mode.plain p r count with
  | case1 r count c r' h hp ih => exact Nat.le_trans ih (Nat.le_of_lt (remaining_next_lt h))
  | case2 r count c r' h hp => simpa [h] using remaining_stepBack_next_le r
  | case3 r count r' h => simpa [h] using remaining_stepBack_next_le r

theorem remaining_acceptWhile_le (p : Char → Bool) (r : Reader) :
    (r.acceptWhile p).2.remaining ≤ r.remaining :=
  remaining_takeFrom_le p r 0

theorem remaining_next_le (r : Reader) : r.next.2.remaining ≤ r.remaining := by
  unfold next
  split <;> simp only [remaining] <;> omega

theorem remaining_acceptChar_le (p : Char → Bool) (r : Reader) :
    (r.acceptChar p).2.remaining ≤ r.remaining := by
  rw [acceptChar, Mode.acceptChar, Mode.acceptOneOf]
  split
  · exact remaining_next_le r
  · exact remaining_stepBack_next_le r

end Reader

end StateLexer
