import StateLexer.Run

/-!
# Modes

A move often reads a rune too many and gives it back. A step back undoes a step forward,
and the settings can ask for a check that there is one, wherever a step back is made. How
that is done is the *mode* of the move, which is what a move is defined by:

* in the plain mode, a step back is just made, and a move comes to a value and a reader;
* in the checked mode, a step back is checked, and a move comes to a run, which ends with
  a fault where the check finds one.

Grammars move in the checked mode. But a step back right behind a step forward passes the
check (`Mode.checked_undo`), and the moves of the library make no other, so they come to
what they come to in the plain mode. This is said of each of them where it is defined, and
what it does can be told without a fault from then on.
-/

namespace StateLexer

/-- What a move comes to that cannot fail: a value, and the reader behind it. -/
abbrev Moved (α : Type) := α × Reader

/-- How moves are made: a move with a value in `α` comes to `F α`. -/
structure Mode (F : Type → Type) where
  /-- No move. -/
  ret {α : Type} (value : α) (r : Reader) : F α
  /-- One move and, unless it fails, another that depends on its value. -/
  andThen {α β : Type} (first : F α) (second : α → Reader → F β) : F β
  /-- A step back, with a value. -/
  undo {α : Type} (value : α) (r : Reader) : F α

namespace Mode

/-- Steps back are not checked. -/
def plain : Mode Moved where
  ret := Prod.mk
  andThen first second := second first.1 first.2
  undo value r := (value, r.stepBack)

/-- There must be a step forward to undo, if the settings ask for one. -/
def checked (settings : Settings) : Mode Run where
  ret := .pure
  andThen := .andThen
  undo value r :=
    if settings.strictBackup && !r.canBackup then .raise (.misplacedBackup r.pos) r
    else .pure value r.stepBack

variable {α β : Type}

@[simp] theorem plain_ret (value : α) (r : Reader) : plain.ret value r = (value, r) := rfl

@[simp] theorem plain_andThen (first : Moved α) (second : α → Reader → Moved β) :
    plain.andThen first second = second first.1 first.2 := rfl

@[simp] theorem plain_undo (value : α) (r : Reader) :
    plain.undo value r = (value, r.stepBack) := rfl

variable {settings : Settings}

@[simp] theorem checked_ret (value : α) (r : Reader) :
    (checked settings).ret value r = .pure value r := rfl

@[simp] theorem checked_andThen (first : Run α) (second : α → Reader → Run β) :
    (checked settings).andThen first second = first.andThen second := rfl

/-- Behind a step forward, a step back passes the check. -/
theorem checked_undo {value : α} {rune : Rune} {r r' : Reader} (h : r.next = (rune, r')) :
    (checked settings).undo value r' = .pure value r'.stepBack := by
  have hbackup : r'.canBackup = true := by simpa [h] using Reader.canBackup_next r
  simp [checked, hbackup]

@[simp] theorem checked_undo_next (value : α) (r : Reader) :
    (checked settings).undo value r.next.2 = .pure value r.next.2.stepBack :=
  checked_undo rfl

end Mode

end StateLexer
