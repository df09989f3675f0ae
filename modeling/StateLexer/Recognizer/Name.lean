import StateLexer.Recognizer.Reading

/-!
# Host names

A label consists of letters, digits and hyphens, and begins and ends with a
letter or digit. There are two recognizers of labels: one reads a single label
and the point behind it (`Label.read`), and one a whole name, labels with
points between them and perhaps one at the end (`DomainName.read`). The latter
also limits the length of each label and of the name.
-/

namespace StateLexer

variable {F : Type → Type} (m : Mode F)

namespace Label

/-- Reads the rest of a label that is flawed, with the point behind it. -/
def flawed (flaw : Flaw) (r : Reader) : F Reading :=
  m.andThen (m.acceptWhile CharClass.inLabel r) fun _ r =>
    m.andThen (m.acceptChar (· = '.') r) fun _ r => m.ret (.malformed flaw) r

/-- Reads the rest of a label that has begun with a letter or digit. -/
def readRest (r : Reader) : F Reading :=
  m.andThen (m.acceptWhile CharClass.inLabel r) fun _ label =>
    if label.prevRune = some '-' then flawed m .labelEnd label
    else
      m.andThen (m.acceptChar (· = '.') label) fun point r =>
        if point then m.ret .accepted r else flawed m .labelUnended r

/-- Reads a label and the point behind it. -/
def read (r : Reader) : F Reading :=
  if !r.next.1.any CharClass.inLabel then m.undo .rejected r.next.2
  else if !r.next.1.any Char.isAlphanum then flawed m .labelStart r.next.2
  else readRest m r.next.2

end Label

namespace DomainName

/-- Judges the length of a name that begins at offset `start`. A point at its
    end does not count. -/
def readEnd (start : Nat) (r : Reader) : F Reading :=
  let length := r.pos - start
  let length := if r.prevRune = some '.' then length - 1 else length
  if length > maxNameLength then flawedWord m .nameTooLong r else m.ret .accepted r

/-- Reads the labels of a name that begins at offset `start`; `first` tells
    whether none of them has been read. A name cannot end in front of its first
    label, nor where a point or a hyphen stands in place of a label. -/
def readLabels (start : Nat) (first : Bool) (r : Reader) : F Reading :=
  match _h : r.next with
  | (some c, r') =>
    if c.isAlphanum then
      -- A move that does not fail leads where it does in the plain mode. That reader is
      -- known to have less to read.
      let label := (r'.acceptWhile CharClass.inLabel).2
      m.andThen (m.acceptWhile CharClass.inLabel r') fun _ _ =>
        if label.prevRune = some '-' then flawedWord m .labelEnd label
        else if label.pos - r.pos > maxLabelLength then flawedWord m .labelTooLong label
        else
          let point := label.acceptChar (· = '.')
          m.andThen (m.acceptChar (· = '.') label) fun _ _ =>
            if point.1 then readLabels start false point.2 else readEnd m start point.2
    else
      m.andThen (m.undo () r') fun _ r =>
        if first || CharClass.inWord c then flawedWord m .labelStart r else readEnd m start r
  | (none, r') =>
    m.andThen (m.undo () r') fun _ r =>
      if first then flawedWord m .labelStart r else readEnd m start r
termination_by r.remaining
decreasing_by
  have := Reader.remaining_next_lt _h
  have := Reader.remaining_acceptWhile_le CharClass.inLabel r'
  have := Reader.remaining_acceptChar_le (· = '.') (r'.acceptWhile CharClass.inLabel).2
  simp only [label, point] at *
  omega

/-- Reads a name. -/
def read (r : Reader) : F Reading :=
  m.andThen (m.peek r) fun rune r =>
    if rune.any CharClass.inLabel then readLabels m r.pos true r else m.ret .rejected r

variable {m} {start : Nat} {first : Bool} {r r' : Reader}

theorem readLabels_of_next {c : Char} (h : r.next = (some c, r')) :
    readLabels m start first r =
      if c.isAlphanum then
        let label := (r'.acceptWhile CharClass.inLabel).2
        m.andThen (m.acceptWhile CharClass.inLabel r') fun _ _ =>
          if label.prevRune = some '-' then flawedWord m .labelEnd label
          else if label.pos - r.pos > maxLabelLength then flawedWord m .labelTooLong label
          else
            let point := label.acceptChar (· = '.')
            m.andThen (m.acceptChar (· = '.') label) fun _ _ =>
              if point.1 then readLabels m start false point.2 else readEnd m start point.2
      else
        m.andThen (m.undo () r') fun _ r =>
          if first || CharClass.inWord c then flawedWord m .labelStart r
          else readEnd m start r := by
  rw [readLabels]
  split
  · next c' r'' h' =>
    obtain ⟨hc, rfl⟩ := Prod.mk.inj (h.symm.trans h')
    obtain rfl := Option.some.inj hc
    rfl
  · next r'' h' => exact absurd (h.symm.trans h') (by simp)

theorem readLabels_of_end (h : r.next = (none, r')) : readLabels m start first r =
    m.andThen (m.undo () r') fun _ r =>
      if first then flawedWord m .labelStart r else readEnd m start r := by
  rw [readLabels]
  split
  · next c r'' h' => exact absurd (h.symm.trans h') (by simp)
  · next r'' h' =>
    obtain ⟨-, rfl⟩ := Prod.mk.inj (h.symm.trans h')
    rfl

end DomainName

/-! ## Checked -/

variable {settings : Settings}

namespace Label

@[simp] theorem checked_flawed (flaw : Flaw) (r : Reader) : flawed (.checked settings) flaw r =
    .pure (flawed .plain flaw r).1 (flawed .plain flaw r).2 := by
  simp [flawed]

@[simp] theorem checked_readRest (r : Reader) : readRest (.checked settings) r =
    .pure (readRest .plain r).1 (readRest .plain r).2 := by
  simp only [readRest, Mode.checked_acceptWhile, Mode.checked_acceptChar, Mode.checked_andThen,
    checked_flawed, Run.pure_andThen, Mode.plain_andThen, Mode.plain_acceptWhile,
    Mode.plain_acceptChar]
  split
  · rfl
  · split <;> rfl

@[simp] theorem checked_read (r : Reader) :
    read (.checked settings) r = .pure (read .plain r).1 (read .plain r).2 := by
  simp only [read, checked_flawed, checked_readRest, Mode.checked_undo_next]
  split
  · rfl
  · split <;> rfl

end Label

namespace DomainName

@[simp] theorem checked_readEnd (start : Nat) (r : Reader) :
    readEnd (.checked settings) start r =
      .pure (readEnd .plain start r).1 (readEnd .plain start r).2 := by
  simp only [readEnd, checked_flawedWord]
  split
  · split <;> rfl
  · split <;> rfl

@[simp] theorem checked_readLabels (start : Nat) (first : Bool) (r : Reader) :
    readLabels (.checked settings) start first r =
      .pure (readLabels .plain start first r).1 (readLabels .plain start first r).2 := by
  fun_induction readLabels .plain start first r with
  | case1 first r c r' hnext halnum label ih =>
    rw [readLabels_of_next hnext, if_pos halnum]
    simp only [Mode.checked_acceptWhile, Mode.checked_acceptChar, Mode.checked_andThen,
      checked_flawedWord, checked_readEnd, Run.pure_andThen, Mode.plain_andThen]
    split
    · rfl
    · split
      · rfl
      · split
        · exact ih
        · rfl
  | case2 first r c r' hnext halnum =>
    rw [readLabels_of_next hnext, if_neg halnum, Mode.checked_undo hnext]
    simp only [Mode.checked_andThen, checked_flawedWord, checked_readEnd, Run.pure_andThen,
      Mode.plain_andThen, Mode.plain_undo]
    split <;> rfl
  | case3 first r r' hnext =>
    rw [readLabels_of_end hnext, Mode.checked_undo hnext]
    simp only [Mode.checked_andThen, checked_flawedWord, checked_readEnd, Run.pure_andThen,
      Mode.plain_andThen, Mode.plain_undo]
    split <;> rfl

@[simp] theorem checked_read (r : Reader) :
    read (.checked settings) r = .pure (read .plain r).1 (read .plain r).2 := by
  simp only [read, Mode.checked_peek, checked_readLabels, Mode.checked_andThen,
    Run.pure_andThen, Mode.plain_andThen, Mode.plain_peek]
  split <;> rfl

end DomainName

end StateLexer
