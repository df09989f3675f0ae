import Mathlib.Data.List.Induction
import Mathlib.Order.Bounds.Basic
import StateLexer.Proofs.Reader.Alignment
import StateLexer.Proofs.Reader.Bounds
import StateLexer.Proofs.Stepper

/-!
# Going back

There are two ways back, and they do not know of each other: to *look* back, from the bytes
in front of the position, and to *step* back, by the width of the last rune. If steps back
are strict, both agree with the way forward, whatever the bytes are:

* `Reader.prevRune_of_boundary`: from a boundary, the look back shows the rune that a step
  forward has led over, also where the bytes encode no text;
* `Reader.undone_stepBack`: a step back leads to where the last step forward came from.

The second is about what a reader has done to come to its place, of which the place itself
does not tell. So the ways that a reader can take are spelled out, one *stride* after the
other (`Reader.walk`). Every move of a stepper is a walk, be it a step or the call of a
state (`Stepper.exists_walk_act`).

`stays_on_boundaries` puts this together.
-/

namespace StateLexer

/-! ## Looking back -/

namespace Reader

variable {bytes : ByteArray} {i k steps : Nat}

/-- From behind some continuations, the look back comes to what is in front of them. -/
theorem leadBefore_add (hk : k ≤ steps)
    (hcont : ∀ j < k, bytes[i + (j + 1)]?.any Utf8.isContinuation = true)
    (hlead : bytes[i]?.any Utf8.isContinuation = false) : leadBefore bytes steps (i + k) = i := by
  induction k generalizing steps with
  | zero =>
    -- Either no step is left, or the byte in front of the place is no continuation.
    cases steps with
    | zero => rfl
    | succ steps => simp [leadBefore, hlead]
  | succ k ih =>
    obtain ⟨steps, rfl⟩ := Nat.exists_eq_add_of_lt (Nat.lt_of_lt_of_le (Nat.zero_lt_succ k) hk)
    rw [Nat.zero_add, leadBefore, if_pos ⟨by omega, hcont k (Nat.lt_succ_self k)⟩]
    exact ih (by omega) fun j hj => hcont j (by omega)

theorem leadBefore_le (bytes : ByteArray) (steps i : Nat) : leadBefore bytes steps i ≤ i := by
  induction steps generalizing i with
  | zero => exact Nat.le_refl i
  | succ steps ih =>
    rw [leadBefore]
    split
    · exact Nat.le_trans (ih (i - 1)) (Nat.sub_le i 1)
    · exact Nat.le_refl i

/-- Behind a character, the look back comes to its first byte. -/
theorem leadBefore_of_decode {c : Char} (h : bytes.utf8DecodeChar? i = some c) :
    leadBefore bytes 3 (i + (c.utf8Size - 1)) = i := by
  have hsize := c.utf8Size_le_four
  refine leadBefore_add (by omega) (fun j hj => ?_) ?_
  · rw [Utf8.any_isContinuation h (by omega)]
    exact decide_eq_true (Nat.zero_lt_succ j)
  · exact Utf8.any_isContinuation h (k := 0) c.utf8Size_pos

/-- Behind a rune at a boundary, the look back shows this rune. -/
theorem prevRune_of_boundary {r : Reader} (hi : Utf8.IsBoundary r.input i)
    (hlt : i < r.input.size) (hpos : i + (Utf8.runeAt r.input i).2 = r.pos) :
    r.prevRune = some (Utf8.runeAt r.input i).1 := by
  have hwidth := Utf8.one_le_width_runeAt r.input i
  rw [prevRune, if_neg (by omega)]
  cases hdecode : r.input.utf8DecodeChar? i with
  | some c =>
    have hrune : Utf8.runeAt r.input i = (c, c.utf8Size) := by rw [Utf8.runeAt, hdecode]
    have hback : r.pos - 1 = i + (c.utf8Size - 1) := by
      rw [hrune] at hpos hwidth
      omega
    simp only [hback, leadBefore_of_decode hdecode, hpos, if_true]
  | none =>
    have hrune : Utf8.runeAt r.input i = (Utf8.replacement, 1) := by rw [Utf8.runeAt, hdecode]
    have hback : r.pos - 1 = i := by
      rw [hrune] at hpos
      omega
    have hle := leadBefore_le r.input 3 i
    simp only [hback, hrune]
    split
    · next hend =>
      obtain heq | hback' := Nat.eq_or_lt_of_le hle
      · rw [heq, hrune]
      · -- A character of several bytes would go over the boundary at `i`.
        have hlead : Utf8.IsBoundary r.input (leadBefore r.input 3 i) :=
          .of_two_le_width (by omega) (by omega)
        have := hlead.add_width_le hi hback'
        omega
    · rfl

/-- The window lies between boundaries, and the look back shows the rune that stands at the
    last boundary in front of the position. -/
structure OnBoundaries (r : Reader) : Prop where
  start : Utf8.IsBoundary r.input r.start
  pos : Utf8.IsBoundary r.input r.pos
  prevRune : 0 < r.pos → ∃ i, IsGreatest {i | Utf8.IsBoundary r.input i ∧ i < r.pos} i ∧
    r.prevRune = some (Utf8.runeAt r.input i).1

theorem Aligned.onBoundaries {r : Reader} (h : r.Aligned) : r.OnBoundaries := by
  refine ⟨h.isBoundary_start, h.isBoundary_pos, fun hpos => ?_⟩
  obtain ⟨i, hi, hlt, heq⟩ := h.isBoundary_pos.exists_add_width hpos
  have hwidth := Utf8.one_le_width_runeAt r.input i
  refine ⟨i, ⟨⟨hi, by omega⟩, fun j ⟨hj, hjpos⟩ => ?_⟩, prevRune_of_boundary hi hlt heq⟩
  by_contra hij
  have := hi.add_width_le hj (Nat.lt_of_not_le hij)
  omega

/-! ## Strides -/

/-- What a reader does at once. -/
inductive Stride
  | next
  | stepBack
  /-- Goes over a text, if the input goes on with it. -/
  | literal (text : String)
  | renew

/-- The reader after the stride. -/
def stride (r : Reader) : Stride → Reader
  | .next => r.next.2
  | .stepBack => r.stepBack
  | .literal text => (r.acceptLiteral text).2
  | .renew => r.renew

/-- The reader after the strides. -/
def walk (r : Reader) (strides : List Stride) : Reader :=
  strides.foldl stride r

/-- No stride goes back without a step forward to undo. -/
def Strict : Reader → List Stride → Prop
  | _, [] => True
  | r, s :: strides => (s = .stepBack → r.canBackup = true) ∧ Strict (r.stride s) strides

variable {r r' : Reader} {ss ss' : List Stride}

theorem walk_append (r : Reader) (ss ss' : List Stride) :
    r.walk (ss ++ ss') = (r.walk ss).walk ss' :=
  List.foldl_append

theorem strict_append : r.Strict (ss ++ ss') ↔ r.Strict ss ∧ (r.walk ss).Strict ss' := by
  induction ss generalizing r with
  | nil => exact (iff_of_eq (true_and _)).symm
  | cons s ss ih => rw [List.cons_append, Strict, Strict, ih, and_assoc]; rfl

/-- The walk ends with a step back. -/
theorem canBackup_of_strict (h : r.Strict (ss ++ [.stepBack])) : (r.walk ss).canBackup = true :=
  (strict_append.1 h).2.1 rfl

/-- What strides keep holds at the end of a strict walk. -/
theorem Strict.aligned (h : r.Strict ss) (hr : r.Aligned) : (r.walk ss).Aligned := by
  induction ss generalizing r with
  | nil => exact hr
  | cons s ss ih =>
    obtain ⟨hback, hss⟩ := h
    refine ih hss ?_
    cases s with
    | next => exact aligned_next hr
    | stepBack => exact aligned_stepBack hr (hback rfl)
    | literal text => exact aligned_acceptLiteral text hr
    | renew => exact aligned_renew hr

/-! ## Undoing the last step forward -/

/-- A text that leaves a step forward to undo is not there, or empty. -/
theorem acceptLiteral_of_canBackup {text : String}
    (h : (r.acceptLiteral text).2.canBackup = true) : (r.acceptLiteral text).2 = r := by
  simp only [acceptLiteral] at h ⊢
  split at h
  · next hext =>
    rw [if_pos hext]
    split at h
    · next hempty => rw [if_pos hempty]
    · exact absurd h Bool.false_ne_true
  · next hext => rw [if_neg hext]

/-- Where there is a step forward to undo, it has led to the place of the reader, and nothing
    has come behind it. -/
theorem exists_next (hr : r.canBackup = false) (h : (r.walk ss).canBackup = true) :
    ∃ before between, ss = before ++ .next :: between ∧ .next ∉ between ∧
      r.walk ss = (r.walk before).next.2 := by
  induction ss using List.reverseRecOn with
  | nil => exact absurd (hr.symm.trans h) Bool.false_ne_true
  | append_singleton ss s ih =>
    rw [walk_append] at h ⊢
    cases s with
    | next => exact ⟨ss, [], rfl, List.not_mem_nil, rfl⟩
    | stepBack => exact absurd h Bool.false_ne_true
    | literal text =>
      -- A text that is gone over leaves no step to undo, so this one is not there.
      have hstay : (r.walk ss).walk [.literal text] = r.walk ss := acceptLiteral_of_canBackup h
      rw [hstay] at h ⊢
      obtain ⟨before, between, rfl, hbetween, hwalk⟩ := ih h
      exact ⟨before, between ++ [.literal text], by simp, by simpa using hbetween, hwalk⟩
    | renew => exact absurd h Bool.false_ne_true

/-- The place is where the last step forward of the strides came from. The width of the
    rune leads there, and not out of the window. -/
def Undone (r : Reader) (strides : List Stride) (pos : Nat) : Prop :=
  ∃ before between, strides = before ++ .next :: between ∧ .next ∉ between ∧
    pos = (r.walk before).pos ∧ pos + (r.walk strides).width = (r.walk strides).pos ∧
    (r.walk strides).start ≤ pos

/-- A step back undoes the last step forward, exactly. -/
theorem undone_stepBack (hr : r.Aligned) (hcan : r.canBackup = false)
    (h : r.Strict (ss ++ [.stepBack])) : r.Undone ss (r.walk ss).stepBack.pos := by
  obtain ⟨before, between, rfl, hbetween, hwalk⟩ := exists_next hcan (canBackup_of_strict h)
  have hbefore := (strict_append.1 (strict_append.1 h).1).1
  have hle := (hbefore.aligned hr).start_le_pos
  refine ⟨before, between, rfl, hbetween, ?_⟩
  rw [hwalk, stepBack_next_pos hle, pos_next, start_next]
  exact ⟨rfl, rfl, hle⟩

/-! ## Moves are walks -/

/-- Moves are strides. -/
theorem Moves.exists_walk (h : r.Moves true r') : ∃ ss, r.Strict ss ∧ r.walk ss = r' := by
  induction h with
  | refl r => exact ⟨[], trivial, rfl⟩
  | next r => exact ⟨[.next], ⟨nofun, trivial⟩, rfl⟩
  | stepBack h => exact ⟨[.stepBack], ⟨fun _ => h rfl, trivial⟩, rfl⟩
  | literal text r => exact ⟨[.literal text], ⟨nofun, trivial⟩, rfl⟩
  | trans h h' ih ih' =>
    obtain ⟨ss, hss, rfl⟩ := ih
    obtain ⟨ss', hss', rfl⟩ := ih'
    exact ⟨ss ++ ss', strict_append.2 ⟨hss, hss'⟩, walk_append _ ss ss'⟩

end Reader

open Reader

theorem Passage.exists_walk {r r' : Reader} {cs : List Closing} (h : Passage true r cs r') :
    ∃ ss, r.Strict ss ∧ r.walk ss = r' := by
  induction h with
  | moves h => exact h.exists_walk
  | close r => exact ⟨[.renew], ⟨nofun, trivial⟩, rfl⟩
  | trans h h' ih ih' =>
    obtain ⟨ss, hss, rfl⟩ := ih
    obtain ⟨ss', hss', rfl⟩ := ih'
    exact ⟨ss ++ ss', strict_append.2 ⟨hss, hss'⟩, walk_append _ ss ss'⟩

namespace Stepper

variable {n : Nat} {input : ByteArray}

/-- A stepper with strict steps back stays on the boundaries of its input. -/
structure StaysOnBoundaries (input : ByteArray) (s : Stepper n) : Prop where
  onBoundaries : s.reader.OnBoundaries
  input_eq : s.reader.input = input
  /-- From the beginning of the input, the reader has come to its place on a strict walk. -/
  exists_walk : ∃ ss, Strict { input } ss ∧ walk { input } ss = s.reader
  /-- Any act leads on with a strict walk. -/
  exists_walk_act : ∀ a, ∃ ss, s.reader.Strict ss ∧ s.reader.walk ss = (s.act a).reader
  /-- Whichever strict walk it is, the reader is on boundaries all along. -/
  onBoundaries_walk : ∀ ss, Strict { input } ss → (walk { input } ss).OnBoundaries
  /-- Whichever strict walk it is, every step back on it undoes the last step forward. -/
  undone_walk : ∀ ss, Strict { input } (ss ++ [.stepBack]) →
    Undone { input } ss (walk { input } (ss ++ [.stepBack])).pos
  /-- Whichever strict walk it is, to go back behind it undoes the last step forward, unless
      that fails. -/
  undone_backup : ∀ value, (s.record (.step .backup)).outcome = .done value →
    ∀ ss, Strict { input } ss → walk { input } ss = s.reader →
      Undone { input } ss (s.act (.move (.step .backup))).reader.pos

/-- An act leads on with a walk, which is strict if steps back are. -/
theorem exists_walk_act (s : Stepper n) (hstrict : s.settings.strictBackup = true) (a : Act n) :
    ∃ ss, s.reader.Strict ss ∧ s.reader.walk ss = (s.act a).reader := by
  cases a with
  | move m =>
    have hpassage := (s.passes_move m).passage
    rw [hstrict] at hpassage
    exact hpassage.exists_walk
  | close => exact ⟨[], trivial, rfl⟩
  | cancel => exact ⟨[], trivial, rfl⟩

/-- To go back fails, unless there is a step forward to undo. -/
theorem strict_of_backup (s : Stepper n) (hstrict : s.settings.strictBackup = true)
    {value : MoveValue n} (h : (s.record (.step .backup)).outcome = .done value) :
    s.reader.Strict [.stepBack] ∧
      (s.act (.move (.step .backup))).reader = s.reader.walk [.stepBack] := by
  cases hcan : s.reader.canBackup with
  | false => simp [record, Step.run_backup, hstrict, hcan, Run.raise, Run.andThen] at h
  | true =>
    refine ⟨⟨fun _ => hcan, trivial⟩, ?_⟩
    simp [act, move, after, record, Step.run_backup, hstrict, hcan, Run.pure, Run.andThen, walk,
      stride]

/-- Whatever bytes a stepper with strict steps back finds, and whatever is done with it, it
    stays on boundaries, and steps back undo steps forward. -/
theorem stays_on_boundaries (lexer : Lexer n) (settings : Settings) (input : ByteArray)
    (channel : Channel Token) (acts : List (Act n)) :
    StaysOnBoundaries input
      ((new lexer { settings with strictBackup := true } input channel).actAll acts) := by
  generalize hnew : new lexer { settings with strictBackup := true } input channel = s₀
  have hreader : s₀.reader = { input } := by rw [← hnew]; rfl
  have hstrict : s₀.settings.strictBackup = true := by rw [← hnew]; rfl
  have hpassage := (s₀.passage_actAll acts).1
  rw [hstrict, hreader] at hpassage
  have hend : (s₀.actAll acts).settings.strictBackup = true := by rwa [settings_actAll]
  have hundone {ss : List Stride} (hss : Strict { input } (ss ++ [.stepBack])) :=
    undone_stepBack (aligned_mk input) rfl hss
  refine {
    onBoundaries := (hpassage.aligned (aligned_mk input)).1.onBoundaries
    input_eq := (hpassage.on (on_mk input)).1.input_eq
    exists_walk := hpassage.exists_walk
    exists_walk_act := exists_walk_act _ hend
    onBoundaries_walk := fun ss hss => (hss.aligned (aligned_mk input)).onBoundaries
    undone_walk := fun ss hss => ?_
    undone_backup := fun value hvalue ss hss hwalk => ?_ }
  · rw [walk_append]
    exact hundone hss
  · obtain ⟨hback, hact⟩ := strict_of_backup _ hend hvalue
    rw [← hwalk] at hback hact
    rw [hact]
    exact hundone (strict_append.2 ⟨hss, hback⟩)

/-- If steps back are not strict, one behind a text goes into the middle of a rune. -/
example :
    let s : Stepper 0 := new .standard { strictBackup := false } "aβ".toUTF8 {}
    let steps : List Step := [.next, .acceptLiteral "β", .backup]
    let r := (s.actAll (steps.map fun step => .move (.step step))).reader
    r.pos = 2 ∧ r.prevRune = some Utf8.replacement := by
  decide +kernel

end Stepper

end StateLexer
