import Mathlib.Data.List.TakeWhile
import StateLexer.Proofs.Lookahead
import StateLexer.Proofs.Reader.Steps
import StateLexer.Proofs.Text.Replacement

/-!
# Longest prefixes

To accept as much as fits goes over the longest prefix of the runes ahead that fit: it reads one
rune too many, and gives it back (`Reader.AcceptsPrefixes`). The steps back are checked, and the
checks find nothing (`Reader.Takes`).

The end of the input is a rune as well. It fits no condition on characters, so the other loops
end there at the latest. A set of texts may hold its spelling, the empty text, and then the loop
that accepts runes of the set ends only if some rune ahead does not belong to it
(`Reader.exists_loopEnds_iff`): the end can be read for ever. For that reason this loop is told
by its steps here (`Reader.LoopEnds`), and `Reader.acceptRun` is what comes out of it.

* `Reader.takeFrom_fst`, `Reader.reads_takeFrom`: how many characters fit, and that they are gone
  over;
* `Reader.LoopEnds.run_eq`, `Reader.exists_loopEnds_iff`: the loop over a set of texts;
* `accepts_longest_prefixes`: all of them.
-/

namespace StateLexer

variable {settings : Settings} {r : Reader} {count : Nat}

namespace Reader

/-- As many characters are counted as are accepted. -/
theorem takeFrom_fst (p : Char → Bool) (r : Reader) (count : Nat) :
    (r.takeFrom p count).1 = count + (r.ahead.takeWhile p).length := by
  rw [takeFrom]
  fun_induction Mode.takeFrom Mode.plain p r count with
  | case1 r count c r' hnext hc ih =>
    rw [ih, ahead_of_next hnext, List.takeWhile_cons_of_pos hc, List.length_cons]
    omega
  | case2 r count c r' hnext hc =>
    rw [ahead_of_next hnext, List.takeWhile_cons_of_neg hc, List.length_nil, Nat.add_zero,
      Mode.plain_undo]
  | case3 r count r' hnext =>
    rw [(ahead_of_end hnext).1, List.takeWhile_nil, List.length_nil, Nat.add_zero,
      Mode.plain_undo]

/-! ## Moves -/

/-- The move yields the value, and goes over exactly the characters, in its window. With all
    steps back checked it does the same, without a fault, and nothing is emitted. -/
structure Takes {α : Type} (r : Reader) (cs : List Char) (value : α) (move : α × Reader)
    (checked : Run α) : Prop where
  value_eq : move.1 = value
  delivers : Utf8.Delivers r.input r.pos cs move.2.pos
  input_eq : move.2.input = r.input
  start_eq : move.2.start = r.start
  checked_eq : checked = .pure move.1 move.2

theorem Reads.takes {α : Type} {value : α} {move : α × Reader} {checked : Run α}
    (h : r.Reads cs move.2) (hvalue : move.1 = value) (hchecked : checked = .pure move.1 move.2) :
    r.Takes cs value move checked := by
  obtain ⟨us, rfl, hunits, hpos⟩ := h.units
  exact ⟨hvalue, hpos ▸ Utf8.delivers_of_unitsFrom hunits, h.input_eq, h.start_eq, hchecked⟩

theorem takes_acceptWhile (settings : Settings) (p : Char → Bool) (h : r.start ≤ r.pos) :
    r.Takes (r.ahead.takeWhile p) (!(r.ahead.takeWhile p).isEmpty) (r.acceptWhile p)
      ((Mode.checked settings).acceptWhile p r) := by
  refine (reads_acceptWhile p h).takes ?_ (Mode.checked_acceptWhile p r)
  rw [acceptWhile_def]
  change ((r.takeFrom p 0).1 != 0) = _
  rw [takeFrom_fst, Nat.zero_add]
  cases r.ahead.takeWhile p <;> rfl

/-- A step goes over one character, if there is one. -/
theorem reads_next (h : r.start ≤ r.pos) : r.Reads (r.ahead.take 1) r.next.2 := by
  cases hahead : r.ahead with
  | nil => exact (next_of_nil h hahead).2
  | cons c cs => exact (next_of_cons h hahead).2

theorem takes_acceptOneOf (settings : Settings) (p : Rune → Bool) (h : r.start ≤ r.pos) :
    r.Takes (if p r.ahead.head? then r.ahead.take 1 else []) (p r.ahead.head?)
      (r.acceptOneOf p) ((Mode.checked settings).acceptOneOf p r) := by
  have hmove : r.acceptOneOf p =
      if p r.ahead.head? then (true, r.next.2) else (false, r.next.2.stepBack) := by
    rw [← next_fst h]
    rfl
  refine Reads.takes ?_ ?_ (Mode.checked_acceptOneOf p r)
  · rw [hmove]
    split
    · exact reads_next h
    · exact reads_stepBack_next h
  · rw [hmove]
    split
    · next hp => exact hp.symm
    · next hp => exact (Bool.eq_false_iff.2 hp).symm

/-- To accept up to a text is to accept up to the character that is the text. -/
theorem acceptUntil_eq (last : String) (h : r.start ≤ r.pos) :
    r.acceptUntil last = r.acceptUntilMatch fun c => c.toString = last := by
  let fits (c : Char) : Bool := c.toString ≠ last
  have hmatch : (r.acceptUntilMatch fun c => c.toString = last) = r.acceptWhile fits := by
    change r.acceptWhile (fun c => !decide (c.toString = last)) = r.acceptWhile fits
    congr
    funext c
    exact decide_not.symm
  have huntil : r.acceptUntil last =
      if Rune.text r.next.1 = last ∨ r.next.1 = none then (false, r.next.2.stepBack)
      else (true, (r.takeWhile fits).2) := by
    rw [← (alike_peek h).takeWhile_eq fits]
    rfl
  obtain ⟨rune, r', hnext⟩ : ∃ rune r', r.next = (rune, r') := ⟨_, _, rfl⟩
  have htake : r.takeWhile fits = r.takeFrom fits 0 := rfl
  rw [hmatch, huntil, acceptWhile_def, htake, hnext]
  cases rune with
  | none => rw [if_pos (.inr rfl), takeFrom_of_end hnext]; rfl
  | some c =>
    by_cases hc : Rune.text (some c) = last
    · have hfits : ¬fits c = true := fun hfits => of_decide_eq_true hfits hc
      rw [if_pos (.inl hc), takeFrom_of_next hnext, if_neg hfits]
      rfl
    · -- The first character is accepted, so something is.
      have hfits : fits c = true := decide_eq_true hc
      have hcount : (r.takeFrom fits 0).1 ≠ 0 := by
        rw [takeFrom_fst, ahead_of_next hnext, List.takeWhile_cons_of_pos hfits, List.length_cons]
        omega
      rw [if_neg (by simp [hc]), bne_iff_ne.2 hcount]

end Reader

/-! ## Loops over a set -/

namespace Reader

variable {p : Rune → Bool} {run : Run Nat}

/-- To read runes as long as they satisfy `p`, one step after the other, and to count them from
    `count`, comes to an end with the run. -/
inductive LoopEnds (settings : Settings) (p : Rune → Bool) : Reader → Nat → Run Nat → Prop
  | stop {r : Reader} {count : Nat} (h : p r.next.1 = false) :
    LoopEnds settings p r count ((Mode.checked settings).undo count r.next.2)
  | step {r : Reader} {count : Nat} {run : Run Nat} (h : p r.next.1 = true)
      (hrest : LoopEnds settings p r.next.2 (count + 1) run) : LoopEnds settings p r count run

/-- The loop ends only in front of a rune that does not satisfy the condition. -/
theorem LoopEnds.exists_misfit (h : LoopEnds settings p r count run) :
    p none = false ∨ ∃ c ∈ r.ahead, p (some c) = false := by
  induction h with
  | @stop r count hp =>
    obtain ⟨rune, r', hnext⟩ : ∃ rune r', r.next = (rune, r') := ⟨_, _, rfl⟩
    rw [hnext] at hp
    cases rune with
    | none => exact .inl hp
    | some c => exact .inr ⟨c, ahead_of_next hnext ▸ List.mem_cons_self, hp⟩
  | @step r count run hp hrest ih =>
    refine ih.imp_right fun ⟨c, hc, hpc⟩ => ⟨c, ?_, hpc⟩
    obtain ⟨rune, r', hnext⟩ : ∃ rune r', r.next = (rune, r') := ⟨_, _, rfl⟩
    rw [hnext] at hc
    cases rune with
    | none =>
      rw [(ahead_of_end hnext).2] at hc
      exact absurd hc List.not_mem_nil
    | some d => exact ahead_of_next hnext ▸ List.mem_cons_of_mem d hc

/-- The loop ends with what reading as much as fits comes to. -/
theorem LoopEnds.run_eq (h : LoopEnds settings p r count run) :
    run = .pure (r.takeFrom (fun c => p (some c)) count).1
      (r.takeFrom (fun c => p (some c)) count).2 := by
  induction h with
  | @stop r count hp =>
    obtain ⟨rune, r', hnext⟩ : ∃ rune r', r.next = (rune, r') := ⟨_, _, rfl⟩
    rw [hnext] at hp ⊢
    rw [Mode.checked_undo hnext]
    cases rune with
    | none => rw [takeFrom_of_end hnext]
    | some c => rw [takeFrom_of_next hnext, if_neg (Bool.eq_false_iff.1 hp)]
  | @step r count run hp hrest ih =>
    obtain ⟨rune, r', hnext⟩ : ∃ rune r', r.next = (rune, r') := ⟨_, _, rfl⟩
    rw [hnext] at hp hrest ih
    cases rune with
    | none =>
      -- The end has been read, and behind it only the end can be read again.
      rcases hrest.exists_misfit with hend | ⟨c, hc, -⟩
      · rw [hp] at hend
        simp at hend
      · rw [(ahead_of_end hnext).2] at hc
        exact absurd hc List.not_mem_nil
    | some c => rw [takeFrom_of_next hnext, if_pos hp, ih]

/-- The loop ends exactly if the end of the input or some rune in front of it does not satisfy the
    condition. -/
theorem exists_loopEnds_iff :
    (∃ run, LoopEnds settings p r count run) ↔
      p none = false ∨ ∃ c ∈ r.ahead, p (some c) = false := by
  refine ⟨fun ⟨run, h⟩ => h.exists_misfit, fun h => ?_⟩
  -- By induction on the characters ahead; each step leaves one less.
  induction hm : r.ahead.length generalizing r count with
  | zero =>
    obtain ⟨rune, r', hnext⟩ : ∃ rune r', r.next = (rune, r') := ⟨_, _, rfl⟩
    rw [List.length_eq_zero_iff.1 hm] at h
    cases rune with
    | none => exact ⟨_, .stop (by simpa [hnext] using h)⟩
    | some c => simp [ahead_of_next hnext] at hm
  | succ m ih =>
    obtain ⟨rune, r', hnext⟩ : ∃ rune r', r.next = (rune, r') := ⟨_, _, rfl⟩
    cases rune with
    | none => simp [(ahead_of_end hnext).1] at hm
    | some c =>
      rw [ahead_of_next hnext] at h hm
      cases hp : p (some c) with
      | false => exact ⟨_, .stop (by rw [hnext, hp])⟩
      | true =>
        have hrest : p none = false ∨ ∃ d ∈ r'.ahead, p (some d) = false := by
          simpa [hp] using h
        obtain ⟨run, hrun⟩ : ∃ run, LoopEnds settings p r' (count + 1) run :=
          ih hrest (Nat.succ.inj hm)
        exact ⟨run, .step (by rw [hnext, hp]) (by rwa [hnext])⟩

/-- To accept as much as fits comes to the end of the input exactly if everything fits. -/
theorem remaining_takeWhile_eq_zero_iff {p : Char → Bool} (h : r.start ≤ r.pos) :
    (r.takeWhile p).2.remaining = 0 ↔ ∀ c ∈ r.ahead, p c = true := by
  have hreads : r.Reads (r.ahead.takeWhile p) (r.takeWhile p).2 := reads_takeFrom p 0 h
  rw [← List.dropWhile_eq_nil_iff, ← hreads.ahead_of_takeWhile, remaining,
    Nat.sub_eq_zero_iff_le, ← Nat.not_lt, pos_lt_size_iff, not_not]

/-- There is no outcome exactly if the loop does not end. -/
theorem acceptRun_eq_none_iff {p : Rune → Bool} (h : r.start ≤ r.pos) :
    r.acceptRun p = none ↔ ¬∃ run, LoopEnds settings p r 0 run := by
  rw [exists_loopEnds_iff, acceptRun_def]
  simp only [remaining_takeWhile_eq_zero_iff h, not_or, not_exists, not_and, Bool.not_eq_false,
    ite_eq_left_iff, reduceCtorEq, imp_false, Classical.not_imp, not_not]

/-- What the loop ends with is what accepting runes of the set comes to. -/
theorem takes_acceptRun {p : Rune → Bool} {run : Run Nat} (h : r.start ≤ r.pos)
    (hrun : LoopEnds settings p r 0 run) :
    ∃ move, r.acceptRun p = some move ∧
      r.Takes (r.ahead.takeWhile fun c => p (some c))
        (r.ahead.takeWhile fun c => p (some c)).length move run := by
  have hsome : r.acceptRun p ≠ none := fun hnone => (acceptRun_eq_none_iff h).1 hnone ⟨run, hrun⟩
  refine ⟨r.takeWhile fun c => p (some c), ?_, (reads_takeFrom _ 0 h).takes ?_ hrun.run_eq⟩
  · rw [acceptRun_def] at hsome ⊢
    split at hsome
    · exact absurd rfl hsome
    · next hgoes => rw [if_neg hgoes]
  · exact (takeFrom_fst _ r 0).trans (Nat.zero_add _)

/-- With `rs` ahead, to accept as much as fits goes over the longest prefix that does. Texts that
    belong to a set are given by the condition to belong to it. -/
structure AcceptsPrefixes (settings : Settings) (r : Reader) (rs : List Char) : Prop where
  acceptWhile : ∀ p : Char → Bool,
    r.Takes (rs.takeWhile p) (!(rs.takeWhile p).isEmpty) (r.acceptWhile p)
      ((Mode.checked settings).acceptWhile p r)
  acceptUntilMatch : ∀ p : Char → Bool,
    r.Takes (rs.takeWhile fun c => !p c) (!(rs.takeWhile fun c => !p c).isEmpty)
      (r.acceptUntilMatch p) ((Mode.checked settings).acceptUntilMatch p r)
  acceptUntil : ∀ last : String,
    r.acceptUntil last = r.acceptUntilMatch (fun c => c.toString = last) ∧
      (Mode.checked settings).acceptUntil last r =
        (Mode.checked settings).acceptUntilMatch (fun c => c.toString = last) r
  acceptRun_ends : ∀ valid : String → Bool,
    (∃ run, LoopEnds settings (fun rune => valid rune.text) r 0 run) ↔
      valid "" = false ∨ ∃ c ∈ rs, valid c.toString = false
  acceptRun : ∀ (valid : String → Bool) run,
    LoopEnds settings (fun rune => valid rune.text) r 0 run →
      ∃ move, r.acceptRun (fun rune => valid rune.text) = some move ∧
        r.Takes (rs.takeWhile fun c => valid c.toString)
          (rs.takeWhile fun c => valid c.toString).length move run
  acceptRun_eq_none : ∀ valid : String → Bool,
    r.acceptRun (fun rune => valid rune.text) = none ↔
      ¬∃ run, LoopEnds settings (fun rune => valid rune.text) r 0 run
  acceptOneOf : ∀ valid : String → Bool,
    r.Takes (if valid (Rune.text rs.head?) then rs.take 1 else []) (valid (Rune.text rs.head?))
      (r.acceptOneOf fun rune => valid rune.text)
      ((Mode.checked settings).acceptOneOf (fun rune => valid rune.text) r)

end Reader

open Reader

/-- Wherever a reader is on its input, whatever it remembers of the last step, and whether steps
    back are strict or not: the runes up to the end are those ahead, and to accept as much as fits
    goes over the longest prefix of them that does. -/
theorem accepts_longest_prefixes (settings : Settings) (r : Reader) (hstart : r.start ≤ r.pos)
    (hpos : r.pos ≤ r.input.size) :
    (∀ read, Utf8.Delivers r.input r.pos read r.input.size ↔ read = r.ahead) ∧
      r.AcceptsPrefixes settings r.ahead := by
  refine ⟨fun read => Utf8.delivers_size_iff hpos, {
    acceptWhile := fun p => takes_acceptWhile settings p hstart
    acceptUntilMatch := fun p => takes_acceptWhile settings (fun c => !p c) hstart
    acceptUntil := fun last => ⟨acceptUntil_eq last hstart, ?_⟩
    acceptRun_ends := fun valid => exists_loopEnds_iff
    acceptRun := fun valid run hrun => takes_acceptRun hstart hrun
    acceptRun_eq_none := fun valid => acceptRun_eq_none_iff hstart
    acceptOneOf := fun valid => takes_acceptOneOf settings (fun rune => valid rune.text) hstart }⟩
  rw [Mode.checked_acceptUntil, acceptUntil_eq last hstart, Mode.checked_acceptUntilMatch]

/-- In front of a letter, a malformed byte and another letter: with the end of the input in the
    set, the loop ends if one of the letters does not belong to it, and otherwise it does not. -/
theorem accepts_longest_prefixes_broken :
    let r : Reader := { input := ⟨#[0x61, 0x61, 0xFF, 0xC3, 0xA9]⟩, pos := 1, width := 4 }
    r.start ≤ r.pos ∧ r.pos ≤ r.input.size ∧
      Utf8.Delivers r.input r.pos ['a', '\uFFFD', 'é'] r.input.size ∧
      (∃ run, LoopEnds {} (fun rune => ["", "a", "\uFFFD"].contains rune.text) r 0 run) ∧
      ¬∃ run, LoopEnds {} (fun rune => ["", "a", "\uFFFD", "é"].contains rune.text) r 0
        run := by
  intro r
  have hahead : ['a', '\uFFFD', 'é'] = r.ahead := by decide +kernel
  obtain ⟨hdelivers, haccepts⟩ := accepts_longest_prefixes {} r (by decide) (by decide)
  rw [← hahead] at haccepts
  refine ⟨by decide, by decide, (hdelivers _).2 hahead, ?_, fun hends => ?_⟩
  · exact (haccepts.acceptRun_ends ["", "a", "\uFFFD"].contains).2
      (.inr ⟨'é', by decide, by decide +kernel⟩)
  · have hall : ['a', '\uFFFD', 'é'].all
        (fun c => ["", "a", "\uFFFD", "é"].contains c.toString) = true := by decide +kernel
    obtain hend | ⟨c, hc, hmisfit⟩ :=
      (haccepts.acceptRun_ends ["", "a", "\uFFFD", "é"].contains).1 hends
    · exact absurd hend (by decide +kernel)
    · exact Bool.false_ne_true (hmisfit.symm.trans (List.all_eq_true.1 hall c hc))

end StateLexer
