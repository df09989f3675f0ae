import StateLexer.Proofs.Text.Decoding
import StateLexer.Reader.Accept

/-!
# What a reader has ahead

For a reader, an input is what it has still *ahead*: a list of characters
(`Reader.ahead`). A move goes over the first of them (`Reader.Reads`), and which
ones it goes over depends on nothing else, neither on what lies behind nor on how
wide the characters are. So what a recognizer does can be told in terms of
characters alone.

* `Reads.trans`: one move and another are one move over the characters of both;
* `next_of_cons`, `reads_peek`, `reads_acceptChar`, `reads_acceptWhile`: the moves of a
  recognizer;
* `Reads.prevRune`: a look back at an ASCII character that has been read.
-/

namespace StateLexer.Reader

/-- The runes that are still to be read, with their widths. -/
def units (r : Reader) : List (Char × Nat) :=
  Utf8.runes.unitsFrom r.input r.pos

/-- The characters that are still to be read. -/
def ahead (r : Reader) : List Char :=
  r.units.map Prod.fst

/-- At the beginning of an encoded string, its characters are ahead. -/
theorem ahead_toUTF8 (s : String) : ({ input := s.toUTF8 } : Reader).ahead = s.toList := by
  have hunits : ({ input := s.toUTF8 } : Reader).units = s.toList.map fun c => (c, c.utf8Size) :=
    Utf8.runes.units_toUTF8 s
  rw [ahead, hunits, List.map_map]
  exact List.map_id _

/-- A move from one reader to the other goes over the characters `cs`. -/
structure Reads (r : Reader) (cs : List Char) (r' : Reader) : Prop where
  start_le_pos : r.start ≤ r.pos
  input_eq : r'.input = r.input
  start_eq : r'.start = r.start
  units : ∃ us, us.map Prod.fst = cs ∧ r.units = us ++ r'.units ∧ r'.pos = r.pos + Utf8.span us

variable {r r' r'' : Reader} {c : Char} {cs ds : List Char} {u : Char × Nat}
  {us : List (Char × Nat)}

theorem reads_refl (h : r.start ≤ r.pos) : r.Reads [] r :=
  ⟨h, rfl, rfl, [], rfl, rfl, rfl⟩

theorem Reads.trans (h : r.Reads cs r') (h' : r'.Reads ds r'') : r.Reads (cs ++ ds) r'' := by
  obtain ⟨hle, hinput, hstart, us, rfl, hunits, hpos⟩ := h
  obtain ⟨-, hinput', hstart', vs, rfl, hunits', hpos'⟩ := h'
  refine ⟨hle, hinput'.trans hinput, hstart'.trans hstart, us ++ vs, List.map_append, ?_, ?_⟩
  · rw [hunits, hunits', List.append_assoc]
  · rw [hpos', hpos, Utf8.span_append, Nat.add_assoc]

theorem Reads.ahead_eq (h : r.Reads cs r') : r.ahead = cs ++ r'.ahead := by
  obtain ⟨us, rfl, hunits, -⟩ := h.units
  rw [ahead, hunits, List.map_append, ahead]

theorem Reads.ahead_nil (h : r.Reads [] r') : r.ahead = r'.ahead :=
  h.ahead_eq

theorem Reads.pos_nil (h : r.Reads [] r') : r'.pos = r.pos := by
  obtain ⟨us, hus, -, hpos⟩ := h.units
  rw [hpos, List.map_eq_nil_iff.1 hus, Utf8.span_nil, Nat.add_zero]

theorem Reads.pos_le (h : r.Reads cs r') : r.pos ≤ r'.pos := by
  obtain ⟨us, -, -, hpos⟩ := h.units
  omega

theorem Reads.pos_lt (h : r.Reads cs r') (hcs : cs ≠ []) : r.pos < r'.pos := by
  obtain ⟨us, rfl, hunits, hpos⟩ := h.units
  rw [hpos]
  exact Nat.lt_add_of_pos_right
    (Utf8.Decoding.span_pos hunits fun hnil => hcs (List.map_eq_nil_iff.2 hnil))

theorem Reads.start_le (h : r.Reads cs r') : r'.start ≤ r'.pos := by
  rw [h.start_eq]
  exact Nat.le_trans h.start_le_pos h.pos_le

/-- A reader at the same place of the same input has the same ahead. -/
theorem reads_nil (h : r.start ≤ r.pos) (hinput : r'.input = r.input) (hstart : r'.start = r.start)
    (hpos : r'.pos = r.pos) : r.Reads [] r' := by
  refine ⟨h, hinput, hstart, [], rfl, ?_, hpos⟩
  rw [units, units, hinput, hpos, List.nil_append]

/-! ## Steps -/

theorem pos_lt_size_iff : r.pos < r.input.size ↔ r.ahead ≠ [] := by
  rw [ahead, units, Utf8.Decoding.unitsFrom]
  split
  · next hlt => simpa using hlt
  · next hlt => simpa using hlt

/-- At the end of the input, a step yields none, and stays there. -/
theorem next_of_units_nil (h : r.units = []) :
    r.next.1 = none ∧ r.next.2.units = [] ∧ r.next.2.pos = r.pos := by
  have hend : ¬r.pos < r.input.size := by
    rw [pos_lt_size_iff, ahead, h]
    exact not_not_intro rfl
  rw [next, if_neg hend]
  exact ⟨rfl, h, rfl⟩

/-- Elsewhere it yields the first character ahead, and goes over it. -/
theorem next_of_units_cons (h : r.units = u :: us) :
    r.next.1 = some u.1 ∧ r.next.2.units = us ∧ r.next.2.pos = r.pos + u.2 := by
  obtain ⟨hlt, hunit⟩ := Utf8.Decoding.unitsFrom_eq_cons h
  have hrune : Utf8.runeAt r.input r.pos = u := hunit
  have hcut : Utf8.runes.unitsFrom r.input r.pos = [u] ++ us := h
  have hrest := Utf8.Decoding.unitsFrom_add_span hcut
  rw [Utf8.span_cons, Utf8.span_nil, Nat.add_zero] at hrest
  rw [next, if_pos hlt, hrune]
  exact ⟨rfl, hrest, rfl⟩

theorem ahead_of_next (h : r.next = (some c, r')) : r.ahead = c :: r'.ahead := by
  cases hunits : r.units with
  | nil =>
    have hnone := (next_of_units_nil hunits).1
    rw [h] at hnone
    simp at hnone
  | cons u us =>
    obtain ⟨hsome, hrest, -⟩ := next_of_units_cons hunits
    rw [h] at hsome hrest
    rw [ahead, ahead, hunits, hrest, List.map_cons, Option.some.inj hsome]

theorem ahead_of_end (h : r.next = (none, r')) : r.ahead = [] ∧ r'.ahead = [] := by
  cases hunits : r.units with
  | nil =>
    have hrest := (next_of_units_nil hunits).2.1
    rw [h] at hrest
    rw [ahead, ahead, hunits, hrest]
    exact ⟨rfl, rfl⟩
  | cons u us =>
    have hsome := (next_of_units_cons hunits).1
    rw [h] at hsome
    simp at hsome

theorem next_of_nil (h : r.start ≤ r.pos) (hahead : r.ahead = []) :
    r.next.1 = none ∧ r.Reads [] r.next.2 := by
  obtain ⟨hnone, -, hpos⟩ := next_of_units_nil (List.map_eq_nil_iff.1 hahead)
  exact ⟨hnone, reads_nil h (by simp) (by simp) hpos⟩

theorem next_of_cons (h : r.start ≤ r.pos) (hahead : r.ahead = c :: cs) :
    r.next.1 = some c ∧ r.Reads [c] r.next.2 := by
  obtain ⟨u, us, hunits, rfl, -⟩ := List.map_eq_cons_iff.1 hahead
  obtain ⟨hsome, hrest, hpos⟩ := next_of_units_cons hunits
  refine ⟨hsome, h, by simp, by simp, [u], rfl, ?_, ?_⟩
  · rw [hunits, hrest, List.singleton_append]
  · rw [hpos, Utf8.span_cons, Utf8.span_nil, Nat.add_zero]

/-- A step that is undone is none. -/
theorem reads_stepBack_next (h : r.start ≤ r.pos) : r.Reads [] r.next.2.stepBack :=
  reads_nil h (by simp) (by simp) (stepBack_next_pos h)

theorem next_fst (h : r.start ≤ r.pos) : r.next.1 = r.ahead.head? := by
  cases hahead : r.ahead with
  | nil => exact (next_of_nil h hahead).1
  | cons c cs => exact (next_of_cons h hahead).1

/-- A look ahead shows the first character, and goes over none. -/
theorem reads_peek (h : r.start ≤ r.pos) : r.peek.1 = r.ahead.head? ∧ r.Reads [] r.peek.2 :=
  ⟨next_fst h, reads_stepBack_next h⟩

/-! ## Reading what fits -/

theorem acceptChar_of_cons {p : Char → Bool} (h : r.start ≤ r.pos) (hahead : r.ahead = c :: cs)
    (hc : p c = true) : (r.acceptChar p).1 = true ∧ r.Reads [c] (r.acceptChar p).2 := by
  obtain ⟨hfst, hreads⟩ := next_of_cons h hahead
  have hp : (r.next.1).any p = true := by rw [hfst]; exact hc
  rw [acceptChar_def, if_pos hp]
  exact ⟨rfl, hreads⟩

theorem acceptChar_of_not {p : Char → Bool} (h : r.start ≤ r.pos)
    (hahead : ∀ c ∈ r.ahead.head?, p c = false) :
    (r.acceptChar p).1 = false ∧ r.Reads [] (r.acceptChar p).2 := by
  have hp : ¬(r.next.1).any p = true := by
    rw [next_fst h]
    simpa [Option.any_eq_false] using hahead
  rw [acceptChar_def, if_neg hp]
  exact ⟨rfl, reads_stepBack_next h⟩

/-- Either the first character ahead fits and is read, or none is. -/
theorem reads_acceptChar (p : Char → Bool) (h : r.start ≤ r.pos) :
    (∃ c, p c = true ∧ (r.acceptChar p).1 = true ∧ r.Reads [c] (r.acceptChar p).2) ∨
      (r.acceptChar p).1 = false ∧ r.Reads [] (r.acceptChar p).2 ∧
        ∀ c ∈ (r.acceptChar p).2.ahead.head?, p c = false := by
  by_cases hfits : ∃ c ∈ r.ahead.head?, p c = true
  · obtain ⟨c, hhead, hc⟩ := hfits
    obtain ⟨cs, hahead⟩ := List.head?_eq_some_iff.1 hhead
    exact .inl ⟨c, hc, acceptChar_of_cons h hahead hc⟩
  · have hnone (c : Char) (hc : c ∈ r.ahead.head?) : p c = false :=
      Bool.eq_false_iff.2 fun hp => hfits ⟨c, hc, hp⟩
    obtain ⟨hfst, hreads⟩ := acceptChar_of_not h hnone
    refine .inr ⟨hfst, hreads, ?_⟩
    rw [hreads.ahead_eq] at hnone
    exact hnone

/-- Reading as much as fits goes over all characters that do. -/
theorem reads_takeFrom (p : Char → Bool) (count : Nat) (h : r.start ≤ r.pos) :
    r.Reads (r.ahead.takeWhile p) (r.takeFrom p count).2 := by
  rw [takeFrom]
  fun_induction Mode.takeFrom Mode.plain p r count with
  | case1 r count c r' hnext hc ih =>
    have hahead := ahead_of_next hnext
    have hreads : r.Reads [c] r' := by
      have hstep := (next_of_cons h hahead).2
      rwa [hnext] at hstep
    rw [hahead, List.takeWhile_cons_of_pos hc]
    exact hreads.trans (ih hreads.start_le)
  | case2 r count c r' hnext hc =>
    rw [ahead_of_next hnext, List.takeWhile_cons_of_neg hc]
    have hstep := reads_stepBack_next h
    rwa [hnext] at hstep
  | case3 r count r' hnext =>
    rw [(ahead_of_end hnext).1, List.takeWhile_nil]
    have hstep := reads_stepBack_next h
    rwa [hnext] at hstep

theorem reads_acceptWhile (p : Char → Bool) (h : r.start ≤ r.pos) :
    r.Reads (r.ahead.takeWhile p) (r.acceptWhile p).2 :=
  reads_takeFrom p 0 h

/-- Behind all characters that fit comes one that does not, or the end. -/
theorem Reads.ahead_of_takeWhile {p : Char → Bool} (h : r.Reads (r.ahead.takeWhile p) r') :
    r'.ahead = r.ahead.dropWhile p :=
  List.append_cancel_left (h.ahead_eq.symm.trans List.takeWhile_append_dropWhile.symm)

/-- What fits and has been read already belongs to it. -/
theorem Reads.trans_takeWhile {p : Char → Bool} (h : r.Reads cs r')
    (hcs : ∀ c ∈ cs, p c = true) (h' : r'.Reads (r'.ahead.takeWhile p) r'') :
    r.Reads (r.ahead.takeWhile p) r'' := by
  rw [h.ahead_eq, List.takeWhile_append_of_pos hcs]
  exact h.trans h'

/-- The characters `cs` satisfy `p`, and the one behind them, if there is one, does not. -/
def IsRun (p : Char → Bool) (cs : List Char) (next : Option Char) : Prop :=
  (∀ c ∈ cs, p c = true) ∧ ∀ c ∈ next, p c = false

/-- A run is all that satisfies `p` at the beginning of a text. -/
theorem IsRun.takeWhile_eq {p : Char → Bool} {rest : List Char} (h : IsRun p cs rest.head?) :
    (cs ++ rest).takeWhile p = cs := by
  rw [List.takeWhile_append_of_pos h.1]
  cases rest with
  | nil => simp
  | cons c rest => simp [h.2 c rfl]

theorem takeWhile_eq_nil {p : Char → Bool} (h : ∀ c ∈ cs.head?, p c = false) :
    cs.takeWhile p = [] :=
  IsRun.takeWhile_eq ⟨fun _ hc => absurd hc List.not_mem_nil, h⟩

theorem takeWhile_ne_nil {p : Char → Bool} (hc : cs.head? = some c) (hp : p c = true) :
    cs.takeWhile p ≠ [] := by
  obtain ⟨tail, rfl⟩ := List.head?_eq_some_iff.1 hc
  simp [List.takeWhile_cons_of_pos hp]

theorem Reads.isRun {p : Char → Bool} (h : r.Reads (r.ahead.takeWhile p) r') :
    IsRun p (r.ahead.takeWhile p) r'.ahead.head? := by
  refine ⟨fun c hc => List.all_eq_true.1 List.all_takeWhile c hc, fun c hc => ?_⟩
  rw [h.ahead_of_takeWhile] at hc
  have hnot := List.head?_dropWhile_not p r.ahead
  rw [Option.mem_def.1 hc] at hnot
  simpa using hnot

/-! ## ASCII characters -/

/-- ASCII characters are as wide as they are many. -/
theorem Reads.pos_eq (h : r.Reads cs r') (hcs : ∀ c ∈ cs, c.val < 0x80) :
    r'.pos = r.pos + cs.length := by
  obtain ⟨us, rfl, hunits, hpos⟩ := h.units
  rw [hpos, List.length_map]
  congr 1
  refine Utf8.span_of_ascii hunits fun u hu => hcs _ (List.mem_map_of_mem hu)

theorem Reads.prevRune_nil (h : r.Reads [] r') : r'.prevRune = r.prevRune := by
  unfold Reader.prevRune
  rw [h.input_eq, h.pos_nil]

/-- A look back shows the last character that has been read, if it is an ASCII character. -/
theorem Reads.prevRune (h : r.Reads (cs ++ [c]) r') (hc : c.val < 0x80) :
    r'.prevRune = some c := by
  obtain ⟨us', hmap, hunits, hpos⟩ := h.units
  obtain ⟨us, us₁, rfl, -, hlast⟩ := List.map_eq_append_iff.1 hmap
  obtain ⟨u, rfl, rfl⟩ := List.map_eq_singleton_iff.1 hlast
  rw [List.append_assoc] at hunits
  have hlast := Utf8.Decoding.unitsFrom_add_span hunits
  obtain ⟨-, hu⟩ := Utf8.Decoding.unitsFrom_eq_cons hlast
  have hrune : Utf8.runeAt r.input (r.pos + Utf8.span us) = u := hu
  obtain ⟨hwidth, b, hb, hbyte⟩ := Utf8.unitsFrom_of_ascii hlast hc
  have hpos' : r'.pos = r.pos + Utf8.span us + 1 := by
    rw [hpos, Utf8.span_append, Utf8.span_cons, Utf8.span_nil, hwidth, Nat.add_assoc]
  -- The byte in front of the reader is no continuation, so the look back ends there.
  have hlead : leadBefore r.input 3 (r.pos + Utf8.span us) = r.pos + Utf8.span us := by
    rw [leadBefore, if_neg]
    rw [hbyte]
    simp [Utf8.not_isContinuation hb]
  rw [Reader.prevRune, if_neg (by omega), h.input_eq, hpos', Nat.add_sub_cancel, hlead]
  simp only [hrune, hwidth, if_true]

theorem Reads.prevRune_eq_getLast? (h : r.Reads cs r') (hne : cs ≠ [])
    (hcs : ∀ c ∈ cs, c.val < 0x80) : r'.prevRune = cs.getLast? := by
  have hsplit := List.dropLast_concat_getLast hne
  rw [List.getLast?_eq_some_getLast hne]
  exact (hsplit ▸ h).prevRune (hcs _ (List.getLast_mem hne))

end StateLexer.Reader
