import StateLexer.Proofs.Reader.Ahead
import StateLexer.Recognizer.Name

/-!
# The language of names

A name consists of labels with points between them, and perhaps one at its end
(`DomainName.IsName`). The recognizer always reads a whole word, and finds out
whether that is a name on its way (`DomainName.Decides`): in the middle of a name,
what is still to come must complete it (`DomainName.Completes`), and each label
that is read leaves less to come (`completes_append_point`).

* `decides_readLabels`: the recognizer in the middle of a name;
* `decides_read`: it accepts exactly the names.
-/

namespace StateLexer.DomainName

/-! ## Names -/

/-- The text is a label. -/
structure IsLabel (l : List Char) : Prop where
  inLabel : ∀ c ∈ l, CharClass.inLabel c = true
  head : ∃ c ∈ l.head?, c.isAlphanum = true
  last : ∃ c ∈ l.getLast?, c.isAlphanum = true
  length_le : l.length ≤ maxLabelLength

/-- The text is a label, or labels with points between them. -/
inductive Labels : List Char → Prop
  | last {l : List Char} (label : IsLabel l) : Labels l
  | cons {l cs : List Char} (label : IsLabel l) (rest : Labels cs) : Labels (l ++ '.' :: cs)

/-- The text is a name. A point at its end does not count for its length. -/
def IsName (cs : List Char) : Prop :=
  ∃ body, Labels body ∧ body.length ≤ maxNameLength ∧ (cs = body ∨ cs = body ++ ['.'])

/-- The text completes a name of which `before` characters have been read: its first
    label is to come, or its last character was a point. -/
def Completes (before : Nat) (first : Bool) (cs : List Char) : Prop :=
  (∃ body, Labels body ∧ before + body.length ≤ maxNameLength ∧ (cs = body ∨ cs = body ++ ['.'])) ∨
    first = false ∧ cs = [] ∧ before - 1 ≤ maxNameLength

variable {l l' cs cs' : List Char} {c : Char} {before : Nat} {first : Bool}

theorem isName_iff : IsName cs ↔ Completes 0 true cs := by
  simp [IsName, Completes]

theorem ascii_of_isAlpha (hc : c.isAlpha = true) : c.val < 0x80 := by
  rcases Bool.or_eq_true_iff.1 hc with hupper | hlower
  · exact UInt32.lt_of_le_of_lt (of_decide_eq_true hupper).2 (by decide)
  · exact UInt32.lt_of_le_of_lt (of_decide_eq_true (Bool.and_eq_true_iff.1 hlower).2) (by decide)

theorem ascii_of_isDigit (hc : c.isDigit = true) : c.val < 0x80 := by
  rw [UInt32.lt_iff_toNat_lt]
  exact Nat.lt_of_le_of_lt (Char.isDigit_iff_toNat.1 hc).2 (by decide)

theorem ascii_of_inWord (hc : CharClass.inWord c = true) : c.val < 0x80 := by
  simp only [CharClass.inWord, CharClass.inLabel, CharClass.has, Bool.or_eq_true,
    decide_eq_true_eq] at hc
  rcases hc with (halphanum | rfl) | rfl
  · rcases Bool.or_eq_true_iff.1 halphanum with halpha | hdigit
    · exact ascii_of_isAlpha halpha
    · exact ascii_of_isDigit hdigit
  · decide
  · decide

theorem inLabel_of_isAlphanum (hc : c.isAlphanum = true) : CharClass.inLabel c = true := by
  simp [CharClass.inLabel, CharClass.has, hc]

theorem isAlphanum_or_hyphen (hc : CharClass.inLabel c = true) : c.isAlphanum = true ∨ c = '-' := by
  simpa [CharClass.inLabel, CharClass.has] using hc

theorem inWord_of_inLabel (hc : CharClass.inLabel c = true) : CharClass.inWord c = true := by
  simp [CharClass.inWord, hc]

/-- The first label of a text is all up to the first point. -/
theorem append_point_inj (hl : ∀ c ∈ l, CharClass.inLabel c = true)
    (hl' : ∀ c ∈ l', CharClass.inLabel c = true) (heq : l ++ '.' :: cs = l' ++ '.' :: cs') :
    l = l' ∧ cs = cs' := by
  have hrun {l : List Char} (cs : List Char) (hl : ∀ c ∈ l, CharClass.inLabel c = true) :
      (l ++ '.' :: cs).takeWhile CharClass.inLabel = l :=
    Reader.IsRun.takeWhile_eq ⟨hl, fun c hc => by obtain rfl := Option.some.inj hc; rfl⟩
  obtain rfl : l = l' := by rw [← hrun cs hl, heq, hrun cs' hl']
  exact ⟨rfl, (List.cons.inj (List.append_cancel_left heq)).2⟩

theorem point_not_mem (hl : ∀ c ∈ l, CharClass.inLabel c = true) : '.' ∉ l :=
  fun hmem => absurd (hl '.' hmem) (by decide)

theorem Labels.ne_nil (h : Labels cs) : cs ≠ [] := by
  cases h with
  | last label =>
    rintro rfl
    simpa using label.head
  | cons label rest => simp

/-- A label with a point behind it begins a name if the rest completes it. -/
theorem completes_append_point (hl : ∀ c ∈ l, CharClass.inLabel c = true) :
    Completes before first (l ++ '.' :: cs) ↔
      IsLabel l ∧ Completes (before + l.length + 1) false cs := by
  constructor
  · rintro (⟨body, hbody, hlength, hcs⟩ | ⟨-, hnil, -⟩)
    · cases hbody with
      | @last l' label =>
        rcases hcs with hcs | hcs
        · subst hcs
          have hmem : '.' ∈ l ++ '.' :: cs := List.mem_append_right l List.mem_cons_self
          exact absurd hmem (point_not_mem label.inLabel)
        · obtain ⟨rfl, rfl⟩ := append_point_inj hl label.inLabel hcs
          exact ⟨label, .inr ⟨rfl, rfl, by omega⟩⟩
      | @cons l' cs' label rest =>
        rw [List.length_append, List.length_cons] at hlength
        rcases hcs with hcs | hcs
        · obtain ⟨rfl, rfl⟩ := append_point_inj hl label.inLabel hcs
          exact ⟨label, .inl ⟨cs, rest, by omega, .inl rfl⟩⟩
        · rw [List.append_assoc, List.cons_append] at hcs
          obtain ⟨rfl, rfl⟩ := append_point_inj hl label.inLabel hcs
          exact ⟨label, .inl ⟨cs', rest, by omega, .inr rfl⟩⟩
    · simp at hnil
  · rintro ⟨hlabel, ⟨body, hbody, hlength, hcs⟩ | ⟨-, rfl, hlength⟩⟩
    · refine .inl ⟨l ++ '.' :: body, .cons hlabel hbody, ?_, ?_⟩
      · rw [List.length_append, List.length_cons]
        omega
      · rcases hcs with rfl | rfl
        · exact .inl rfl
        · exact .inr (by rw [List.append_assoc, List.cons_append])
    · exact .inl ⟨l, .last hlabel, by omega, .inr rfl⟩

/-- A label alone is a name. -/
theorem completes_label (hl : ∀ c ∈ l, CharClass.inLabel c = true) (hne : l ≠ []) :
    Completes before first l ↔ IsLabel l ∧ before + l.length ≤ maxNameLength := by
  constructor
  · rintro (⟨body, hbody, hlength, rfl | rfl⟩ | ⟨-, hnil, -⟩)
    · cases hbody with
      | last label => exact ⟨label, hlength⟩
      | cons label rest => exact absurd (by simp) (point_not_mem hl)
    · exact absurd (by simp) (point_not_mem hl)
    · exact absurd hnil hne
  · rintro ⟨hlabel, hlength⟩
    exact .inl ⟨l, .last hlabel, hlength, .inl rfl⟩

/-- Behind a point, nothing is needed. -/
theorem completes_nil : Completes before first [] ↔ first = false ∧ before - 1 ≤ maxNameLength := by
  constructor
  · rintro (⟨body, hbody, -, hnil | hnil⟩ | ⟨hfirst, -, hlength⟩)
    · exact absurd hnil.symm hbody.ne_nil
    · simp at hnil
    · exact ⟨hfirst, hlength⟩
  · rintro ⟨hfirst, hlength⟩
    exact .inr ⟨hfirst, rfl, hlength⟩

/-- No label begins with another character than a letter or digit. -/
theorem not_completes (hc : c.isAlphanum = false) : ¬Completes before first (c :: cs) := by
  rintro (⟨body, hbody, -, hcs⟩ | ⟨-, hnil, -⟩)
  · have hhead : ∃ d ∈ body.head?, d.isAlphanum = true := by
      cases hbody with
      | last label => exact label.head
      | @cons l rest label =>
        obtain ⟨d, hd, halnum⟩ := label.head
        obtain ⟨l, rfl⟩ := List.head?_eq_some_iff.1 hd
        exact ⟨d, rfl, halnum⟩
    obtain ⟨d, hd, halnum⟩ := hhead
    obtain ⟨body, rfl⟩ := List.head?_eq_some_iff.1 hd
    have hcd : c = d := by rcases hcs with hcs | hcs <;> exact (List.cons.inj hcs).1
    rw [hcd, halnum] at hc
    simp at hc
  · simp at hnil

/-- A name begins with a label. -/
theorem isLabel_of_completes (hl : ∀ c ∈ l, CharClass.inLabel c = true) (hne : l ≠ [])
    (hcs : ∀ c ∈ cs.head?, c = '.') (h : Completes before first (l ++ cs)) : IsLabel l := by
  cases cs with
  | nil =>
    rw [List.append_nil] at h
    exact ((completes_label hl hne).1 h).1
  | cons c cs =>
    obtain rfl := hcs c rfl
    exact ((completes_append_point hl).1 h).1

/-! ## The recognizer -/

variable {r r' : Reader} {good good' : Prop} {reading : Reading × Reader}

/-- A reading of the whole word, which is accepted if, and only if, it is `good`. -/
def Decides (r : Reader) (good : Prop) (reading : Reading × Reader) : Prop :=
  r.Reads (r.ahead.takeWhile CharClass.inWord) reading.2 ∧
    (reading.1 = .accepted ∧ good ∨ (∃ flaw, reading.1 = .malformed flaw) ∧ ¬good)

/-- What has been read of the word already belongs to the reading. -/
theorem Decides.of_reads (h : r.Reads cs r') (hcs : ∀ c ∈ cs, CharClass.inWord c = true)
    (hgood : good ↔ good') (h' : Decides r' good' reading) : Decides r good reading := by
  obtain ⟨hreads, hdecides⟩ := h'
  rw [← hgood] at hdecides
  exact ⟨h.trans_takeWhile hcs hreads, hdecides⟩

theorem decides_flawed (flaw : Flaw) (h : r.start ≤ r.pos) (hgood : ¬good) :
    Decides r good (flawedWord .plain flaw r) :=
  ⟨Reader.reads_acceptWhile _ h, .inr ⟨⟨flaw, rfl⟩, hgood⟩⟩

/-- The length that counts at the end of a name. -/
theorem decides_readEnd {start : Nat} (h : r.start ≤ r.pos)
    (hend : ∀ c ∈ r.ahead.head?, CharClass.inWord c = false)
    (hgood : good ↔ (if r.prevRune = some '.' then r.pos - start - 1 else r.pos - start) ≤
      maxNameLength) : Decides r good (readEnd .plain start r) := by
  simp only [readEnd]
  generalize (if r.prevRune = some '.' then r.pos - start - 1 else r.pos - start) = length at *
  split
  · next hlong => exact decides_flawed _ h (mt hgood.1 (Nat.not_le.2 hlong))
  · next hlong =>
    refine ⟨?_, .inl ⟨rfl, hgood.2 (Nat.le_of_not_gt hlong)⟩⟩
    rw [Reader.takeWhile_eq_nil hend]
    exact Reader.reads_refl h

/-- From a letter or digit on, all characters of a label are read. A look back and the
    distance tell whether they are one. -/
theorem reads_label (h : r.start ≤ r.pos) (hnext : r.next = (some c, r'))
    (hc : c.isAlphanum = true) :
    ∃ l, r.Reads l (r'.acceptWhile CharClass.inLabel).2 ∧ l ≠ [] ∧
      Reader.IsRun CharClass.inLabel l (r'.acceptWhile CharClass.inLabel).2.ahead.head? ∧
      (r'.acceptWhile CharClass.inLabel).2.pos = r.pos + l.length ∧
      (r'.acceptWhile CharClass.inLabel).2.prevRune ≠ some '.' ∧
      (IsLabel l ↔ (r'.acceptWhile CharClass.inLabel).2.prevRune ≠ some '-' ∧
        l.length ≤ maxLabelLength) := by
  have hfst := Reader.next_fst h
  rw [hnext] at hfst
  obtain ⟨cs, hahead⟩ := List.head?_eq_some_iff.1 hfst.symm
  have hstep := (Reader.next_of_cons h hahead).2
  rw [hnext] at hstep
  have hreads := hstep.trans_takeWhile (p := CharClass.inLabel)
    (fun d hd => by rw [List.mem_singleton.1 hd]; exact inLabel_of_isAlphanum hc)
    (Reader.reads_acceptWhile _ hstep.start_le)
  have hrun := hreads.isRun
  have hhead : r.ahead.takeWhile CharClass.inLabel = c :: cs.takeWhile CharClass.inLabel := by
    rw [hahead, List.takeWhile_cons_of_pos (inLabel_of_isAlphanum hc)]
  generalize r.ahead.takeWhile CharClass.inLabel = l at *
  generalize (r'.acceptWhile CharClass.inLabel).2 = label at *
  -- The look back shows the last character of the label.
  obtain ⟨init, d, hlast⟩ : ∃ init d, l = init ++ [d] :=
    ⟨l.dropLast, l.getLast (by simp [hhead]), (List.dropLast_concat_getLast _).symm⟩
  have hd : CharClass.inLabel d = true := hrun.1 d (by simp [hlast])
  have hprev : label.prevRune = some d :=
    (hlast ▸ hreads).prevRune (ascii_of_inWord (inWord_of_inLabel hd))
  refine ⟨l, hreads, by simp [hhead], hrun,
    hreads.pos_eq fun c hc => ascii_of_inWord (inWord_of_inLabel (hrun.1 c hc)), ?_, ?_⟩
  · rw [hprev]
    rintro heq
    rw [Option.some.inj heq] at hd
    exact absurd hd (by decide)
  · rw [hprev]
    constructor
    · rintro ⟨-, -, ⟨e, he, halnum⟩, hlength⟩
      refine ⟨fun heq => ?_, hlength⟩
      rw [hlast, List.getLast?_concat, Option.mem_some_iff] at he
      rw [← he, Option.some.inj heq] at halnum
      exact absurd halnum (by decide)
    · rintro ⟨hne, hlength⟩
      refine ⟨hrun.1, ⟨c, by simp [hhead], hc⟩, ⟨d, by simp [hlast], ?_⟩, hlength⟩
      exact (isAlphanum_or_hyphen hd).resolve_right fun heq => hne (congrArg some heq)

/-- In a word, a point follows a label, or nothing. -/
theorem word_of_label {label : Reader} (hreads : r.Reads l label)
    (hrun : Reader.IsRun CharClass.inLabel l label.ahead.head?) :
    r.ahead.takeWhile CharClass.inWord = l ++ label.ahead.takeWhile CharClass.inWord ∧
      ∀ d ∈ (label.ahead.takeWhile CharClass.inWord).head?, d = '.' := by
  constructor
  · rw [hreads.ahead_eq,
      List.takeWhile_append_of_pos fun c hc => inWord_of_inLabel (hrun.1 c hc)]
  · intro d hd
    rw [List.head?_takeWhile, Option.mem_def, Option.filter_eq_some_iff] at hd
    have hnot := hrun.2 d hd.1
    have hword := hd.2
    simp only [CharClass.inWord, hnot, Bool.false_or, decide_eq_true_eq] at hword
    exact hword

theorem decides_of_not_isLabel {label : Reader} (flaw : Flaw) (hreads : r.Reads l label)
    (hrun : Reader.IsRun CharClass.inLabel l label.ahead.head?) (hne : l ≠ [])
    (hlabel : ¬IsLabel l) :
    Decides r (Completes before first (r.ahead.takeWhile CharClass.inWord))
      (flawedWord .plain flaw label) := by
  obtain ⟨hword, hpoint⟩ := word_of_label hreads hrun
  refine .of_reads hreads (fun c hc => inWord_of_inLabel (hrun.1 c hc)) ?_
    (decides_flawed flaw hreads.start_le not_false)
  rw [hword]
  exact iff_of_false (fun hcomp => hlabel (isLabel_of_completes hrun.1 hne hpoint hcomp)) not_false

/-- Behind a label and a point, the rest of the word decides. -/
theorem Decides.of_point {start : Nat} {label point : Reader} (hstart : start ≤ r.pos)
    (hreads : r.Reads l label) (hrun : Reader.IsRun CharClass.inLabel l label.ahead.head?)
    (hlabel : IsLabel l) (hpoint : label.Reads ['.'] point)
    (hdecides : Decides point
      (Completes (point.pos - start) false (point.ahead.takeWhile CharClass.inWord)) reading) :
    Decides r (Completes (r.pos - start) first (r.ahead.takeWhile CharClass.inWord)) reading := by
  have hall := hreads.trans hpoint
  have hword := CharClass.inWord_append_point fun c hc => inWord_of_inLabel (hrun.1 c hc)
  have hpos := hall.pos_eq fun c hc => ascii_of_inWord (hword c hc)
  rw [List.length_append, List.length_singleton] at hpos
  have hlength : point.pos - start = r.pos - start + l.length + 1 := by omega
  refine .of_reads hall hword ?_ hdecides
  rw [hall.ahead_eq, List.takeWhile_append_of_pos hword, List.append_assoc,
    List.singleton_append, completes_append_point hrun.1, hlength]
  exact and_iff_right hlabel

/-- With a label and no point behind it, the word ends, and the name with it. -/
theorem decides_of_no_point {start : Nat} {label point : Reader} (hstart : start ≤ r.pos)
    (hreads : r.Reads l label) (hrun : Reader.IsRun CharClass.inLabel l label.ahead.head?)
    (hne : l ≠ []) (hlabel : IsLabel l) (hprev : label.prevRune ≠ some '.')
    (hpoint : label.Reads [] point) (hnext : ∀ c ∈ point.ahead.head?, c ≠ '.') :
    Decides r (Completes (r.pos - start) first (r.ahead.takeWhile CharClass.inWord))
      (readEnd .plain start point) := by
  have hall := hreads.trans hpoint
  rw [List.append_nil] at hall
  have hpos := hall.pos_eq fun c hc => ascii_of_inWord (inWord_of_inLabel (hrun.1 c hc))
  have hahead := hpoint.ahead_nil
  have hend : ∀ c ∈ point.ahead.head?, CharClass.inWord c = false := by
    intro c hc
    have hnot := hrun.2 c (by rwa [hahead])
    simp [CharClass.inWord, hnot, hnext c hc]
  rw [(word_of_label hreads hrun).1, hahead, Reader.takeWhile_eq_nil hend, List.append_nil]
  refine .of_reads hall (fun c hc => inWord_of_inLabel (hrun.1 c hc)) Iff.rfl
    (decides_readEnd hpoint.start_le hend ?_)
  rw [completes_label hrun.1 hne, and_iff_right hlabel, hpoint.prevRune_nil, if_neg hprev, hpos]
  omega

/-- In front of what is neither a letter nor a digit, a name can only end, and only
    behind a point. -/
theorem decides_of_not_isAlphanum {next : Option Char} (start : Nat) (h : r.start ≤ r.pos)
    (hnext : r.next = (next, r')) (hnot : ∀ c ∈ next, c.isAlphanum = false)
    (hpoint : first = false → r.prevRune = some '.') :
    Decides r (Completes (r.pos - start) first (r.ahead.takeWhile CharClass.inWord))
      (if first || next.any CharClass.inWord then
          flawedWord .plain .labelStart r'.stepBack
        else readEnd .plain start r'.stepBack) := by
  have hhead := Reader.next_fst h
  have hreads := Reader.reads_stepBack_next h
  rw [hnext] at hhead hreads
  change next = r.ahead.head? at hhead
  split
  · next hflaw =>
    refine .of_reads hreads (by simp) (iff_of_false ?_ not_false)
      (decides_flawed _ hreads.start_le not_false)
    cases hahead : r.ahead with
    | nil =>
      rw [hahead] at hhead
      rw [List.takeWhile_nil, completes_nil]
      simp_all
    | cons c cs =>
      rw [hahead, List.head?_cons] at hhead
      subst hhead
      by_cases hc : CharClass.inWord c = true
      · rw [List.takeWhile_cons_of_pos hc]
        exact not_completes (hnot c rfl)
      · rw [List.takeWhile_cons_of_neg hc, completes_nil]
        simp_all
  · next hend =>
    simp only [Bool.or_eq_true, not_or, Bool.not_eq_true, Option.any_eq_false] at hend
    obtain ⟨rfl, hend⟩ := hend
    have hahead := hreads.ahead_nil
    have hpos := hreads.pos_nil
    have hend' : ∀ c ∈ r.ahead.head?, CharClass.inWord c = false := by
      intro c hc
      rw [← hhead] at hc
      simpa using hend c hc
    refine .of_reads hreads (by simp) Iff.rfl (decides_readEnd hreads.start_le ?_ ?_)
    · rwa [← hahead]
    · rw [hreads.prevRune_nil, hpoint rfl, if_pos rfl, hpos, Reader.takeWhile_eq_nil hend',
        completes_nil, and_iff_right rfl]

/-- The recognizer decides whether the word completes the name that it has begun to
    read at offset `start`. -/
theorem decides_readLabels (start : Nat) (first : Bool) (h : r.start ≤ r.pos)
    (hstart : start ≤ r.pos) (hpoint : first = false → r.prevRune = some '.') :
    Decides r (Completes (r.pos - start) first (r.ahead.takeWhile CharClass.inWord))
      (readLabels .plain start first r) := by
  fun_induction readLabels .plain start first r with
  | case1 first r c r' hnext hc label ih =>
    obtain ⟨l, hreads, hne, hrun, hpos, hprev, hiff⟩ := reads_label h hnext hc
    simp only [Mode.plain_andThen]
    split
    · next hlast =>
      -- The label ends with a hyphen.
      exact decides_of_not_isLabel _ hreads hrun hne fun hlabel => (hiff.1 hlabel).1 hlast
    next hlast =>
    split
    · next hlong =>
      have hlength : maxLabelLength < l.length := by
        simp only [label, hpos] at hlong
        omega
      exact decides_of_not_isLabel _ hreads hrun hne
        fun hlabel => absurd (hiff.1 hlabel).2 (Nat.not_le.2 hlength)
    next hlong =>
    have hlabel : IsLabel l := by
      refine hiff.2 ⟨hlast, ?_⟩
      simp only [label, hpos] at hlong
      omega
    rcases Reader.reads_acceptChar (· = '.') hreads.start_le with
      ⟨d, hd, hyes, hreads'⟩ | ⟨hno, hreads', hnext'⟩
    · obtain rfl : d = '.' := of_decide_eq_true hd
      have hle : start ≤ (label.acceptChar (· = '.')).2.pos :=
        Nat.le_trans hstart (hreads.trans hreads').pos_le
      rw [if_pos hyes]
      exact .of_point hstart hreads hrun hlabel hreads'
        (ih hreads'.start_le hle fun _ => (hreads.trans hreads').prevRune (by decide))
    · rw [if_neg (Bool.eq_false_iff.1 hno)]
      exact decides_of_no_point hstart hreads hrun hne hlabel hprev hreads'
        fun c hc => of_decide_eq_false (hnext' c hc)
  | case2 first r c r' hnext hc =>
    -- From here on, no label follows.
    exact decides_of_not_isAlphanum start h hnext (by simpa using hc) hpoint
  | case3 first r r' hnext =>
    simpa using decides_of_not_isAlphanum start h hnext (by simp) hpoint

/-- Where no character of a label is ahead, nothing is read. -/
theorem read_of_not_inLabel (h : r.start ≤ r.pos)
    (hnot : r.ahead.head?.any CharClass.inLabel = false) :
    read .plain r = (.rejected, r.peek.2) := by
  simp [read, (Reader.reads_peek h).1, hnot]

/-- The recognizer accepts a name, and reads the whole word in any case. -/
theorem decides_read (h : r.start ≤ r.pos)
    (hlabel : r.ahead.head?.any CharClass.inLabel = true) :
    Decides r (IsName (r.ahead.takeWhile CharClass.inWord)) (read .plain r) := by
  obtain ⟨hpeek, hreads⟩ := Reader.reads_peek h
  have hahead := hreads.ahead_nil
  simp only [read, Mode.plain_andThen, Mode.plain_peek, hpeek, hlabel, if_true]
  have hdecides := decides_readLabels r.peek.2.pos true hreads.start_le (Nat.le_refl _) (by simp)
  refine .of_reads hreads (by simp) ?_ hdecides
  rw [isName_iff, Nat.sub_self, hahead]

end StateLexer.DomainName
