import StateLexer.Proofs.Recognizer.Acceptance

/-!
# The language of labels

The recognizer of single labels reads the same on every way out (`Label.stretch`): all
characters of a label that are ahead, and a point behind them, if there is one. A hyphen
in front of a label stops it at once, one at the end when it looks back, and a missing
point when it looks for one; but what is left of the stretch then belongs to the flaw. So
only the verdict depends on the way, and the input is accepted where the stretch is a
sound label with its point (`Label.IsPointed`).

* `Label.decides_read`: what the recognizer reads and decides;
* `Label.recognizes_labels`: the same over raw bytes, wherever a window begins.
-/

namespace StateLexer.Label

/-! ## Labels -/

/-- The characters begin with a letter or digit, and do not end with a hyphen. -/
structure IsSound (l : List Char) : Prop where
  begins : l.head?.any Char.isAlphanum = true
  ends : l.getLast? ≠ some '-'

/-- The text begins with a sound label that has a point behind it. -/
structure IsPointed (cs : List Char) : Prop where
  sound : IsSound (cs.takeWhile CharClass.inLabel)
  point : (cs.dropWhile CharClass.inLabel).head? = some '.'

/-- The characters of a label at the beginning of a text, with the point behind them if
    there is one. -/
def stretch (cs : List Char) : List Char :=
  cs.takeWhile CharClass.inLabel ++
    if (cs.dropWhile CharClass.inLabel).head? = some '.' then ['.'] else []

variable {r r' : Reader} {cs : List Char} {c : Char}

theorem ascii_of_mem_stretch (hc : c ∈ stretch cs) : c.val < 0x80 := by
  rcases List.mem_append.1 hc with hc | hc
  · exact DomainName.asciiOnly_inLabel c (List.all_eq_true.1 List.all_takeWhile c hc)
  · split at hc
    · rw [List.mem_singleton.1 hc]
      decide
    · exact absurd hc List.not_mem_nil

theorem stretch_ne_nil (h : cs.head?.any CharClass.inLabel = true) : stretch cs ≠ [] := by
  obtain ⟨c, hc, hin⟩ := (Option.any_eq_true _ _).1 h
  exact List.append_ne_nil_of_left_ne_nil (Reader.takeWhile_ne_nil hc hin) _

theorem length_stretch (cs : List Char) : (stretch cs).length =
    (cs.takeWhile CharClass.inLabel).length +
      if (cs.dropWhile CharClass.inLabel).head? = some '.' then 1 else 0 := by
  rw [stretch, List.length_append]
  split <;> rfl

/-! ## The recognizer -/

/-- A reading of the whole stretch, which is accepted if, and only if, it is a sound label
    with its point. -/
def Decides (r : Reader) (reading : Reading × Reader) : Prop :=
  r.Reads (stretch r.ahead) reading.2 ∧
    (reading.1 = .accepted ∧ IsPointed r.ahead ∨
      (∃ flaw, reading.1 = .malformed flaw) ∧ ¬IsPointed r.ahead)

/-- From any part of the label on, its rest is read, and the point if there is one. -/
theorem reads_stretch (h : r.Reads cs r') (hcs : ∀ c ∈ cs, CharClass.inLabel c = true) :
    r.Reads (stretch r.ahead) ((r'.acceptWhile CharClass.inLabel).2.acceptChar (· = '.')).2 ∧
      (((r'.acceptWhile CharClass.inLabel).2.acceptChar (· = '.')).1 = true ↔
        (r.ahead.dropWhile CharClass.inLabel).head? = some '.') := by
  have hlabel := h.trans_takeWhile hcs (Reader.reads_acceptWhile _ h.start_le)
  rw [stretch, ← hlabel.ahead_of_takeWhile]
  rcases Reader.reads_acceptChar (· = '.') hlabel.start_le with
    ⟨c, hc, hyes, hpoint⟩ | ⟨hno, hnone, hnext⟩
  · obtain rfl : c = '.' := of_decide_eq_true hc
    have hhead : (r'.acceptWhile CharClass.inLabel).2.ahead.head? = some '.' := by
      rw [hpoint.ahead_eq]
      rfl
    rw [if_pos hhead]
    exact ⟨hlabel.trans hpoint, iff_of_true hyes hhead⟩
  · have hhead : (r'.acceptWhile CharClass.inLabel).2.ahead.head? ≠ some '.' := by
      rw [hnone.ahead_nil]
      exact fun heq => absurd rfl (of_decide_eq_false (hnext '.' heq))
    rw [if_neg hhead]
    exact ⟨hlabel.trans hnone, iff_of_false (by simp [hno]) hhead⟩

/-- A flaw takes the rest of the stretch with it. -/
theorem decides_flawed (flaw : Flaw) (h : r.Reads cs r')
    (hcs : ∀ c ∈ cs, CharClass.inLabel c = true) (hnot : ¬IsPointed r.ahead) :
    Decides r (flawed .plain flaw r') :=
  ⟨(reads_stretch h hcs).1, .inr ⟨⟨flaw, rfl⟩, hnot⟩⟩

/-- Behind the first letter or digit, the end of the label and what follows it decide. -/
theorem decides_readRest (h : r.Reads [c] r') (hc : c.isAlphanum = true) :
    Decides r (readRest .plain r') := by
  have hfirst : ∀ d ∈ [c], CharClass.inLabel d = true := fun d hd => by
    rw [List.mem_singleton.1 hd]
    exact DomainName.inLabel_of_isAlphanum hc
  have hlabel := h.trans_takeWhile hfirst (Reader.reads_acceptWhile _ h.start_le)
  obtain ⟨hstretch, hpoint⟩ := reads_stretch h hfirst
  have hrun := hlabel.isRun.1
  obtain ⟨tail, htail⟩ : ∃ tail, r.ahead.takeWhile CharClass.inLabel = c :: tail := by
    rw [h.ahead_eq, List.takeWhile_append_of_pos hfirst]
    exact ⟨_, rfl⟩
  -- The look back shows the last character of the label.
  have hprev : (r'.acceptWhile CharClass.inLabel).2.prevRune =
      (r.ahead.takeWhile CharClass.inLabel).getLast? :=
    hlabel.prevRune_eq_getLast? (by simp [htail])
      fun d hd => DomainName.asciiOnly_inLabel d (hrun d hd)
  simp only [readRest, Mode.plain_andThen, Mode.plain_acceptWhile, Mode.plain_acceptChar, hprev]
  split
  · next hlast => exact decides_flawed _ hlabel hrun fun hpointed => hpointed.sound.ends hlast
  · next hlast =>
    split
    · next hyes =>
      have hsound : IsSound (r.ahead.takeWhile CharClass.inLabel) :=
        ⟨by rw [htail]; exact hc, hlast⟩
      exact ⟨hstretch, .inl ⟨rfl, hsound, hpoint.1 hyes⟩⟩
    · next hno =>
      have hnone := hpoint.not.1 hno
      have hreads := hstretch
      rw [stretch, if_neg hnone, List.append_nil] at hreads
      exact decides_flawed _ hreads hrun fun hpointed => hnone hpointed.point

/-- Where no character of a label is ahead, nothing is read. -/
theorem read_of_not_inLabel (h : r.start ≤ r.pos)
    (hnot : r.ahead.head?.any CharClass.inLabel = false) :
    (read .plain r).1 = .rejected ∧ r.Reads [] (read .plain r).2 := by
  simp only [read, Reader.next_fst h, hnot]
  exact ⟨rfl, Reader.reads_stepBack_next h⟩

/-- Elsewhere the whole stretch is read, and accepted if it is a sound label with its
    point. -/
theorem decides_read (h : r.start ≤ r.pos)
    (hlabel : r.ahead.head?.any CharClass.inLabel = true) : Decides r (read .plain r) := by
  obtain ⟨c, hc, hin⟩ := (Option.any_eq_true _ _).1 hlabel
  obtain ⟨cs, hahead⟩ := List.head?_eq_some_iff.1 hc
  obtain ⟨hfst, hreads⟩ := Reader.next_of_cons h hahead
  simp only [read, hfst, Option.any_some, hin]
  cases halnum : c.isAlphanum with
  | true => exact decides_readRest hreads halnum
  | false =>
    refine decides_flawed _ hreads (fun d hd => by rw [List.mem_singleton.1 hd]; exact hin) ?_
    rintro ⟨⟨hbegins, -⟩, -⟩
    rw [hahead, List.takeWhile_cons_of_pos hin, List.head?_cons, Option.any_some, halnum] at hbegins
    exact Bool.false_ne_true hbegins

/-! ## Bytes -/

/-- The characters that are encoded by the bytes of a label at the beginning. -/
def ofBytes (bytes : List UInt8) : List Char :=
  (bytes.takeWhile (Utf8.encodes CharClass.inLabel)).map Char.ofUInt8

/-- Behind the bytes of a label stands a point. -/
def HasPoint (bytes : List UInt8) : Prop :=
  (bytes.dropWhile (Utf8.encodes CharClass.inLabel)).head? = some ('.').toUInt8

instance (bytes : List UInt8) : Decidable (HasPoint bytes) :=
  inferInstanceAs (Decidable (_ = _))

theorem ofBytes_bytes (h : r.start ≤ r.pos) :
    ofBytes r.bytes = r.ahead.takeWhile CharClass.inLabel :=
  Reader.map_takeWhile_bytes DomainName.asciiOnly_inLabel h

theorem hasPoint_bytes (h : r.start ≤ r.pos) :
    HasPoint r.bytes ↔ (r.ahead.dropWhile CharClass.inLabel).head? = some '.' :=
  Reader.head?_dropWhile_bytes DomainName.asciiOnly_inLabel h (by decide)

/-- The number of bytes in the stretch at the beginning of the bytes. -/
def extent (bytes : List UInt8) : Nat :=
  (ofBytes bytes).length + if HasPoint bytes then 1 else 0

theorem length_stretch_ahead (h : r.start ≤ r.pos) : (stretch r.ahead).length = extent r.bytes := by
  simp only [length_stretch, extent, ofBytes_bytes h, hasPoint_bytes h]

/-- The matcher of labels rejects what begins at the reader, or else reads the whole
    stretch, and accepts it or finds it invalid. -/
inductive Sorts (r : Reader) (run : Run Verdict) : Prop
  | rejected (no_label : ofBytes r.bytes = []) (gives : run.Gives r .rejected 0)
  | accepted (sound : IsSound (ofBytes r.bytes)) (point : HasPoint r.bytes)
    (gives : run.Gives r .accepted (extent r.bytes))
  | invalid (label : ofBytes r.bytes ≠ [])
    (flawed : ¬(IsSound (ofBytes r.bytes) ∧ HasPoint r.bytes))
    (gives : run.Gives r .invalid (extent r.bytes))

theorem sorts_run (env : Env) (h : r.start ≤ r.pos) :
    Sorts r ((Matcher.token .label).run env r) := by
  have hbytes := ofBytes_bytes h
  have hpointed : IsSound (ofBytes r.bytes) ∧ HasPoint r.bytes ↔ IsPointed r.ahead := by
    rw [hbytes, hasPoint_bytes h]
    exact ⟨fun ⟨sound, point⟩ => ⟨sound, point⟩, fun ⟨sound, point⟩ => ⟨sound, point⟩⟩
  cases hlabel : r.ahead.head?.any CharClass.inLabel with
  | false =>
    obtain ⟨hfst, hreads⟩ := read_of_not_inLabel h hlabel
    refine .rejected ?_ ?_
    · rw [hbytes]
      exact Reader.takeWhile_eq_nil ((Option.any_eq_false _ _).1 hlabel)
    · rw [Matcher.run_token, TokenClass.read, hfst]
      exact ⟨rfl, hreads.input_eq, hreads.start_eq, hreads.pos_nil⟩
  | true =>
    obtain ⟨hreads, hdecides⟩ := decides_read h hlabel
    have hascii : ∀ c ∈ stretch r.ahead, c.val < 0x80 := fun c => ascii_of_mem_stretch
    rcases hdecides with ⟨hfst, hyes⟩ | ⟨⟨flaw, hfst⟩, hno⟩
    · obtain ⟨hsound, hpoint⟩ := hpointed.2 hyes
      refine .accepted hsound hpoint ?_
      rw [← length_stretch_ahead h, Matcher.run_token, TokenClass.read, hfst]
      exact ⟨rfl, hreads.input_eq, hreads.start_eq, hreads.pos_eq hascii⟩
    · refine .invalid ?_ (mt hpointed.1 hno) ?_
      · obtain ⟨c, hc, hin⟩ := (Option.any_eq_true _ _).1 hlabel
        rw [hbytes]
        exact Reader.takeWhile_ne_nil hc hin
      · rw [← length_stretch_ahead h, Matcher.run_token]
        exact Matcher.gives_of_malformed hfst hreads hascii

/-- The language of the matcher of labels, at a reader. -/
structure Recognizes (r : Reader) (run : Run Verdict) : Prop where
  /-- There always is a verdict. -/
  total : ∃ verdict length, run.Gives r verdict length
  /-- Rejected is what does not begin with a character of a label, and none of it is read. -/
  rejected_iff : run.outcome = .done .rejected ↔ ofBytes r.bytes = []
  pos_of_rejected : run.outcome = .done .rejected → run.reader.pos = r.pos
  /-- Of all else, the label is read, and the point behind it if there is one. -/
  pos_of_not_rejected : run.outcome ≠ .done .rejected →
    run.reader.pos = r.pos + extent r.bytes
  /-- Accepted is a sound label with its point. -/
  accepted_iff : run.outcome = .done .accepted ↔ IsSound (ofBytes r.bytes) ∧ HasPoint r.bytes
  /-- All else is invalid. -/
  invalid_iff : run.outcome = .done .invalid ↔
    run.outcome ≠ .done .rejected ∧ ¬(IsSound (ofBytes r.bytes) ∧ HasPoint r.bytes)

/-- Wherever in an input a window begins, and whatever has been read before, the matcher
    of labels recognizes exactly the sound labels with their points. -/
theorem recognizes_labels (env : Env) (input : ByteArray) (p width : Nat) (canBackup : Bool) :
    Recognizes { input, pos := p, start := p, width, canBackup }
      ((Matcher.token .label).run env { input, pos := p, start := p, width, canBackup }) := by
  generalize hr : ({ input, pos := p, start := p, width, canBackup } : Reader) = r
  have hstart : r.start ≤ r.pos := by subst hr; exact Nat.le_refl p
  cases sorts_run env hstart with
  | rejected hnone hgives =>
    have hunsound : ¬IsSound (ofBytes r.bytes) := by
      rintro ⟨hbegins, -⟩
      simp [hnone] at hbegins
    exact {
      total := ⟨_, _, hgives⟩
      rejected_iff := by simp [hgives.outcome_eq, hnone]
      pos_of_rejected := fun _ => hgives.pos_eq
      pos_of_not_rejected := fun h => absurd hgives.outcome_eq h
      accepted_iff := by simp [hgives.outcome_eq, hunsound]
      invalid_iff := by simp [hgives.outcome_eq] }
  | accepted hsound hpoint hgives =>
    have hlabel : ofBytes r.bytes ≠ [] := by
      intro hnone
      simpa [hnone] using hsound.begins
    exact {
      total := ⟨_, _, hgives⟩
      rejected_iff := by simp [hgives.outcome_eq, hlabel]
      pos_of_rejected := by simp [hgives.outcome_eq]
      pos_of_not_rejected := fun _ => hgives.pos_eq
      accepted_iff := by simp [hgives.outcome_eq, hsound, hpoint]
      invalid_iff := by simp [hgives.outcome_eq, hsound, hpoint] }
  | invalid hlabel hflawed hgives =>
    exact {
      total := ⟨_, _, hgives⟩
      rejected_iff := by simp [hgives.outcome_eq, hlabel]
      pos_of_rejected := by simp [hgives.outcome_eq]
      pos_of_not_rejected := fun _ => hgives.pos_eq
      accepted_iff := by simp only [hgives.outcome_eq, hflawed]; simp
      invalid_iff := by simp only [hgives.outcome_eq, hflawed]; simp }

end StateLexer.Label
