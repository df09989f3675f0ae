import StateLexer.Proofs.Recognizer.Label
import StateLexer.Proofs.Standard

/-!
# What a reading goes over

A recognizer of a token class rejects if and only if it has read nothing
(`Reading.Discerns`). Only a run of blanks may be empty, and is accepted nevertheless
(`TokenClass.discerns_read`). So from an empty window on, the window tells what the reading has
been (`TokenClass.Fills`): as long as it is empty, nothing has been found malformed.
-/

namespace StateLexer

variable {env : Env} {settings : Settings} {k : TokenClass} {r r' : Reader}

/-! ## Readings that discern -/

/-- The reading goes over characters that are ahead, and it is rejected if and only if there
    are none of them. -/
def Reading.Discerns (r : Reader) (reading : Reading × Reader) : Prop :=
  ∃ cs, r.Reads cs reading.2 ∧ (reading.1 = .rejected ↔ cs = [])

theorem Reading.discerns_rejected (h : r.Reads [] r') : Discerns r (.rejected, r') :=
  ⟨[], h, by simp⟩

theorem Layout.discerns_readNewline (h : r.start ≤ r.pos) :
    Reading.Discerns r (readNewline .plain r) := by
  by_cases hc : ∃ c ∈ r.ahead.head?, c = '\r' ∨ c = '\n'
  · obtain ⟨c, hc, hnewline⟩ := hc
    obtain ⟨cs, hfst, hreads, hcs⟩ := reads_readNewline h hc hnewline
    refine ⟨cs, hreads, ?_⟩
    rcases hcs with rfl | rfl | ⟨rfl, -⟩ <;> simp [hfst]
  · have hnone (c : Char) (hor : c = '\r' ∨ c = '\n') : r.next.1 ≠ some c := by
      rw [Reader.next_fst h]
      exact fun hhead => hc ⟨c, hhead, hor⟩
    simp only [readNewline, hnone '\r' (.inl rfl), hnone '\n' (.inr rfl), if_false]
    exact Reading.discerns_rejected (Reader.reads_stepBack_next h)

theorem Address.discerns_read (canonical : Bool) (h : r.start ≤ r.pos) :
    Reading.Discerns r (read .plain canonical r) := by
  by_cases hdigit : r.ahead.head?.any Char.isDigit = true
  · obtain ⟨c, hc, hd⟩ := (Option.any_eq_true _ _).1 hdigit
    rcases decides_read canonical h hdigit with ⟨cs, hfst, hreads, haddress, -⟩ |
      ⟨⟨flaw, hfst⟩, hreads, -⟩
    · obtain ⟨d, hd, -⟩ := haddress.head?_eq
      refine ⟨cs, hreads, ?_⟩
      rw [hfst]
      simp only [reduceCtorEq, false_iff]
      rintro rfl
      simp at hd
    · exact ⟨_, hreads, by simp [hfst, Reader.takeWhile_ne_nil hc (inWord_of_isDigit hd)]⟩
  · obtain ⟨hpeek, hreads⟩ := Reader.reads_peek h
    simp only [read, Mode.plain_andThen, Mode.plain_peek, hpeek, hdigit]
    exact Reading.discerns_rejected hreads

theorem DomainName.discerns_read (h : r.start ≤ r.pos) : Reading.Discerns r (read .plain r) := by
  cases hlabel : r.ahead.head?.any CharClass.inLabel with
  | false =>
    rw [read_of_not_inLabel h hlabel]
    exact Reading.discerns_rejected (Reader.reads_peek h).2
  | true =>
    obtain ⟨c, hc, hl⟩ := (Option.any_eq_true _ _).1 hlabel
    obtain ⟨hreads, hdecides⟩ := decides_read h hlabel
    have hne := Reader.takeWhile_ne_nil hc (inWord_of_inLabel hl)
    rcases hdecides with ⟨hfst, -⟩ | ⟨⟨flaw, hfst⟩, -⟩
    · exact ⟨_, hreads, by simp [hfst, hne]⟩
    · exact ⟨_, hreads, by simp [hfst, hne]⟩

theorem Label.discerns_read (h : r.start ≤ r.pos) : Reading.Discerns r (read .plain r) := by
  cases hlabel : r.ahead.head?.any CharClass.inLabel with
  | false =>
    obtain ⟨hfst, hreads⟩ := read_of_not_inLabel h hlabel
    exact ⟨[], hreads, by simp [hfst]⟩
  | true =>
    obtain ⟨hreads, hdecides⟩ := decides_read h hlabel
    have hne := stretch_ne_nil hlabel
    rcases hdecides with ⟨hfst, -⟩ | ⟨⟨flaw, hfst⟩, -⟩
    · exact ⟨_, hreads, by simp [hfst, hne]⟩
    · exact ⟨_, hreads, by simp [hfst, hne]⟩

/-! ## Classes of tokens -/

/-- A recognizer rejects if and only if it has read nothing; only one of blanks accepts
    whatever it has read. -/
theorem TokenClass.discerns_read (settings : Settings) (k : TokenClass) (h : r.start ≤ r.pos) :
    Reading.Discerns r (k.read .plain settings r) ∨
      k.kind = .space ∧ (k.read .plain settings r).1 = .accepted ∧
        ∃ cs, r.Reads cs (k.read .plain settings r).2 := by
  cases k with
  | space => exact .inr ⟨rfl, rfl, _, Reader.reads_acceptWhile _ h⟩
  | whitespace => exact .inr ⟨rfl, rfl, _, Reader.reads_acceptWhile _ h⟩
  | newline => exact .inl (Layout.discerns_readNewline h)
  | address => exact .inl (Address.discerns_read _ h)
  | label => exact .inl (Label.discerns_read h)
  | domainName => exact .inl (DomainName.discerns_read h)

/-- What a recognizer reads from an empty window on. -/
structure TokenClass.Fills (settings : Settings) (k : TokenClass) (r : Reader) : Prop where
  start_eq : (k.read .plain settings r).2.start = r.pos
  pos_le : r.pos ≤ (k.read .plain settings r).2.pos
  /-- What is rejected has not been read. -/
  rejected : (k.read .plain settings r).1 = .rejected → (k.read .plain settings r).2.pos = r.pos
  /-- If nothing has been read, it is rejected, or accepted as no blanks at all. -/
  idle : (k.read .plain settings r).2.pos = r.pos → (k.read .plain settings r).1 = .rejected ∨
    (k.read .plain settings r).1 = .accepted ∧ k.kind = .space

theorem TokenClass.fills (settings : Settings) (k : TokenClass) (hempty : r.start = r.pos) :
    k.Fills settings r := by
  rcases k.discerns_read settings hempty.le with ⟨cs, hreads, hrejected⟩ |
    ⟨hspace, haccepted, cs, hreads⟩
  · refine ⟨hreads.start_eq.trans hempty, hreads.pos_le, fun h => ?_, fun h => .inl ?_⟩
    · rw [hrejected.1 h] at hreads
      exact hreads.pos_nil
    · refine hrejected.2 (by_contra fun hcs => ?_)
      exact absurd h (hreads.pos_lt hcs).ne'
  · refine ⟨hreads.start_eq.trans hempty, hreads.pos_le, fun h => ?_,
      fun _ => .inr ⟨haccepted, hspace⟩⟩
    simp [haccepted] at h

/-- What is not rejected is in the window, but for no blanks at all. -/
theorem TokenClass.Fills.lt_or (h : k.Fills settings r)
    (hread : (k.read .plain settings r).1 ≠ .rejected) :
    (k.read .plain settings r).2.start < (k.read .plain settings r).2.pos ∨
      (k.read .plain settings r).1 = .accepted ∧ k.kind = .space := by
  by_cases hpos : (k.read .plain settings r).2.pos = r.pos
  · exact .inr ((h.idle hpos).resolve_left hread)
  · exact .inl (h.start_eq.trans_lt (h.pos_le.lt_of_ne' hpos))

/-! ## Verdicts -/

/-- The verdict on what a reading finds. -/
def Reading.verdict : Reading → Verdict
  | accepted => .accepted
  | rejected => .rejected
  | malformed _ => .invalid

theorem Reading.eq_rejected {reading : Reading} (h : reading.verdict = .rejected) :
    reading = .rejected := by
  cases reading with
  | rejected => rfl
  | accepted => simp [verdict] at h
  | malformed flaw => simp [verdict] at h

theorem TokenClass.outcome_run (env : Env) (k : TokenClass) (r : Reader) :
    (k.recognizer.matcher.run env r).outcome = .done (k.read .plain env.settings r).1.verdict := by
  rw [show k.recognizer.matcher = .token k from rfl, Matcher.run_token]
  obtain ⟨reading, r'⟩ := k.read .plain env.settings r
  cases reading <;> rfl

theorem TokenClass.reader_run (env : Env) (k : TokenClass) (r : Reader) :
    (k.recognizer.matcher.run env r).reader = (k.read .plain env.settings r).2 := by
  rw [show k.recognizer.matcher = .token k from rfl, Matcher.run_token]
  obtain ⟨reading, r'⟩ := k.read .plain env.settings r
  cases reading <;> rfl

end StateLexer
