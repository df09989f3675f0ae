import StateLexer.Proofs.Lexeme
import StateLexer.Proofs.Scan

/-!
# The standard lexer

The standard lexer cuts its input into lexemes. It takes two state calls for each:
`dispatch` chooses a state by the next character, and that state emits what it
yields (`yields_read`, `calls_lexeme`) and goes home with an empty window. At the end
of the input `dispatch` emits that end. So the whole scan is a matter of induction
(`calls_segments`), and whatever the settings and the bytes are, it yields all tokens
(`scan_standard`).
-/

namespace StateLexer

open Reader (IsRun)

variable {settings : Settings} {env : Env} {r r' : Reader} {c : Char} {kind : Kind} {home : State 0}

/-! ## One token -/

/-- What a recognizer reads in front of a character for which it is chosen, with the
    kind that it emits. -/
def TokenClass.Finds (settings : Settings) (k : TokenClass) (r : Reader) (kind : Kind)
    (r' : Reader) : Prop :=
  k.read .plain settings r = (.accepted, r') ∧ kind = k.kind ∨
    ∃ flaw, k.read .plain settings r = (.malformed flaw, r') ∧ kind = .error

theorem reads_readNewline (h : r.start ≤ r.pos) (hc : r.ahead.head? = some c)
    (hnewline : c = '\r' ∨ c = '\n') :
    ∃ cs, (Layout.readNewline .plain r).1 = .accepted ∧ r.Reads cs (Layout.readNewline .plain r).2 ∧
      (cs = ['\n'] ∨ cs = ['\r', '\n'] ∨
        cs = ['\r'] ∧ (Layout.readNewline .plain r).2.ahead.head? ≠ some '\n') := by
  obtain ⟨tail, hahead⟩ := List.head?_eq_some_iff.1 hc
  obtain ⟨hfst, hreads⟩ := Reader.next_of_cons h hahead
  rw [Layout.readNewline]
  simp only [hfst, Mode.plain_andThen, Mode.plain_ret, Mode.plain_acceptChar]
  rcases hnewline with rfl | rfl
  · simp only [if_true]
    rcases Reader.reads_acceptChar (· = '\n') hreads.start_le with ⟨d, hd, -, hreads'⟩ |
      ⟨-, hreads', hnext⟩
    · obtain rfl : d = '\n' := of_decide_eq_true hd
      exact ⟨['\r', '\n'], trivial, hreads.trans hreads', .inr (.inl rfl)⟩
    · refine ⟨['\r'], trivial, hreads.trans hreads', .inr (.inr ⟨rfl, fun heq => ?_⟩)⟩
      exact absurd rfl (of_decide_eq_false (hnext '\n' heq))
  · simp only [Option.some.injEq, Char.reduceEq, if_false, if_true]
    exact ⟨['\n'], trivial, hreads, .inl rfl⟩

/-- In a word, an address that does not end has a digit or a point behind it. -/
theorem due_of_not_ends {canonical : Bool} {word : List Char} (hreads : r.Reads word r')
    (hrun : IsRun CharClass.inWord word r'.ahead.head?)
    (hnone : ∀ cs rest, r.ahead = cs ++ rest → Address.IsAddress canonical cs →
      ¬Address.Ends rest.head?) (front rest : List Char) (heq : word = front ++ rest)
    (haddress : Address.IsAddress canonical front) :
    ∃ d ∈ rest.head?, d.isDigit = true ∨ d = '.' := by
  have hahead := hreads.ahead_eq
  rw [heq, List.append_assoc] at hahead
  by_contra hno
  refine hnone front _ hahead haddress fun d hd => ?_
  cases rest with
  | nil =>
    -- Behind the word, no digit and no point can follow.
    have hnot := hrun.2 d hd
    simp only [CharClass.inWord, CharClass.inLabel, CharClass.has, Char.isAlphanum,
      Bool.or_eq_false_iff, decide_eq_false_iff_not] at hnot
    exact ⟨hnot.1.1.2, hnot.2⟩
  | cons e rest =>
    obtain rfl : e = d := Option.some.inj hd
    have hboth := not_or.1 fun hor => hno ⟨e, rfl, hor⟩
    exact ⟨Bool.eq_false_iff.2 hboth.1, hboth.2⟩

/-- The recognizer that is chosen for the next character reads what the state for that
    character yields. -/
theorem yields_read (settings : Settings) {k : TokenClass} (h : r.start ≤ r.pos)
    (hc : r.ahead.head? = some c) (hk : Lexer.stateFor c = .token k) :
    ∃ kind cs r', k.Finds settings r kind r' ∧ r.Reads cs r' ∧ cs ≠ [] ∧
      (Standard.token k).Yields settings.canonicalOctets kind cs r'.ahead.head? := by
  rcases stateFor_cases c with ⟨hb, hq⟩ | ⟨hn, hq⟩ | ⟨hd, hq⟩ | ⟨ha, hq⟩ | ⟨-, hq⟩
  · -- A run of blanks.
    obtain rfl : k = .whitespace := by simpa [hq] using hk.symm
    have hreads := Reader.reads_acceptWhile isBlank h
    exact ⟨.space, _, _, .inl ⟨rfl, rfl⟩, hreads, Reader.takeWhile_ne_nil hc hb, rfl, hreads.isRun⟩
  · -- A line ending.
    obtain rfl : k = .newline := by simpa [hq] using hk.symm
    obtain ⟨cs, hfst, hreads, hcs⟩ := reads_readNewline h hc hn
    refine ⟨.newline, cs, _, .inl ⟨Prod.ext hfst rfl, rfl⟩, hreads, ?_, rfl, hcs⟩
    rcases hcs with rfl | rfl | ⟨rfl, -⟩ <;> simp
  · -- A digit: an address that ends, or else the whole word.
    obtain rfl : k = .address := by simpa [hq] using hk.symm
    rcases Address.decides_read settings.canonicalOctets h (by rw [hc]; exact hd) with
      ⟨cs, hfst, hreads, haddress, hends⟩ | ⟨⟨flaw, hfst⟩, hreads, hnone⟩
    · refine ⟨.address, cs, _, .inl ⟨Prod.ext hfst rfl, rfl⟩, hreads, ?_,
        .inl ⟨rfl, haddress, hends⟩⟩
      rintro rfl
      obtain ⟨d, hd, -⟩ := haddress.head?_eq
      simp at hd
    · refine ⟨.error, _, _, .inr ⟨flaw, Prod.ext hfst rfl, rfl⟩, hreads,
        Reader.takeWhile_ne_nil hc (Address.inWord_of_isDigit hd), .inr ⟨rfl, hreads.isRun, ?_⟩⟩
      exact due_of_not_ends hreads hreads.isRun hnone
  · -- A letter: the whole word, be it a name or not.
    obtain rfl : k = .domainName := by simpa [hq] using hk.symm
    have halnum : c.isAlphanum = true := by simp [Char.isAlphanum, ha]
    have hlabel := DomainName.inLabel_of_isAlphanum halnum
    obtain ⟨hreads, hdecides⟩ := DomainName.decides_read h (by rw [hc]; exact hlabel)
    have hne := Reader.takeWhile_ne_nil hc (DomainName.inWord_of_inLabel hlabel)
    rcases hdecides with ⟨hfst, hname⟩ | ⟨⟨flaw, hfst⟩, hname⟩
    · exact ⟨.hostname, _, _, .inl ⟨Prod.ext hfst rfl, rfl⟩, hreads, hne, hreads.isRun,
        .inl ⟨rfl, hname⟩⟩
    · exact ⟨.error, _, _, .inr ⟨flaw, Prod.ext hfst rfl, rfl⟩, hreads, hne, hreads.isRun,
        .inr ⟨rfl, hname⟩⟩
  · simp [hq] at hk

section Calls

variable {σ : Type} {q : σ} {t : Transition σ} {k : TokenClass}

/-- A token that is accepted is emitted, unless the transition skips it. -/
theorem call_of_accepted (hrefusal : env.refusal = none) (hemits : t.emits = true)
    (hread : k.read .plain env.settings r = (.accepted, r')) (hwindow : r'.pos ≠ r'.start) :
    (k.recognizer.call env q t r).tokens = [r'.token (t.kind.getD k.kind)] ∧
      (k.recognizer.call env q t r).outcome = .done (t.onSuccess.resolve q) ∧
      (k.recognizer.call env q t r).reader = r'.renew := by
  simp [Recognizer.call, TokenClass.recognizer, Matcher.run_token, Matcher.ofReading, hread,
    Recognizer.conclude_accepted, Recognizer.exhausted, hwindow, Recognizer.settle, hemits,
    Run.emit, hrefusal, Run.andThen, Run.pure, Run.tokens]

/-- What is malformed is emitted as an error. -/
theorem call_of_malformed {flaw : Flaw} (hrefusal : env.refusal = none)
    (hread : k.read .plain env.settings r = (.malformed flaw, r')) :
    (k.recognizer.call env q t r).tokens = [r'.token .error] ∧
      (k.recognizer.call env q t r).outcome = .done (t.onError.resolve q) ∧
      (k.recognizer.call env q t r).reader = r'.renew := by
  simp [Recognizer.call, TokenClass.recognizer, Matcher.run_token, Matcher.ofReading, hread,
    Recognizer.conclude, Run.emit, hrefusal, Run.andThen, Run.pure, Run.note, Run.tokens]

/-- What is rejected is not emitted, and the scan is over if the transition says so. -/
theorem call_of_rejected (hhalt : t.onReject = .halt)
    (hread : k.read .plain env.settings r = (.rejected, r')) :
    (k.recognizer.call env q t r).tokens = [] ∧
      (k.recognizer.call env q t r).outcome = .done none := by
  simp [Recognizer.call, TokenClass.recognizer, Matcher.run_token, Matcher.ofReading, hread,
    Recognizer.conclude_rejected, hhalt, Run.andThen, Run.pure, Run.tokens, Target.resolve]

end Calls

/-- A state for a class of tokens emits what it has found, and goes home. -/
theorem call_of_finds {k : TokenClass} (hrefusal : env.refusal = none)
    (hfinds : k.Finds env.settings r kind r') (hwindow : r'.pos ≠ r'.start) :
    (k.recognizer.call env home {} r).tokens = [r'.token kind] ∧
      (k.recognizer.call env home {} r).outcome = .done (some home) ∧
      (k.recognizer.call env home {} r).reader = r'.renew := by
  rcases hfinds with ⟨hread, rfl⟩ | ⟨flaw, hread, rfl⟩
  · exact call_of_accepted hrefusal rfl hread hwindow
  · exact call_of_malformed hrefusal hread

/-- The state for what begins no token emits it as an error, and goes home. -/
theorem unknown_tokens (hrefusal : env.refusal = none) (h : r.start ≤ r.pos)
    (hc : r.ahead.head? = some c) (hbegins : beginsToken c = false) :
    ∃ cs r', r.Reads cs r' ∧ cs ≠ [] ∧ IsRun (fun c => !beginsToken c) cs r'.ahead.head? ∧
      (Lexer.unknown env home r).tokens = [r'.token .error] ∧
      (Lexer.unknown env home r).outcome = .done (some home) ∧
      (Lexer.unknown env home r).reader = r'.renew := by
  obtain ⟨tail, hahead⟩ := List.head?_eq_some_iff.1 hc
  have hnext := (Reader.next_of_cons h hahead).2
  have hreads := hnext.trans_takeWhile (p := fun c => !beginsToken c)
    (fun d hd => by rw [List.mem_singleton.1 hd, hbegins]; rfl)
    (Reader.reads_acceptWhile _ hnext.start_le)
  refine ⟨_, _, hreads, Reader.takeWhile_ne_nil hc (by simp [hbegins]), hreads.isRun, ?_⟩
  rw [Lexer.unknown_of_accept rfl]
  simp [Reader.acceptUntilMatch, Mode.acceptUntilMatch, Run.emit, hrefusal, Run.andThen, Run.pure,
    Run.note, Run.tokens]

/-- The state for the next character emits what it yields, and goes home. -/
theorem call_stateFor (hrefusal : env.refusal = none) (h : r.start = r.pos)
    (hc : r.ahead.head? = some c) :
    ∃ kind cs r', r.Reads cs r' ∧
      Lexeme env.settings.canonicalOctets kind cs r'.ahead.head? ∧
      (Lexer.standard.call env (.standard (Lexer.stateFor c)) r).tokens = [r'.token kind] ∧
      (Lexer.standard.call env (.standard (Lexer.stateFor c)) r).outcome =
        .done (some (.standard .dispatch)) ∧
      (Lexer.standard.call env (.standard (Lexer.stateFor c)) r).reader = r'.renew := by
  have hfirst {cs : List Char} {r' : Reader} (hreads : r.Reads cs r') (hne : cs ≠ []) :
      c ∈ cs.head? := by
    obtain ⟨d, tail, rfl⟩ := List.exists_cons_of_ne_nil hne
    rw [hreads.ahead_eq] at hc
    exact hc
  cases hq : Lexer.stateFor c with
  | token k =>
    obtain ⟨kind, cs, r', hfinds, hreads, hne, hyields⟩ := yields_read env.settings h.le hc hq
    have hlexeme := lexeme_iff.2 ⟨c, hfirst hreads hne, by rw [hq]; exact hyields⟩
    have hwindow : r'.pos ≠ r'.start := by
      have hlt := hreads.pos_lt hne
      rw [hreads.start_eq]
      omega
    exact ⟨kind, cs, r', hreads, hlexeme, call_of_finds hrefusal hfinds hwindow⟩
  | dispatch => exact absurd hq (stateFor_ne_dispatch c)
  | unknown =>
    have hbegins : beginsToken c = false := by
      rcases stateFor_cases c with ⟨-, hq'⟩ | ⟨-, hq'⟩ | ⟨-, hq'⟩ | ⟨-, hq'⟩ | ⟨hbegins, -⟩
      · simp [hq] at hq'
      · simp [hq] at hq'
      · simp [hq] at hq'
      · simp [hq] at hq'
      · exact hbegins
    obtain ⟨cs, r', hreads, hne, hrun, hcall⟩ := unknown_tokens hrefusal h.le hc hbegins
    exact ⟨.error, cs, r', hreads, .unknown hne hrun, hcall⟩

/-- In front of a character, `dispatch` leads to the state for it. -/
theorem call_dispatch (h : r.start ≤ r.pos) (hc : r.ahead.head? = some c) :
    Lexer.standard.call env (.standard .dispatch) r =
      .pure (some (.standard (Lexer.stateFor c))) r.peek.2 := by
  have hpeek := (Reader.reads_peek h).1
  rw [hc] at hpeek
  exact Lexer.dispatch_of_rune hpeek

/-- At the end of the input, `dispatch` emits that end, and leads nowhere. -/
theorem call_dispatch_end (hrefusal : env.refusal = none) (h : r.start = r.pos)
    (hnil : r.ahead = []) :
    (Lexer.standard.call env (.standard .dispatch) r).tokens =
        [{ kind := .endOfInput, pos := r.pos, text := "" }] ∧
      (Lexer.standard.call env (.standard .dispatch) r).outcome = .done none := by
  obtain ⟨hpeek, hreads⟩ := Reader.reads_peek h.le
  have hpos := hreads.pos_nil
  have hstart : r.peek.2.start = r.pos := hreads.start_eq.trans h
  rw [hnil] at hpeek
  simp [Lexer.call, Lexer.dispatch_of_end hpeek, Run.emit, hrefusal, Run.andThen, Run.pure,
    Run.tokens, Reader.token, Reader.pending, Reader.window, hreads.input_eq, hstart, hpos]

/-! ## All tokens -/

/-- The tokens of the bytes from offset `pos` on, where they are cut as `segs`. -/
def tokensFrom (bytes : ByteArray) : (pos : Nat) → List (Kind × List (Char × Nat)) → List Token
  | pos, [] => [{ kind := .endOfInput, pos, text := "" }]
  | pos, (kind, us) :: segs =>
    { kind, pos, text := Utf8.text (bytes.extract pos (pos + Utf8.span us)) } ::
      tokensFrom bytes (pos + Utf8.span us) segs

/-- Two state calls emit the lexeme at the reader, and come home behind it. -/
theorem calls_lexeme (hrefusal : env.refusal = none) (h : r.start = r.pos)
    (hc : r.ahead.head? = some c) :
    ∃ kind us r', r.units = us ++ r'.units ∧
      Lexeme env.settings.canonicalOctets kind (us.map Prod.fst) (r'.units.head?.map Prod.fst) ∧
      r'.input = r.input ∧ r'.pos = r.pos + Utf8.span us ∧ r'.start = r'.pos ∧
      (Lexer.standard.calls env 2 (some (.standard .dispatch)) r).tokens =
        [{ kind, pos := r.pos, text := Utf8.text (r.input.extract r.pos (r.pos + Utf8.span us)) }] ∧
      (Lexer.standard.calls env 2 (some (.standard .dispatch)) r).outcome =
        .done (some (.standard .dispatch)) ∧
      (Lexer.standard.calls env 2 (some (.standard .dispatch)) r).reader = r' := by
  have hreads := (Reader.reads_peek h.le).2
  have hahead := hreads.ahead_nil
  have hpos := hreads.pos_nil
  obtain ⟨kind, cs, r', hreads', hlexeme, htokens, houtcome, hreader⟩ :=
    call_stateFor (r := r.peek.2) hrefusal (by rw [hreads.start_eq, hpos, h]) (hahead ▸ hc)
  obtain ⟨us, rfl, hunits, hpos'⟩ := (hreads.trans hreads').units
  refine ⟨kind, us, r'.renew, hunits, ?_, ?_, hpos', rfl, ?_⟩
  · rw [← List.head?_map]
    exact hlexeme
  · exact hreads'.input_eq.trans hreads.input_eq
  · rw [Lexer.calls_succ, call_dispatch h.le hc, Run.pure_andThen, Lexer.calls_succ,
      Run.tokens_andThen_done houtcome, Run.outcome_andThen_done houtcome,
      Run.reader_andThen_done houtcome, htokens, hreader, Lexer.calls_zero]
    refine ⟨?_, rfl, rfl⟩
    have hinput : r'.input = r.input := hreads'.input_eq.trans hreads.input_eq
    have hstart : r'.start = r.pos := (hreads'.start_eq.trans hreads.start_eq).trans h
    rw [Run.tokens_pure, List.append_nil, Reader.token, Reader.pending, Reader.window, hinput,
      hstart, hpos']

/-- At the end of the input, the end is emitted, and the scan is over. -/
theorem calls_end (hrefusal : env.refusal = none) (h : r.start = r.pos) (hnil : r.ahead = []) :
    (Lexer.standard.calls env 1 (some (.standard .dispatch)) r).tokens =
        [{ kind := .endOfInput, pos := r.pos, text := "" }] ∧
      (Lexer.standard.calls env 1 (some (.standard .dispatch)) r).outcome = .done none := by
  obtain ⟨htokens, houtcome⟩ := call_dispatch_end hrefusal h hnil
  obtain ⟨houtcome', htokens'⟩ := Lexer.calls_one_of_halted houtcome
  exact ⟨htokens'.trans htokens, houtcome'⟩

/-- From an empty window on, the state calls emit the lexemes that are ahead, and the end. -/
theorem calls_segments (env : Env) (hrefusal : env.refusal = none) (h : r.start = r.pos) :
    ∃ segs k, Segments env.settings.canonicalOctets r.units segs ∧
      (Lexer.standard.calls env k (some (.standard .dispatch)) r).tokens =
        tokensFrom r.input r.pos segs ∧
      (Lexer.standard.calls env k (some (.standard .dispatch)) r).outcome = .done none := by
  -- A lexeme takes at least one of the units that are ahead.
  induction hm : r.units.length using Nat.strongRecOn generalizing r with
  | ind m ih =>
    cases hhead : r.ahead with
    | nil =>
      obtain ⟨htokens, houtcome⟩ := calls_end hrefusal h hhead
      have hunits : r.units = [] := List.map_eq_nil_iff.1 hhead
      exact ⟨[], 1, hunits ▸ .nil, htokens, houtcome⟩
    | cons c tail =>
      obtain ⟨kind, us, r', hunits, hlexeme, hinput, hpos, hstart, htokens, houtcome, hreader⟩ :=
        calls_lexeme hrefusal h (congrArg List.head? hhead)
      have hne := hlexeme.ne_nil
      have hlt : r'.units.length < m := by
        have := List.length_pos_iff.2 hne
        rw [List.length_map] at this
        rw [← hm, hunits, List.length_append]
        omega
      obtain ⟨segs, k, hsegments, htokens', houtcome'⟩ := ih _ hlt hstart rfl
      refine ⟨(kind, us) :: segs, 2 + k, ?_, ?_, ?_⟩
      · rw [hunits]
        exact .cons hlexeme hsegments
      · rw [Lexer.calls_add, Run.tokens_andThen_done houtcome, htokens, hreader, htokens', hinput,
          hpos]
        rfl
      · rw [Lexer.calls_add, Run.outcome_andThen_done houtcome, hreader, houtcome']

/-- A scan with the standard lexer yields the lexemes of the input, and its end. -/
theorem scan_standard (settings : Settings) (file : Option String) (input : ByteArray) :
    ∃ segs, Segments settings.canonicalOctets (Utf8.runes.units input) segs ∧
      (Lexer.standard.scan settings false file input).1 = .value (tokensFrom input 0 segs) := by
  obtain ⟨segs, k, hsegments, htokens, houtcome⟩ :=
    calls_segments (r := { input }) { settings } rfl rfl
  refine ⟨segs, hsegments, scan_of_endsWith file ⟨k, htokens, ?_⟩⟩
  have hending : (Lexer.standard.unbroken settings input k).outcome = .done none := houtcome
  rw [hending]
  rfl

end StateLexer
