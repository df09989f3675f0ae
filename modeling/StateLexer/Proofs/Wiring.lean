import Mathlib.Order.OrderIsoNat
import StateLexer.Proofs.Recognizer.Exhausted
import StateLexer.Proofs.Recognizer.Reading

/-!
# Wired recognizers

A grammar can wire the recognizers of the token classes in any way it likes: each of its states
is one of them with a transition, which may lead anywhere, also in a circle
(`Lexer.IsWired`). So a scan can be stuck, where one recognizer rejects what the next one rejects
too. But it is not stuck at the end of the input. Every call but that of `unknown` begins and
ends with an empty window, and leads nowhere from there (`Lexer.Turn.halts`); and `unknown` is
called in front of a character, unless the lexer names it (`Lexer.Names`).

* `Lexer.IsWired.turn`: what one call does, and `Lexer.Poised.calls`: a chain of them;
* `never_spins_at_end`: a scan that does not halt is stuck, from some call on, at one offset in
  front of the end.
-/

namespace StateLexer

variable {n : Nat} {σ : Type} {input : ByteArray} {env : Env} {settings : Settings}
  {lexer : Lexer n} {home : σ} {k : TokenClass} {q q' : State n} {st : Option (State n)}
  {r : Reader}

/-! ## Wired grammars -/

/-- Every state of the grammar is the recognizer of a class, with some transition. -/
def Lexer.IsWired (lexer : Lexer n) : Prop :=
  ∀ i, ∃ k t, lexer.grammar i = .recognizer (TokenClass.recognizer k) t

/-- The state is the recognizer of the class, with the transition. -/
inductive Lexer.Recognizes (lexer : Lexer n) :
    State n → TokenClass → Transition (State n) → Prop
  | standard (k : TokenClass) : Recognizes lexer (.standard (.token k)) k {}
  | custom {i : Fin n} {k : TokenClass} {t : Transition (State n)}
    (h : lexer.grammar i = .recognizer k.recognizer t) : Recognizes lexer (.custom i) k t

/-- The transition leads to the state, whatever home is. -/
def Transition.Names (t : Transition σ) (q : σ) : Prop :=
  t.onSuccess = .state q ∨ t.onError = .state q ∨ t.onReject = .state q

/-- The lexer begins at the state, has it as its home or leads there by a transition. -/
def Lexer.Names (lexer : Lexer n) (q : State n) : Prop :=
  lexer.start = q ∨ lexer.home = q ∨ ∃ i r t, lexer.grammar i = .recognizer r t ∧ t.Names q

namespace Lexer

theorem IsWired.cases (hw : lexer.IsWired) (q : State n) :
    (∃ k t, lexer.Recognizes q k t) ∨ q = .standard .dispatch ∨ q = .standard .unknown := by
  cases q with
  | standard q =>
    cases q with
    | token k => exact .inl ⟨k, {}, .standard k⟩
    | dispatch => exact .inr (.inl rfl)
    | unknown => exact .inr (.inr rfl)
  | custom i =>
    obtain ⟨k, t, h⟩ := hw i
    exact .inl ⟨k, t, .custom h⟩

variable {t : Transition (State n)}

theorem Recognizes.call_eq (h : lexer.Recognizes q k t) (env : Env) (r : Reader) :
    lexer.call env q r = k.recognizer.call env lexer.home t r := by
  cases h with
  | standard => rfl
  | custom h => simp only [call, h]

theorem Recognizes.closings_eq (h : lexer.Recognizes q k t) (env : Env) (r : Reader) :
    lexer.closings env q r = k.recognizer.closings env t r := by
  cases h with
  | standard => rfl
  | custom h => simp only [closings, h]

theorem Recognizes.names (h : lexer.Recognizes q k t) (ht : t.Names q') : lexer.Names q' := by
  cases h with
  | standard => simp [Transition.Names] at ht
  | custom h => exact .inr (.inr ⟨_, _, _, h, ht⟩)

end Lexer

/-! ## The end of a call -/

theorem Target.eq_or_of_resolve {target : Target σ} {q : σ} (h : target.resolve home = some q) :
    q = home ∨ target = .state q := by
  cases target with
  | halt => simp [resolve] at h
  | home => exact .inl (Option.some.inj h).symm
  | state q => exact .inr (congrArg Target.state (Option.some.inj h))

namespace Recognizer

theorem reads_exhausted (h : r.start ≤ r.pos) : r.Reads [] (exhausted .plain r).2 := by
  rw [exhausted]
  split
  · exact (Reader.reads_peek h).2
  · exact Reader.reads_refl h

/-- Whatever the verdict is, the recognizer leads home or to a state of its transition, if it
    leads anywhere. -/
theorem exists_conclude (hopen : env.refusal = none) (home : σ) (kind : Kind)
    (t : Transition σ) (verdict : Verdict) (r : Reader) :
    ∃ next, (conclude env home kind t verdict r).outcome = .done next ∧
      ∀ q, next = some q → q = home ∨ t.Names q := by
  have hcut {target : Target σ} {spent : Bool} {q : σ}
      (h : (if spent then none else target.resolve home) = some q) :
      q = home ∨ target = .state q := by
    cases spent with
    | true => simp at h
    | false => exact Target.eq_or_of_resolve h
  cases verdict with
  | accepted =>
    rw [conclude_accepted]
    refine ⟨_, Run.outcome_andThen_done (outcome_settle hopen kind t _) _, fun q hq => ?_⟩
    exact (hcut hq).imp_right .inl
  | rejected =>
    rw [conclude_rejected]
    exact ⟨_, rfl, fun q hq => (hcut hq).imp_right fun h => .inr (.inr h)⟩
  | invalid =>
    refine ⟨t.onError.resolve home, by simp [conclude, Run.emit, hopen, Run.andThen, Run.pure],
      fun q hq => ?_⟩
    exact (Target.eq_or_of_resolve hq).imp_right fun h => .inr (.inl h)

/-- It leaves an empty window, if it does not reject more than that. -/
theorem empty_conclude (hopen : env.refusal = none) (home : σ) (kind : Kind)
    (t : Transition σ) (verdict : Verdict) (h : r.start ≤ r.pos)
    (hrejected : verdict = .rejected → r.start = r.pos) :
    (conclude env home kind t verdict r).reader.start =
      (conclude env home kind t verdict r).reader.pos := by
  have hspent := reads_exhausted h
  cases verdict with
  | accepted =>
    rw [conclude_accepted, Run.reader_andThen_done (outcome_settle hopen kind t _)]
    simp [Run.pure, reader_settle hopen, Reader.renew]
  | rejected =>
    rw [conclude_rejected]
    exact (hspent.start_eq.trans (hrejected rfl)).trans hspent.pos_nil.symm
  | invalid => simp [conclude, Run.emit, hopen, Run.andThen, Run.pure, Reader.renew]

end Recognizer

/-! ## Calls -/

namespace Lexer

/-- A call, with an empty window, of one of the states of a wired grammar: it leads to `next`,
    if anywhere. -/
structure Turn (lexer : Lexer n) (env : Env) (input : ByteArray) (q : State n) (r : Reader)
    (next : Option (State n)) : Prop where
  outcome : (lexer.call env q r).outcome = .done next
  empty : (lexer.call env q r).reader.start = (lexer.call env q r).reader.pos
  /-- At the end of the input it leads nowhere, but from `unknown`. -/
  halts : q ≠ .standard .unknown → r.pos = input.size → next = none
  /-- It leads to a state that the lexer names, unless it chooses one for a character. -/
  names : ∀ q', next = some q' →
    lexer.Names q' ∨ (lexer.call env q r).reader.pos < input.size

variable {t : Transition (State n)}

theorem Recognizes.turn (h : lexer.Recognizes q k t) (hopen : env.refusal = none)
    (hr : r.On input) (hempty : r.start = r.pos) : ∃ next, lexer.Turn env input q r next := by
  have houtcome := k.outcome_run env r
  have hreader := k.reader_run env r
  have hfills := k.fills env.settings hempty
  have hpasses := Matcher.passes_run env k.recognizer.matcher r
  obtain ⟨next, hnext, hnames⟩ := Recognizer.exists_conclude hopen lexer.home k.kind t
    (k.read .plain env.settings r).1.verdict (k.read .plain env.settings r).2
  have hcall : (lexer.call env q r).outcome = .done next := by
    rw [h.call_eq, Recognizer.call, Run.outcome_andThen_done houtcome, hreader]
    exact hnext
  refine ⟨next, hcall, ?empty, fun _ hend => ?halts, fun q' hq' => .inl ?names⟩
  case empty =>
    rw [h.call_eq, Recognizer.call, Run.reader_andThen_done houtcome, hreader]
    refine Recognizer.empty_conclude hopen _ _ _ _ (hfills.start_eq ▸ hfills.pos_le) fun hv => ?_
    rw [hfills.start_eq, hfills.rejected (Reading.eq_rejected hv)]
  case halts =>
    -- Nothing can have been read, so the verdict is not that the input is invalid.
    have hpos := (hpasses.at_end hr hempty hend).2.trans hend.symm
    rw [hreader] at hpos
    have hvalid : (k.read .plain env.settings r).1.verdict ≠ .invalid := by
      rcases hfills.idle hpos with hread | ⟨hread, -⟩ <;> simp [hread, Reading.verdict]
    have hhalts : (lexer.call env q r).outcome = .done none := by
      rw [h.call_eq, Recognizer.call, hpasses.outcome_conclude hopen hr hempty hend houtcome,
        if_neg hvalid]
    simpa using hcall.symm.trans hhalts
  case names =>
    rcases hnames q' hq' with rfl | ht
    · exact .inr (.inl rfl)
    · exact h.names ht

theorem turn_dispatch (hopen : env.refusal = none) (hr : r.On input) (hempty : r.start = r.pos) :
    ∃ next, lexer.Turn env input (.standard .dispatch) r next := by
  obtain ⟨hpeek, hreads⟩ := Reader.reads_peek hempty.le
  cases hahead : r.ahead with
  | nil =>
    rw [hahead] at hpeek
    refine ⟨none, ?_, ?_, fun _ _ => rfl, fun q' hq' => by simp at hq'⟩
    · simp [call, dispatch_of_end hpeek, Run.emit, hopen, Run.andThen, Run.pure]
    · simp [call, dispatch_of_end hpeek, Run.emit, hopen, Run.andThen, Run.pure, Reader.renew]
  | cons c cs =>
    have hlt := Reader.pos_lt_size_iff.2 (hahead ▸ List.cons_ne_nil c cs)
    rw [hr.input_eq] at hlt
    have hcall : lexer.call env (.standard .dispatch) r =
        .pure (some (.standard (stateFor c))) r.peek.2 := by
      rw [hahead] at hpeek
      simp [call, dispatch, hpeek]
    refine ⟨_, congrArg Run.outcome hcall, ?_, fun _ hend => absurd hend hlt.ne,
      fun q' _ => .inr ?_⟩
    · rw [hcall]
      exact (hreads.start_eq.trans hempty).trans hreads.pos_nil.symm
    · rw [hcall]
      exact hreads.pos_nil.trans_lt hlt

theorem turn_unknown (hopen : env.refusal = none) :
    lexer.Turn env input (.standard .unknown) r (some lexer.home) := by
  refine ⟨?_, ?_, fun hne => absurd rfl hne, fun q' hq' => .inl (.inr (.inl ?_))⟩
  · simp [call, unknown, Run.note, Run.emit, hopen, Run.andThen, Run.pure]
  · simp [call, unknown, Run.note, Run.emit, hopen, Run.andThen, Run.pure, Reader.renew]
  · exact Option.some.inj hq'

/-- Whatever state of a wired grammar is called, it ends with an empty window. -/
theorem IsWired.turn (hw : lexer.IsWired) (env : Env) (hopen : env.refusal = none) (q : State n)
    (hr : r.On input) (hempty : r.start = r.pos) : ∃ next, lexer.Turn env input q r next := by
  rcases hw.cases q with ⟨k, t, h⟩ | rfl | rfl
  · exact h.turn hopen hr hempty
  · exact turn_dispatch hopen hr hempty
  · exact ⟨_, turn_unknown hopen⟩

/-! ## Chains of calls -/

/-- Where a scan of the input is between two calls. -/
structure Poised (lexer : Lexer n) (input : ByteArray) (st : Option (State n)) (r : Reader) :
    Prop where
  on : r.On input
  empty : r.start = r.pos
  /-- A state that the lexer does not name is called in front of a character. -/
  ahead : ∀ q, st = some q → lexer.Names q ∨ r.pos < input.size

theorem poised_start (lexer : Lexer n) (input : ByteArray) :
    lexer.Poised input (some lexer.start) { input } :=
  ⟨Reader.on_mk input, rfl, fun _ hq => .inl (.inl (Option.some.inj hq))⟩

theorem Poised.call (hw : lexer.IsWired) (env : Env) (hopen : env.refusal = none)
    (h : lexer.Poised input (some q) r) : ∃ next, lexer.Turn env input q r next ∧
      lexer.Poised input next (lexer.call env q r).reader := by
  obtain ⟨next, hturn⟩ := hw.turn env hopen q h.on h.empty
  exact ⟨next, hturn, (lexer.on_call env q h.on).on_reader, hturn.empty, hturn.names⟩

theorem Poised.calls (hw : lexer.IsWired) (env : Env) (hopen : env.refusal = none)
    (h : lexer.Poised input st r) (k : Nat) :
    ∃ st', (lexer.calls env k st r).outcome = .done st' ∧
      lexer.Poised input st' (lexer.calls env k st r).reader := by
  induction k generalizing st r with
  | zero => exact ⟨st, by rw [calls_zero]; exact ⟨rfl, h⟩⟩
  | succ k ih =>
    cases st with
    | none => exact ⟨none, by rw [calls_none]; exact ⟨rfl, h⟩⟩
    | some q =>
      obtain ⟨next, hturn, hnext⟩ := h.call hw env hopen
      rw [calls_succ, Run.outcome_andThen_done hturn.outcome,
        Run.reader_andThen_done hturn.outcome]
      exact ih hnext

/-- At the end of the input, the call is the last one, unless the lexer names `unknown`. -/
theorem Turn.eq_none {next : Option (State n)} (hturn : lexer.Turn env input q r next)
    (h : lexer.Poised input (some q) r) (hunnamed : ¬lexer.Names (.standard .unknown))
    (hend : r.pos = input.size) : next = none := by
  refine hturn.halts ?_ hend
  rintro rfl
  exact (h.ahead _ rfl).elim hunnamed fun hlt => absurd hend hlt.ne

/-! ## Scans -/

theorem poised_unbroken (hw : lexer.IsWired) (settings : Settings) (input : ByteArray) (k : Nat) :
    ∃ st, (lexer.unbroken settings input k).outcome = .done st ∧
      lexer.Poised input st (lexer.unbroken settings input k).reader :=
  (lexer.poised_start input).calls hw { settings } rfl k

/-- From call to call, a scan does not go back. -/
theorem monotone_pos_unbroken (hw : lexer.IsWired) (settings : Settings) (input : ByteArray) :
    Monotone fun k => (lexer.unbroken settings input k).reader.pos := by
  refine monotone_nat_of_le_succ fun k => ?_
  obtain ⟨st, houtcome, hpoised⟩ := poised_unbroken hw settings input k
  obtain ⟨st', -, hpoised'⟩ := hpoised.calls hw { settings } rfl 1
  rw [unbroken_add, Run.reader_andThen_done houtcome, ← hpoised.empty, ← hpoised'.empty]
  exact (lexer.passes_calls _ _ _ _).passage.start_le hpoised.on

/-- A scan of the input does not stay at its end. -/
structure HaltsAtEnd (lexer : Lexer n) (settings : Settings) (input : ByteArray) : Prop where
  /-- No state but `unknown` leads anywhere from there. -/
  call : ∀ q ≠ .standard .unknown, ∀ r, r.On input → r.start = r.pos → r.pos = input.size →
    (lexer.call { settings } q r).outcome = .done none
  /-- Every state is called with an empty window, and `unknown` in front of a character. -/
  entered : ∀ k, ∃ st, (lexer.unbroken settings input k).outcome = .done st ∧
    (lexer.unbroken settings input k).reader.start =
      (lexer.unbroken settings input k).reader.pos ∧
    (st = some (.standard .unknown) →
      (lexer.unbroken settings input k).reader.pos < input.size)
  /-- Once the scan has come there, at most one more call is made. -/
  halts : ∀ k, (lexer.unbroken settings input k).reader.pos = input.size →
    ∀ j > k, (lexer.unbroken settings input j).outcome = .done none
  /-- A scan that does not halt comes to be stuck in front of the end. -/
  stuck : (∀ k, (lexer.unbroken settings input k).outcome ≠ .done none) →
    ∃ first, ∃ p < input.size, ∀ k ≥ first, (lexer.unbroken settings input k).reader.pos = p

theorem outcome_unbroken_of_end (hw : lexer.IsWired) (hunnamed : ¬lexer.Names (.standard .unknown))
    {k : Nat} (hend : (lexer.unbroken settings input k).reader.pos = input.size) :
    (lexer.unbroken settings input (k + 1)).outcome = .done none := by
  obtain ⟨st, houtcome, hpoised⟩ := poised_unbroken hw settings input k
  cases st with
  | none =>
    rw [unbroken_of_halted houtcome (Nat.le_succ k)]
    exact houtcome
  | some q =>
    obtain ⟨next, hturn, -⟩ := hpoised.call hw { settings } rfl
    rw [outcome_unbroken_succ houtcome, hturn.outcome, hturn.eq_none hpoised hunnamed hend]

end Lexer

/-- However the recognizers of a grammar are wired with each other and with `dispatch`, no scan
    of any input goes on at its end. -/
theorem never_spins_at_end (hw : lexer.IsWired) (hunnamed : ¬lexer.Names (.standard .unknown))
    (settings : Settings) (input : ByteArray) : lexer.HaltsAtEnd settings input := by
  have hhalts (k : Nat) (hend : (lexer.unbroken settings input k).reader.pos = input.size)
      (j : Nat) (hj : j > k) : (lexer.unbroken settings input j).outcome = .done none := by
    have hnext := Lexer.outcome_unbroken_of_end hw hunnamed hend
    rw [Lexer.unbroken_of_halted hnext hj]
    exact hnext
  refine ⟨fun q hq r hr hempty hend => ?call, fun k => ?entered, hhalts, fun hendless => ?stuck⟩
  case call =>
    obtain ⟨next, hturn⟩ := hw.turn { settings } rfl q hr hempty
    rw [hturn.outcome, hturn.halts hq hend]
  case entered =>
    obtain ⟨st, houtcome, hpoised⟩ := Lexer.poised_unbroken hw settings input k
    exact ⟨st, houtcome, hpoised.empty, fun hst => (hpoised.ahead _ hst).resolve_left hunnamed⟩
  case stuck =>
    -- What remains of the input gets smaller from call to call, so it comes to stay the same.
    have hle (k : Nat) : (lexer.unbroken settings input k).reader.pos ≤ input.size := by
      obtain ⟨st, -, hpoised⟩ := Lexer.poised_unbroken hw settings input k
      exact hpoised.on.pos_le_size
    obtain ⟨first, hfirst⟩ := WellFoundedGT.monotone_chain_condition
      (⟨fun k => OrderDual.toDual (input.size - (lexer.unbroken settings input k).reader.pos),
        fun i j hij => Nat.sub_le_sub_left (Lexer.monotone_pos_unbroken hw settings input hij) _⟩ :
        ℕ →o ℕᵒᵈ)
    refine ⟨first, _, (hle first).lt_of_ne fun hend => ?_, fun k hk => ?_⟩
    · exact hendless (first + 1) (hhalts first hend _ (Nat.lt_succ_self first))
    · have heq : input.size - (lexer.unbroken settings input first).reader.pos =
          input.size - (lexer.unbroken settings input k).reader.pos := hfirst k hk
      have hfirst := hle first
      have hk := hle k
      omega

/-- The lexer that has the recognizer of line endings as its only state, and leads back there
    whatever it finds. -/
def Lexer.revolving : Lexer 1 where
  grammar _ := .recognizer TokenClass.newline.recognizer
    { onSuccess := .state .only, onReject := .state .only }
  start := .only
  home := .standard .dispatch

/-- Behind the line ending in front of a letter, it is where it comes back to. -/
theorem Lexer.revolving_letter :
    let r : Reader := { pos := 1, start := 1, width := 1, input := "\nx".toUTF8 }
    (Lexer.revolving.unbroken {} "\nx".toUTF8 1).outcome = .done (some .only) ∧
      (Lexer.revolving.unbroken {} "\nx".toUTF8 1).reader = r ∧
      (Lexer.revolving.calls { settings := {} } 1 (some .only) r).outcome = .done (some .only) ∧
      (Lexer.revolving.calls { settings := {} } 1 (some .only) r).reader = r :=
  ⟨rfl, rfl, rfl, rfl⟩

/-- So it does not get past the letter, and comes back to it for ever. -/
theorem never_spins_at_end_letter :
    Lexer.revolving.IsWired ∧ ¬Lexer.revolving.Names (.standard .unknown) ∧
      (∀ k, (Lexer.revolving.unbroken {} "\nx".toUTF8 k).outcome ≠ .done none) ∧
      ∃ first, ∃ p < 2, ∀ k ≥ first,
        (Lexer.revolving.unbroken {} "\nx".toUTF8 k).reader.pos = p := by
  have hw : Lexer.revolving.IsWired := fun _ => ⟨.newline, _, rfl⟩
  have hunnamed : ¬Lexer.revolving.Names (.standard .unknown) := by
    rintro (h | h | ⟨i, r, t, h, ht⟩)
    · simp [Lexer.revolving] at h
    · simp [Lexer.revolving] at h
    · obtain ⟨-, rfl⟩ := Definition.recognizer.inj h
      simp [Transition.Names] at ht
  have hendless (k : Nat) :
      (Lexer.revolving.unbroken {} "\nx".toUTF8 k).outcome ≠ .done none := by
    intro hhalts
    obtain ⟨hfirst, hreader, hback, hback'⟩ := Lexer.revolving_letter
    have hloop := Lexer.ending_of_loop (Nat.le_refl 1) hback hback' k
    rw [← Lexer.unbroken_of_halted hhalts (Nat.le_add_left k 1), Lexer.unbroken_add,
      Run.outcome_andThen_done hfirst, hreader] at hhalts
    rw [hhalts] at hloop
    simp [Outcome.ending] at hloop
  exact ⟨hw, hunnamed, hendless, (never_spins_at_end hw hunnamed {} "\nx".toUTF8).stuck hendless⟩

end StateLexer
