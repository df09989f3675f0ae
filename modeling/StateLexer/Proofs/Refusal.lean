import StateLexer.Proofs.Wiring

/-!
# Refused tokens

The states of the library emit at most one token in a call, and nothing moves the reader
behind it. So a call whose token is refused is the same call, cut off in front of the end:
what would have been the text of the token is still the window of the reader, and where no
token is emitted, it makes no difference whether one would have been refused (`Run.Refused`).

* `Lexer.IsBuilt.refused`: the calls of all states of the library, and of those that are built
  from its recognizers;
* `Step.run_eq_raise`: a single step that fails has not done anything else;
* `refused_stays_pending`: both, of what is done with a stepper.
-/

namespace StateLexer

variable {n : Nat} {α β σ : Type} {why : Refusal} {env : Env} {r r' : Reader}

/-! ## Runs -/

namespace Run

/-- The second run is the first, which begins at the reader, with its token refused: they are
    the same if there is none, and otherwise the second one ends with the window that the token
    is made of, where it begins in front of the run. -/
inductive Refused (why : Refusal) (r : Reader) : Run α → Run α → Prop
  | silent (notes : List Notice) (r' : Reader) (value : α) :
    Refused why r { events := notes.map .note, reader := r', outcome := .done value }
      { events := notes.map .note, reader := r', outcome := .done value }
  | token (notes : List Notice) {r' : Reader} (start_eq : r'.start = r.start) (kind : Kind)
      (value : α) :
    Refused why r
      { events := notes.map .note ++ [.offer r' (r'.token kind)]
        reader := r'.renew
        outcome := .done value }
      { events := notes.map .note, reader := r', outcome := .raised (.refused why) }

theorem refused_pure (why : Refusal) (r r' : Reader) (value : α) :
    Refused why r (pure value r') (pure value r') :=
  .silent [] r' value

theorem refused_emit (hopen : env.refusal = none) (hstart : r'.start = r.start) (kind : Kind) :
    Refused why r (emit env kind r') (emit { env with refusal := some why } kind r') := by
  rw [emit, hopen]
  exact .token [] hstart kind ()

variable {run shut : Run α}

/-- To compute a value behind a run makes no difference. -/
theorem Refused.map (f : α → β) (h : run.Refused why r shut) :
    (run.andThen fun value r => .pure (f value) r).Refused why r
      (shut.andThen fun value r => .pure (f value) r) := by
  cases h with
  | silent notes r' value =>
    simp only [andThen, pure, List.append_nil]
    exact .silent notes r' (f value)
  | token notes start_eq kind value =>
    simp only [andThen, pure, List.append_nil]
    exact .token notes start_eq kind (f value)

/-- To write a notice in front of a run makes no difference. -/
theorem Refused.noted (notice : Notice) (r' : Reader) {f g : Reader → Run α}
    (h : (f r').Refused why r (g r')) :
    ((note notice r').andThen fun _ => f).Refused why r ((note notice r').andThen fun _ => g) := by
  simp only [andThen, note]
  generalize f r' = run at h
  generalize g r' = shut at h
  cases h with
  | silent notes r' value => exact .silent (notice :: notes) r' value
  | token notes start_eq kind value => exact .token (notice :: notes) start_eq kind value

theorem tokens_notes (notes : List Notice) (r : Reader) (outcome : Outcome α) :
    ({ events := notes.map .note, reader := r, outcome } : Run α).tokens = [] := by
  simp [tokens, List.filterMap_map]

theorem tokens_notes_offer (notes : List Notice) (r r' : Reader) (t : Token)
    (outcome : Outcome α) :
    ({ events := notes.map .note ++ [.offer r' t], reader := r, outcome } : Run α).tokens =
      [t] := by
  simp [tokens, List.filterMap_map]

end Run

/-! ## State calls -/

namespace Recognizer

theorem start_exhausted (r : Reader) : (exhausted .plain r).2.start = r.start := by
  have hlook : r.Moves true (exhausted .plain r).2 := moves_exhausted (.refl r)
  exact hlook.start_eq

/-- Whatever the verdict is, at most one token is emitted, at the end. -/
theorem refused_conclude (hopen : env.refusal = none) (home : σ) (kind : Kind)
    (t : Transition σ) (verdict : Verdict) (hstart : r'.start = r.start) :
    (conclude env home kind t verdict r').Refused why r
      (conclude { env with refusal := some why } home kind t verdict r') := by
  cases verdict with
  | accepted =>
    rw [conclude_accepted, conclude_accepted]
    refine Run.Refused.map _ ?_
    rw [settle, settle]
    split
    · exact Run.refused_emit hopen ((start_exhausted r').trans hstart) _
    · exact Run.refused_pure why r _ ()
  | rejected =>
    rw [conclude_rejected, conclude_rejected]
    exact Run.refused_pure why r _ _
  | invalid => exact (Run.refused_emit hopen hstart .error).map _

theorem refused_call (hopen : env.refusal = none) (home : σ) (k : TokenClass)
    (t : Transition σ) (r : Reader) : (k.recognizer.call env home t r).Refused why r
      (k.recognizer.call { env with refusal := some why } home t r) := by
  have hread : r.Moves true (k.read .plain env.settings r).2 := k.moves_read env.settings (.refl r)
  have hstart := hread.start_eq
  simp only [call, TokenClass.recognizer, Matcher.run_token, Matcher.ofReading]
  cases (k.read .plain env.settings r).1 with
  | accepted => exact refused_conclude hopen home k.kind t .accepted hstart
  | rejected => exact refused_conclude hopen home k.kind t .rejected hstart
  | malformed flaw =>
    rw [Run.andThen_assoc, Run.andThen_assoc]
    exact .noted _ _ (refused_conclude hopen home k.kind t .invalid hstart)

end Recognizer

namespace Lexer

variable {lexer : Lexer n} {q : State n}

/-- The state comes with the library, or is the recognizer of a class with some transition. -/
def IsBuilt (lexer : Lexer n) (q : State n) : Prop :=
  (∃ k t, lexer.Recognizes q k t) ∨ q = .standard .dispatch ∨ q = .standard .unknown

/-- A call of the state and the same call with its token refused. -/
theorem IsBuilt.refused (h : lexer.IsBuilt q) (hopen : env.refusal = none) (why : Refusal)
    (r : Reader) : (lexer.call env q r).Refused why r
      (lexer.call { env with refusal := some why } q r) := by
  rcases h with ⟨k, t, hq⟩ | rfl | rfl
  · rw [hq.call_eq, hq.call_eq]
    exact Recognizer.refused_call hopen lexer.home k t r
  · cases hahead : r.peek.1 with
    | none =>
      simp only [call, dispatch_of_end hahead]
      exact (Run.refused_emit hopen (by simp [Reader.peek_def]) .endOfInput).map _
    | some c =>
      simp only [call, dispatch_of_rune hahead]
      exact Run.refused_pure why r _ _
  · have hread : r.Moves true (r.next.2.acceptUntilMatch beginsToken).2 :=
      (Reader.Moves.next r).acceptWhile _
    simp only [call, unknown_of_accept rfl]
    exact .noted _ _ ((Run.refused_emit hopen hread.start_eq .error).map _)

end Lexer

/-! ## Steps -/

/-- A step that fails does nothing else. -/
theorem Step.run_eq_raise {step : Step} {fault : Fault}
    (h : (step.run env r).outcome = .raised fault) : step.run env r = .raise fault r := by
  cases step with
  | backup =>
    rw [run_backup] at h ⊢
    split at h
    · next hback =>
      rw [if_pos hback]
      simpa [Run.raise] using h
    · simp [Run.pure] at h
  | acceptRun runes =>
    rw [run_acceptRun] at h
    split at h <;> simp [ofMove, Run.pure] at h
  | emit kind =>
    cases hrefusal : env.refusal with
    | none => simp [run, Run.emit, hrefusal, Run.andThen, Run.pure] at h
    | some why =>
      simp only [run, Run.emit, hrefusal, Run.raise_andThen] at h ⊢
      simpa [Run.raise] using h
  | raise sort text => simpa [run, Run.raise] using h
  | peek => simp [run_peek, ofMove, Run.pure] at h
  | acceptOneOf runes => simp [run_acceptOneOf, ofMove, Run.pure] at h
  | acceptUntil last => simp [run_acceptUntil, ofMove, Run.pure] at h
  | acceptWhile p => simp [run_acceptWhile, ofMove, Run.pure] at h
  | acceptUntilMatch p => simp [run_acceptUntilMatch, ofMove, Run.pure] at h
  | _ => simp [run, ofMove, Run.pure] at h

/-! ## Stepping by hand -/

namespace Stepper

variable {s shut : Stepper n} {q : State n}

@[simp] theorem lexer_actAll (s : Stepper n) (acts : List (Act n)) :
    (s.actAll acts).lexer = s.lexer := by
  induction acts generalizing s with
  | nil => rfl
  | cons a acts ih =>
    refine (ih (s.act a)).trans ?_
    cases a <;> rfl

theorem yield_append (s : Stepper n) (acts acts' : List (Act n)) :
    s.yield (acts ++ acts') = s.yield acts ++ (s.actAll acts).yield acts' := by
  induction acts generalizing s with
  | nil => rfl
  | cons a acts ih =>
    cases a with
    | move m => exact (congrArg _ (ih _)).trans (List.append_assoc ..).symm
    | close => exact ih s.close
    | cancel => exact ih s.cancel

theorem actAll_append (s : Stepper n) (acts acts' : List (Act n)) :
    s.actAll (acts ++ acts') = (s.actAll acts).actAll acts' :=
  List.foldl_append

/-- A step that fails changes nothing. -/
theorem move_step_of_raised {step : Step} {fault : Fault}
    (h : (s.record (.step step)).outcome = .raised fault) : (s.move (.step step)).2 = s := by
  let env : Env := { settings := s.settings, refusal := s.channel.refusal }
  have hraise : step.run env s.reader = .raise fault s.reader := by
    refine Step.run_eq_raise ?_
    simp only [record] at h
    cases houtcome : (step.run env s.reader).outcome with
    | done value => simp [env, Run.andThen, houtcome, Run.pure] at h
    | raised fault' => simpa [env, Run.andThen, houtcome] using h
    | stuck => simp [env, Run.andThen, houtcome] at h
  simp only [env] at hraise
  rw [move, record, hraise]
  rfl

/-! ### The end of a channel -/

theorem refusal_after (s : Stepper n) (record : Run (MoveValue n)) :
    (s.after record).channel.refusal = s.channel.refusal := by
  have htake (c : Channel Token) (t : Token) : ((c.offer t).take).refusal = c.refusal := rfl
  simp only [after]
  induction record.tokens generalizing s with
  | nil => rfl
  | cons t ts ih => exact (ih { s with channel := (s.channel.offer t).take }).trans (htake _ t)

/-- No move brings the channel to an end. -/
theorem refusal_moves (s : Stepper n) (moves : List (Move n)) :
    (s.actAll (moves.map .move)).channel.refusal = s.channel.refusal := by
  induction moves generalizing s with
  | nil => rfl
  | cons m moves ih => exact (ih (s.move m).2).trans (s.refusal_after _)

/-- The act brings the channel to an end. -/
def Act.isEnd : Act n → Bool
  | .move _ => false
  | .close => true
  | .cancel => true

variable {ends : List (Act n)}

/-- What brings the channel to an end concerns nothing else, and takes no token. -/
theorem actAll_ends (s : Stepper n) (h : ∀ a ∈ ends, a.isEnd = true) :
    s.actAll ends = { s with channel := (s.actAll ends).channel } ∧ s.yield ends = [] := by
  induction ends generalizing s with
  | nil => exact ⟨rfl, rfl⟩
  | cons a ends ih =>
    have hrest := fun s : Stepper n => ih s fun a ha => h a (List.mem_cons_of_mem _ ha)
    cases a with
    | move m => exact absurd (h _ List.mem_cons_self) (by simp [Act.isEnd])
    | close => exact hrest s.close
    | cancel => exact hrest s.cancel

theorem flags_ends (s : Stepper n) (h : ∀ a ∈ ends, a.isEnd = true) :
    ((s.actAll ends).channel.cancelled = true ↔ s.channel.cancelled = true ∨ .cancel ∈ ends) ∧
      ((s.actAll ends).channel.closed = true ↔ s.channel.closed = true ∨ .close ∈ ends) := by
  induction ends generalizing s with
  | nil => simp [actAll]
  | cons a ends ih =>
    have hrest := ih (s.act a) fun a ha => h a (List.mem_cons_of_mem _ ha)
    rw [show s.actAll (a :: ends) = (s.act a).actAll ends from rfl, hrest.1, hrest.2]
    cases a with
    | move m => exact absurd (h _ List.mem_cons_self) (by simp [Act.isEnd])
    | close => simp [act, close, Channel.close]
    | cancel => simp [act, cancel, Channel.cancel]

/-- Behind an act that brings it to an end, the channel refuses a token. -/
theorem refusal_ends (s : Stepper n) (h : ∀ a ∈ ends, a.isEnd = true) (hne : ends ≠ []) :
    (s.actAll ends).channel.refusal =
      some (if (s.actAll ends).channel.cancelled then .cancelled else .closed) := by
  obtain ⟨hcancelled, hclosed⟩ := s.flags_ends h
  rw [Channel.refusal]
  split
  · rfl
  · next hopen =>
    rw [if_pos]
    refine hclosed.2 (.inr ?_)
    obtain ⟨a, rest, rfl⟩ := List.exists_cons_of_ne_nil hne
    cases a with
    | move m => exact absurd (h _ List.mem_cons_self) (by simp [Act.isEnd])
    | close => exact List.mem_cons_self
    | cancel => exact absurd (hcancelled.2 (.inr List.mem_cons_self)) hopen

/-! ### Calls -/

/-- How the call of a state with one stepper, whose tokens are taken, compares with the call
    with the other, whose channel has come to an end. -/
structure Refuses (s shut : Stepper n) (q : State n) : Prop where
  /-- The call whose token is taken has a value. -/
  done : ∃ next, (s.record (.call q)).outcome = .done (.ofCall next)
  raised_iff : (∃ fault, (shut.record (.call q)).outcome = .raised fault) ↔
    (s.record (.call q)).tokens ≠ []
  fault_eq : ∀ fault, (shut.record (.call q)).outcome = .raised fault →
    fault = .refused (if shut.channel.cancelled then .cancelled else .closed)
  /-- Nothing has been handed over, and what has been refused is still pending. -/
  pending : ∀ fault, (shut.record (.call q)).outcome = .raised fault →
    (shut.record (.call q)).tokens = [] ∧ (shut.move (.call q)).2.channel = shut.channel ∧
      (shut.move (.call q)).2.reader.start = shut.reader.start ∧
      (shut.move (.call q)).2.reader.pos = (s.move (.call q)).2.reader.pos ∧
      (s.record (.call q)).tokens.map Token.text = [(shut.move (.call q)).2.reader.pending]
  silent : (s.record (.call q)).tokens = [] →
    shut.record (.call q) = s.record (.call q) ∧
      (shut.move (.call q)).2.reader = (s.move (.call q)).2.reader

/-- Where no token is emitted, both calls are the same. -/
theorem Refuses.of_silent {notes : List Notice} {r : Reader} {next : Option (State n)}
    (htaken : s.record (.call q) =
      { events := notes.map .note, reader := r, outcome := .done (.ofCall next) })
    (hsame : shut.record (.call q) = s.record (.call q)) : Refuses s shut q := by
  have hnone : (s.record (.call q)).tokens = [] := by
    rw [htaken]
    exact Run.tokens_notes notes r _
  have hnot (fault : Fault) : (shut.record (.call q)).outcome ≠ .raised fault := by
    simp [hsame, htaken]
  refine ⟨⟨next, by rw [htaken]⟩, ⟨fun ⟨fault, hfault⟩ => absurd hfault (hnot fault), absurd hnone⟩,
    fun fault hfault => absurd hfault (hnot fault), fun fault hfault => absurd hfault (hnot fault),
    fun _ => ⟨hsame, ?_⟩⟩
  simp only [move, after, hsame]

/-- Where one is emitted, the call whose token is refused stops in front of it. -/
theorem Refuses.of_token {notes : List Notice} {r : Reader} {kind : Kind}
    {next : Option (State n)} (hstart : r.start = shut.reader.start)
    (htaken : s.record (.call q) =
      { events := notes.map .note ++ [.offer r (r.token kind)]
        reader := r.renew
        outcome := .done (.ofCall next) })
    (hrefused : shut.record (.call q) =
      { events := notes.map .note
        reader := r
        outcome := .raised (.refused (if shut.channel.cancelled then .cancelled else .closed)) }) :
    Refuses s shut q := by
  have hone : (s.record (.call q)).tokens = [r.token kind] := by
    rw [htaken]
    exact Run.tokens_notes_offer notes _ r _ _
  have hnone : (shut.record (.call q)).tokens = [] := by
    rw [hrefused]
    exact Run.tokens_notes notes r _
  refine ⟨⟨next, by rw [htaken]⟩, ?_, fun fault hfault => ?_,
    fun _ _ => ⟨hnone, ?_, ?_, ?_, ?_⟩, ?_⟩
  · simp [hone, hrefused]
  · simp only [hrefused, Outcome.raised.injEq] at hfault
    exact hfault.symm
  · rw [move, after, hnone]
    rfl
  · simp only [move, after, hrefused, hstart]
  · simp only [move, after, hrefused, htaken, Reader.renew]
  · simp only [hone, move, after, hrefused, Reader.token, List.map_cons, List.map_nil]
  · simp [hone]

/-- A call of a state of the library, or of one that is built from its recognizers, whose token
    is refused leaves pending what the token would have been made of. -/
theorem refuses_call (hq : s.lexer.IsBuilt q) (hopen : s.channel.refusal = none) {c : Channel Token}
    (hshut : c.refusal = some (if c.cancelled then .cancelled else .closed)) :
    Refuses s { s with channel := c } q := by
  let env : Env := { settings := s.settings, refusal := s.channel.refusal }
  have hrefusal : env.refusal = none := hopen
  have hcall := hq.refused hrefusal (if c.cancelled then .cancelled else .closed) s.reader
  have htaken : s.record (.call q) =
      (s.lexer.call { settings := s.settings, refusal := s.channel.refusal } q s.reader).andThen
        fun next r => .pure (.ofCall next) r := rfl
  have hrefused : ({ s with channel := c } : Stepper n).record (.call q) =
      (s.lexer.call { settings := s.settings, refusal := c.refusal } q s.reader).andThen
        fun next r => .pure (.ofCall next) r := rfl
  rw [hshut] at hrefused
  simp only [env] at hcall
  generalize s.lexer.call { settings := s.settings, refusal := s.channel.refusal } q s.reader =
    taken at hcall htaken
  generalize s.lexer.call { settings := s.settings, refusal := some _ } q s.reader =
    refused at hcall hrefused
  cases hcall with
  | silent notes r next =>
    simp only [Run.andThen, Run.pure, List.append_nil] at htaken hrefused
    exact .of_silent htaken (hrefused.trans htaken.symm)
  | token notes start_eq kind next =>
    simp only [Run.andThen, Run.pure, List.append_nil] at htaken hrefused
    exact .of_token start_eq htaken hrefused

end Stepper

/-! ## The theorem -/

/-- Wherever a stepper is whose channel is open, the call of a state of the library, or of one
    that is built from its recognizers, can be made as it is, with its token taken, or behind
    acts that bring the channel to an end. Then it fails if there is a token: nothing is handed
    over, and what would have been the text of the token is still pending. If there is none, it
    makes no difference. A single step that fails changes nothing at all. -/
theorem refused_stays_pending (lexer : Lexer n) (settings : Settings) (input : ByteArray)
    (moves : List (Move n)) {ends : List (Stepper.Act n)} (hends : ∀ a ∈ ends, a.isEnd = true)
    (hne : ends ≠ []) {q : State n} (hq : lexer.IsBuilt q) :
    let begun := Stepper.new lexer settings input {}
    let acts := moves.map .move
    (begun.actAll acts).Refuses (begun.actAll (acts ++ ends)) q ∧
      ((begun.actAll (acts ++ ends)).channel.cancelled = true ↔ .cancel ∈ ends) ∧
      (∀ fault, ((begun.actAll (acts ++ ends)).record (.call q)).outcome = .raised fault →
        (begun.yield (acts ++ ends ++ [.move (.call q)])).getLast? =
          (begun.yield acts).getLast?) ∧
      ∀ (s : Stepper n) (step : Step) (fault : Fault),
        (s.record (.step step)).outcome = .raised fault → (s.move (.step step)).2 = s := by
  intro begun acts
  have hopen : (begun.actAll acts).channel.refusal = none := begun.refusal_moves moves
  have hbuilt : (begun.actAll acts).lexer.IsBuilt q := by rwa [Stepper.lexer_actAll]
  obtain ⟨hshut, hyield⟩ := (begun.actAll acts).actAll_ends hends
  have hrefuses := Stepper.refuses_call hbuilt hopen ((begun.actAll acts).refusal_ends hends hne)
  rw [← hshut, ← Stepper.actAll_append] at hrefuses
  refine ⟨hrefuses, ?_, fun fault hfault => ?_, fun s step fault => Stepper.move_step_of_raised⟩
  · rw [Stepper.actAll_append, ((begun.actAll acts).flags_ends hends).1,
      (Channel.refusal_eq_none_iff.1 hopen).1]
    simp
  · have hnone := (hrefuses.pending fault hfault).1
    rw [Stepper.yield_append, Stepper.yield_append, hyield, List.append_nil]
    simp [Stepper.yield, Stepper.move, hnone]

/-- The address behind a space that was left out is refused, and stays pending. -/
theorem refused_stays_pending_address :
    let begun : Stepper 0 := .new .standard {} " 1.2.3.4 a".toUTF8 {}
    let moves : List (Move 0) := [.step .next, .step .skip]
    let ends : List (Stepper.Act 0) := [.close, .cancel]
    let shut := begun.actAll (moves.map .move ++ ends)
    let call : Move 0 := .call (.standard (.token .address))
    (∀ a ∈ ends, a.isEnd = true) ∧ ends ≠ [] ∧
      Lexer.standard.IsBuilt (.standard (.token .address)) ∧
      ((begun.actAll (moves.map .move)).record call).tokens = [⟨.address, 1, "1.2.3.4"⟩] ∧
      (shut.record call).outcome = .raised (.refused .cancelled) ∧
      (shut.move call).2.reader.pending = "1.2.3.4" := by
  intro begun moves ends shut call
  have hends : ∀ a ∈ ends, a.isEnd = true := by decide
  have hne : ends ≠ [] := List.cons_ne_nil _ _
  have hbuilt : Lexer.standard.IsBuilt (.standard (.token .address)) :=
    .inl ⟨_, _, .standard .address⟩
  have htokens : ((begun.actAll (moves.map .move)).record call).tokens =
      [⟨.address, 1, "1.2.3.4"⟩] := by decide +kernel
  obtain ⟨hrefuses, hcancelled, -, -⟩ :=
    refused_stays_pending .standard {} " 1.2.3.4 a".toUTF8 moves hends hne hbuilt
  obtain ⟨fault, hfault⟩ := hrefuses.raised_iff.2 (htokens ▸ List.cons_ne_nil _ _)
  have hpending := (hrefuses.pending fault hfault).2.2.2.2
  refine ⟨hends, hne, hbuilt, htokens, ?_, ?_⟩
  · rw [hfault, hrefuses.fault_eq fault hfault, if_pos (hcancelled.2 (by simp [ends]))]
  · rw [htokens] at hpending
    exact (List.cons.inj hpending).1.symm

end StateLexer
