import StateLexer.Proofs.Reader.Bounds
import StateLexer.Proofs.Standard

/-!
# Every scan comes to an end

Between two state calls the standard lexer is at one of two stages (`Standard.Stage`): at
home with an empty window, or in the state for the character that is ahead. `dispatch` reads
nothing, so two calls are due for every byte that is left, and one for the end of the input
(`callsDue`); of the tokens, one is due for every byte, and one for the end (`tokensDue`).
Each call leads to another stage at the expense of what is due (`Standard.Stage.advances`),
and so does a chain of calls (`Standard.Stage.calls`).

* `scan_terminates`: whatever the settings and the bytes are, the scan ends with a call of
  `dispatch` at the end of the input, and no call before it fails, goes back where it must
  not, or reads nothing where a token has been announced.
-/

namespace StateLexer

variable {input : ByteArray} {st : Option (State 0)} {q : State 0} {r : Reader}

/-! ## Stages -/

/-- Where the scan of the input is between two calls. -/
inductive Standard.Stage (input : ByteArray) : Option (State 0) → Reader → Prop
  /-- At home, with an empty window. -/
  | home {r : Reader} (on : r.On input) (empty : r.start = r.pos) :
      Standard.Stage input (some (.standard .dispatch)) r
  /-- In front of a character, in the state for it. -/
  | chosen {r : Reader} {c : Char} (on : r.On input) (empty : r.start = r.pos)
      (ahead : r.ahead.head? = some c) :
      Standard.Stage input (some (.standard (Lexer.stateFor c))) r
  /-- There is no other call. -/
  | ended {r : Reader} : Standard.Stage input none r

/-- How many calls are due at most. -/
def callsDue : Option (State 0) → Reader → Nat
  | some (.standard .dispatch), r => 2 * r.remaining + 1
  | some _, r => 2 * r.remaining
  | none, _ => 0

/-- How many tokens are due at most. -/
def tokensDue : Option (State 0) → Reader → Nat
  | some _, r => r.remaining + 1
  | none, _ => 0

theorem callsDue_stateFor (c : Char) (r : Reader) :
    callsDue (some (.standard (Lexer.stateFor c))) r = 2 * r.remaining := by
  have hne := stateFor_ne_dispatch c
  generalize Lexer.stateFor c = q at hne
  cases q with
  | dispatch => exact absurd rfl hne
  | token k => rfl
  | unknown => rfl

/-- The run leads from a stage to `next`, which is the end only behind the input, and
    something that was due is not due any more. -/
structure Advances (input : ByteArray) (q : State 0) (r : Reader)
    (run : Run (Option (State 0))) (next : Option (State 0)) : Prop where
  outcome : run.outcome = .done next
  stage : Standard.Stage input next run.reader
  calls : callsDue next run.reader < callsDue (some q) r
  tokens : run.tokens.length + tokensDue next run.reader ≤ tokensDue (some q) r
  at_end : next = none → q = .standard .dispatch ∧ r.pos = input.size

theorem Reader.On.pos_eq_size (h : r.On input) (hahead : r.ahead = []) : r.pos = input.size := by
  have hnot := mt Reader.pos_lt_size_iff.1 (not_not_intro hahead)
  rw [h.input_eq] at hnot
  exact Nat.le_antisymm h.pos_le_size (Nat.le_of_not_lt hnot)

/-- From home, `dispatch` leads to the state for the next character, or to the end. -/
theorem advances_dispatch (settings : Settings) (on : r.On input) (empty : r.start = r.pos) :
    ∃ next, Advances input (.standard .dispatch) r
      (Lexer.standard.call { settings } (.standard .dispatch) r) next := by
  have hreads := (Reader.reads_peek empty.le).2
  cases hahead : r.ahead with
  | nil =>
    obtain ⟨htokens, houtcome⟩ := @call_dispatch_end { settings } _ rfl empty hahead
    exact ⟨none, houtcome, .ended, Nat.succ_pos _, by simp [htokens, tokensDue],
      fun _ => ⟨rfl, on.pos_eq_size hahead⟩⟩
  | cons c tail =>
    have hc : r.ahead.head? = some c := congrArg List.head? hahead
    have hpeek := (Lexer.on_call Lexer.standard { settings } (.standard .dispatch) on).on_reader
    have hremaining : r.peek.2.remaining = r.remaining := by
      rw [Reader.remaining, Reader.remaining, hreads.input_eq, hreads.pos_nil]
    rw [call_dispatch empty.le hc] at hpeek ⊢
    refine ⟨some (.standard (Lexer.stateFor c)), rfl, .chosen hpeek ?_ (hreads.ahead_nil ▸ hc),
      ?_, ?_, by simp⟩
    · exact (hreads.start_eq.trans empty).trans hreads.pos_nil.symm
    · rw [callsDue_stateFor]
      change 2 * r.peek.2.remaining < 2 * r.remaining + 1
      omega
    · change 0 + (r.peek.2.remaining + 1) ≤ r.remaining + 1
      omega

/-- The state for the next character reads at least a byte, and goes home. -/
theorem advances_stateFor (settings : Settings) {c : Char} (on : r.On input)
    (empty : r.start = r.pos) (hc : r.ahead.head? = some c) :
    Advances input (.standard (Lexer.stateFor c)) r
      (Lexer.standard.call { settings } (.standard (Lexer.stateFor c)) r)
      (some (.standard .dispatch)) := by
  obtain ⟨kind, cs, r', hreads, hlexeme, htokens, houtcome, hreader⟩ :=
    @call_stateFor { settings } _ _ rfl empty hc
  have hon := (Lexer.on_call Lexer.standard { settings } (.standard (Lexer.stateFor c)) on)
    |>.on_reader
  rw [hreader] at hon
  have hremaining : r'.renew.remaining < r.remaining := by
    have hlt := hreads.pos_lt hlexeme.ne_nil
    change r'.input.size - r'.pos < r.input.size - r.pos
    rw [hreads.input_eq, on.input_eq]
    exact Nat.sub_lt_sub_left (Nat.lt_of_lt_of_le hlt hon.pos_le_size) hlt
  refine ⟨houtcome, ?_, ?_, ?_, by simp⟩
  · rw [hreader]
    exact .home hon rfl
  · rw [hreader, callsDue_stateFor]
    change 2 * r'.renew.remaining + 1 < 2 * r.remaining
    omega
  · rw [hreader, htokens]
    change 1 + (r'.renew.remaining + 1) ≤ r.remaining + 1
    omega

/-- A call leads from one stage to another. -/
theorem Standard.Stage.advances (settings : Settings) (h : Standard.Stage input (some q) r) :
    ∃ next, Advances input q r (Lexer.standard.call { settings } q r) next := by
  cases h with
  | home on empty => exact advances_dispatch settings on empty
  | chosen on empty ahead => exact ⟨_, advances_stateFor settings on empty ahead⟩

/-- A chain of calls leads from one stage to another. -/
theorem Standard.Stage.calls (settings : Settings) (h : Standard.Stage input st r) (k : Nat) :
    ∃ st', (Lexer.standard.calls { settings } k st r).outcome = .done st' ∧
      Standard.Stage input st' (Lexer.standard.calls { settings } k st r).reader ∧
      (st' = none ∨
        k + callsDue st' (Lexer.standard.calls { settings } k st r).reader ≤ callsDue st r) ∧
      (Lexer.standard.calls { settings } k st r).tokens.length +
        tokensDue st' (Lexer.standard.calls { settings } k st r).reader ≤ tokensDue st r := by
  induction k generalizing st r with
  | zero =>
    rw [Lexer.calls_zero]
    exact ⟨st, rfl, h, .inr (Nat.zero_add _).le, (Nat.zero_add _).le⟩
  | succ k ih =>
    cases st with
    | none =>
      rw [Lexer.calls_none]
      exact ⟨none, rfl, .ended, .inl rfl, (Nat.zero_add _).le⟩
    | some q =>
      obtain ⟨next, hnext⟩ := h.advances settings
      obtain ⟨st', houtcome, hstage, hcalls, htokens⟩ := ih hnext.stage
      rw [Lexer.calls_succ, Run.outcome_andThen_done hnext.outcome,
        Run.reader_andThen_done hnext.outcome, Run.tokens_andThen_done hnext.outcome,
        List.length_append]
      have hdue := hnext.calls
      have hdue' := hnext.tokens
      refine ⟨st', houtcome, hstage, hcalls.imp_right fun hle => ?_, ?_⟩ <;> omega

/-! ## Calls -/

/-- Nothing but the steps back depends on whether they are strict, and no state of the library
    goes back but where it has just gone forward. -/
theorem call_standard_strict (env : Env) (strict : Bool) (q : Standard) (r : Reader) :
    Lexer.standard.call { env with settings := { env.settings with strictBackup := strict } }
      (.standard q) r = Lexer.standard.call env (.standard q) r := by
  cases q with
  | token k =>
    have hread : k.read .plain { env.settings with strictBackup := strict } r =
        k.read .plain env.settings r := by cases k <;> rfl
    simp only [Lexer.call, Recognizer.call, TokenClass.recognizer, Matcher.run_token, hread]
    refine congrArg (Run.andThen _) (funext₂ fun verdict r => ?_)
    cases verdict with
    | accepted => rw [Recognizer.conclude_accepted, Recognizer.conclude_accepted]; rfl
    | rejected => rw [Recognizer.conclude_rejected, Recognizer.conclude_rejected]
    | invalid => rfl
  | dispatch =>
    simp only [Lexer.call, Lexer.dispatch, Mode.checked_peek]
    rfl
  | unknown =>
    simp only [Lexer.call, Lexer.unknown, Mode.checked_acceptUntilMatch]
    rfl

/-- The call of the state comes to an end and raises no fault, also if every step back in it is
    checked for a step forward to undo. If the state is that of a recognizer, then something is
    read, and it is not rejected. -/
structure Progresses (env : Env) (q : State 0) (r : Reader) : Prop where
  outcome : ∃ next, (Lexer.standard.call env q r).outcome = .done next
  strict : Lexer.standard.call { env with settings := { env.settings with strictBackup := true } }
    q r = Lexer.standard.call env q r
  reads : ∀ k, q = .standard (.token k) →
    ∃ verdict, (k.recognizer.matcher.run env r).outcome = .done verdict ∧ verdict ≠ .rejected ∧
      r.pos < (k.recognizer.matcher.run env r).reader.pos

/-- Wherever the scan is, the next call progresses. -/
theorem Standard.Stage.progresses (settings : Settings) (h : Standard.Stage input (some q) r) :
    Progresses { settings } q r := by
  obtain ⟨next, hnext⟩ := h.advances settings
  refine ⟨⟨next, hnext.outcome⟩, ?_, ?_⟩
  · cases q with
    | standard q => exact call_standard_strict { settings } true q r
    | custom i => exact i.elim0
  · rintro k rfl
    generalize hq : some (State.standard (Standard.token k)) = st at h
    cases h with
    | home on empty => simp at hq
    | @chosen _ c on empty hc =>
      have hk : Lexer.stateFor c = .token k := by simpa using hq.symm
      obtain ⟨kind, cs, r', hfinds, hreads, hne, -⟩ := yields_read settings empty.le hc hk
      have hlt := hreads.pos_lt hne
      rcases hfinds with ⟨hread, -⟩ | ⟨flaw, hread, -⟩
      · refine ⟨.accepted, ?_⟩
        simpa [TokenClass.recognizer, Matcher.run_token, Matcher.ofReading, hread, Run.pure]
          using hlt
      · refine ⟨.invalid, ?_⟩
        simpa [TokenClass.recognizer, Matcher.run_token, Matcher.ofReading, hread, Run.pure,
          Run.note, Run.andThen] using hlt
    | ended => simp at hq

/-! ## Scans -/

/-- Where the scan is after `k` calls, and what is still due of `2 * n + 1` calls and
    `n + 1` tokens for `n` bytes. -/
theorem stage_unbroken (settings : Settings) (input : ByteArray) (k : Nat) :
    ∃ st, (Lexer.standard.unbroken settings input k).outcome = .done st ∧
      Standard.Stage input st (Lexer.standard.unbroken settings input k).reader ∧
      (st = none ∨ k + callsDue st (Lexer.standard.unbroken settings input k).reader ≤
        2 * input.size + 1) ∧
      (Lexer.standard.unbroken settings input k).tokens.length +
        tokensDue st (Lexer.standard.unbroken settings input k).reader ≤ input.size + 1 :=
  Standard.Stage.calls settings (.home (Reader.on_mk input) rfl) k

theorem unbroken_over (settings : Settings) (input : ByteArray) :
    (Lexer.standard.unbroken settings input (2 * input.size + 1)).outcome = .done none := by
  obtain ⟨st, houtcome, hstage, hcalls, -⟩ :=
    stage_unbroken settings input (2 * input.size + 1)
  cases st with
  | none => exact houtcome
  | some q =>
    -- Another call would be due.
    obtain ⟨next, hnext⟩ := hstage.advances settings
    have hdue := hnext.calls
    simp only [reduceCtorEq, false_or] at hcalls
    omega

/-- A scan of `n` bytes takes at most `2 * n + 1` calls, and yields at most `n + 1` tokens.
    Every call progresses; the last one is of `dispatch` at the end of the input. -/
theorem scan_terminates (settings : Settings) (file : Option String) (input : ByteArray) :
    ∃ last ≤ 2 * input.size,
      (∀ j ≤ last, ∃ q, (Lexer.standard.unbroken settings input j).outcome = .done (some q) ∧
        Progresses { settings } q (Lexer.standard.unbroken settings input j).reader) ∧
      (Lexer.standard.unbroken settings input last).outcome =
        .done (some (.standard .dispatch)) ∧
      (Lexer.standard.unbroken settings input last).reader.pos = input.size ∧
      ∀ k, last < k → (Lexer.standard.unbroken settings input k).outcome = .done none ∧
        (Lexer.standard.unbroken settings input k).tokens.length ≤ input.size + 1 ∧
        (Lexer.standard.scan settings false file input).1 =
          .value (Lexer.standard.unbroken settings input k).tokens := by
  classical
  -- The scan is over behind the first call that leads nowhere.
  have hexists : ∃ k, (Lexer.standard.unbroken settings input k).outcome = .done none :=
    ⟨_, unbroken_over settings input⟩
  have hfirst := Nat.find_spec hexists
  have hle := Nat.find_min' hexists (unbroken_over settings input)
  cases hlast : Nat.find hexists with
  | zero =>
    rw [hlast] at hfirst
    simp [Lexer.unbroken, Run.pure] at hfirst
  | succ last =>
    rw [hlast] at hfirst hle
    have hstages (j : Nat) (hj : j ≤ last) :
        ∃ q, (Lexer.standard.unbroken settings input j).outcome = .done (some q) ∧
          Standard.Stage input (some q) (Lexer.standard.unbroken settings input j).reader := by
      obtain ⟨st, houtcome, hstage, -⟩ := stage_unbroken settings input j
      cases st with
      | none => exact absurd houtcome (Nat.find_min hexists (by omega))
      | some q => exact ⟨q, houtcome, hstage⟩
    obtain ⟨q, houtcome, hstage⟩ := hstages last le_rfl
    obtain ⟨next, hnext⟩ := hstage.advances settings
    have hsucc := (Lexer.outcome_unbroken_succ houtcome).trans hnext.outcome
    obtain ⟨rfl, hpos⟩ := hnext.at_end (by simpa using hsucc.symm.trans hfirst)
    have hending : (Lexer.standard.unbroken settings input (last + 1)).outcome.ending =
        some none := by
      rw [hfirst]
      rfl
    refine ⟨last, by omega, fun j hj => ?_, houtcome, hpos, fun k hk => ?_⟩
    · obtain ⟨q, houtcome, hstage⟩ := hstages j hj
      exact ⟨q, houtcome, hstage.progresses settings⟩
    · obtain ⟨st, -, -, -, htokens⟩ := stage_unbroken settings input (last + 1)
      rw [Lexer.unbroken_of_ending hending hk]
      exact ⟨hfirst, Nat.le_of_add_right_le htokens,
        scan_of_endsWith file ⟨last + 1, rfl, hending⟩⟩

/-- In front of a letter, the second call is that of the recognizer of names, which reads
    the letter and does not reject it. -/
theorem scan_terminates_letter :
    (Lexer.standard.unbroken {} "a".toUTF8 1).outcome =
        .done (some (.standard (.token .domainName))) ∧
      Progresses { settings := {} } (.standard (.token .domainName))
        (Lexer.standard.unbroken {} "a".toUTF8 1).reader := by
  have hahead : ({ input := "a".toUTF8 } : Reader).ahead.head? = some 'a' := by decide +kernel
  have hcall : (Lexer.standard.unbroken {} "a".toUTF8 1).outcome =
      .done (some (.standard (.token .domainName))) := by
    rw [Lexer.outcome_unbroken_succ (k := 0) rfl]
    exact congrArg Run.outcome (call_dispatch (Nat.le_refl 0) hahead)
  obtain ⟨last, -, hcalls, -, -, hended⟩ := scan_terminates {} none "a".toUTF8
  rcases Nat.lt_or_ge last 1 with hlt | hle
  · have hnone := (hended 1 hlt).1
    rw [hcall] at hnone
    simp at hnone
  · obtain ⟨q, hq, hprogresses⟩ := hcalls 1 hle
    rw [hcall] at hq
    obtain rfl : .standard (.token .domainName) = q := by simpa using hq
    exact ⟨hcall, hprogresses⟩

end StateLexer
