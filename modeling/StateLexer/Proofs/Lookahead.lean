import StateLexer.Proofs.Reader.Bounds
import StateLexer.Stepper
import StateLexer.Proofs.Stepper

/-!
# Looking ahead

A reader remembers how wide the last rune was, and whether there is a step forward to undo.
Nothing depends on that but a step back, and the moves of the library go back only where
they have just gone forward. So where a grammar does not go back on its own, two readers
that are *alike*, at the same place but for what they remember (`Reader.Alike`), do the same
from there on, whether steps back are strict or not (`Run.Alike`).

A look, ahead or back, leaves a reader that is like the one before (`Stepper.alike_look`).
It is therefore invisible: it makes no difference to what is yielded, emitted and read by
the moves around it.

* `Reader.Alike.next_eq`, `Reader.Alike.read_eq`: readers that are alike read the same;
* `Step.alike_run`, `Lexer.alike_call`: steps, and the states of a grammar;
* `Stepper.sights_eq`, `Stepper.sights_filter`: what is seen of the moves of a stepper;
* `lookahead_invisible`: all of that, for moves of which none goes back on its own.
-/

namespace StateLexer

variable {n : Nat} {α β σ : Type}

/-! ## Readers -/

/-- The two readers are at the same place of the same input; they may differ in what they
    remember of the last step. -/
structure Reader.Alike (r r' : Reader) : Prop where
  input_eq : r'.input = r.input
  pos_eq : r'.pos = r.pos
  start_eq : r'.start = r.start

namespace Reader

variable {r r' r'' : Reader}

theorem Alike.refl (r : Reader) : r.Alike r :=
  ⟨rfl, rfl, rfl⟩

theorem Alike.symm (h : r.Alike r') : r'.Alike r :=
  ⟨h.input_eq.symm, h.pos_eq.symm, h.start_eq.symm⟩

/-- To look ahead leaves a reader that is like the one before. -/
theorem alike_peek (h : r.start ≤ r.pos) : r.Alike r.peek.2 :=
  ⟨by simp [peek_def], stepBack_next_pos h, by simp [peek_def]⟩

/-- A step forward forgets what has been remembered before it. -/
theorem Alike.next_eq (h : r.Alike r') : r'.next = r.next := by
  obtain ⟨⟨pos, start, width, canBackup⟩, input⟩ := r
  obtain ⟨⟨pos', start', width', canBackup'⟩, input'⟩ := r'
  obtain ⟨rfl, rfl, rfl⟩ := h
  rfl

theorem Alike.peek_eq (h : r.Alike r') : r'.peek = r.peek := by
  rw [peek_def, peek_def, h.next_eq]

theorem Alike.prevRune_eq (h : r.Alike r') : r'.prevRune = r.prevRune := by
  simp only [prevRune, h.pos_eq, h.input_eq]

theorem Alike.token_eq (h : r.Alike r') (kind : Kind) : r'.token kind = r.token kind := by
  simp only [token, pending, window, h.pos_eq, h.input_eq, h.start_eq]

theorem Alike.renew (h : r.Alike r') : r.renew.Alike r'.renew :=
  ⟨h.input_eq, h.pos_eq, h.pos_eq⟩

/-! ### Accepting -/

theorem Alike.takeWhile_eq (h : r.Alike r') (p : Char → Bool) :
    r'.takeWhile p = r.takeWhile p := by
  obtain ⟨rune, r₁, hnext⟩ : ∃ rune r₁, r.next = (rune, r₁) := ⟨_, _, rfl⟩
  have hnext' := h.next_eq.trans hnext
  cases rune with
  | none => exact (takeFrom_of_end hnext' 0).trans (takeFrom_of_end hnext 0).symm
  | some c => exact (takeFrom_of_next hnext' 0).trans (takeFrom_of_next hnext 0).symm

theorem Alike.acceptOneOf_eq (h : r.Alike r') (p : Rune → Bool) :
    r'.acceptOneOf p = r.acceptOneOf p := by
  rw [acceptOneOf_def, acceptOneOf_def, h.next_eq]

theorem Alike.acceptRun_eq (h : r.Alike r') (p : Rune → Bool) :
    r'.acceptRun p = r.acceptRun p := by
  rw [acceptRun_def, acceptRun_def, h.takeWhile_eq]

theorem Alike.acceptWhile_eq (h : r.Alike r') (p : Char → Bool) :
    r'.acceptWhile p = r.acceptWhile p := by
  rw [acceptWhile_def, acceptWhile_def, h.takeWhile_eq]

theorem Alike.acceptUntilMatch_eq (h : r.Alike r') (p : Char → Bool) :
    r'.acceptUntilMatch p = r.acceptUntilMatch p :=
  h.acceptWhile_eq fun c => !p c

theorem Alike.acceptUntil_eq (h : r.Alike r') (last : String) :
    r'.acceptUntil last = r.acceptUntil last := by
  rw [acceptUntil_def, acceptUntil_def, h.peek_eq]

/-- A text is gone over, not read rune by rune, so the width of the last rune stays as it
    is. -/
theorem Alike.acceptLiteral (h : r.Alike r') (text : String) :
    (r'.acceptLiteral text).1 = (r.acceptLiteral text).1 ∧
      (r.acceptLiteral text).2.Alike (r'.acceptLiteral text).2 := by
  simp only [Reader.acceptLiteral, h.input_eq, h.pos_eq]
  split
  · split
    · exact ⟨rfl, h⟩
    · exact ⟨rfl, rfl, rfl, h.start_eq⟩
  · exact ⟨rfl, h⟩

/-- The recognizers begin with a step forward or a look ahead. -/
theorem Alike.read_eq (h : r.Alike r') {settings settings' : Settings}
    (hcanonical : settings'.canonicalOctets = settings.canonicalOctets) (k : TokenClass) :
    k.read .plain settings' r' = k.read .plain settings r := by
  cases k with
  | space =>
    simp only [TokenClass.read, Layout.readSpaces, Mode.plain_acceptWhile, h.acceptWhile_eq]
  | whitespace =>
    simp only [TokenClass.read, Layout.readBlanks, Mode.plain_acceptWhile, h.acceptWhile_eq]
  | newline => simp only [TokenClass.read, Layout.readNewline, h.next_eq]
  | address => simp only [TokenClass.read, Address.read, Mode.plain_peek, h.peek_eq, hcanonical]
  | label => simp only [TokenClass.read, Label.read, h.next_eq]
  | domainName =>
    simp only [TokenClass.read, DomainName.read, Mode.plain_andThen, Mode.plain_peek, h.peek_eq]

theorem Alike.exhausted (h : r.Alike r') :
    (Recognizer.exhausted .plain r').1 = (Recognizer.exhausted .plain r).1 ∧
      (Recognizer.exhausted .plain r).2.Alike (Recognizer.exhausted .plain r').2 := by
  simp only [Recognizer.exhausted, Mode.plain_peek, h.pos_eq, h.start_eq, h.peek_eq]
  split
  · exact ⟨rfl, .refl _⟩
  · exact ⟨rfl, h⟩

end Reader

/-! ## Runs -/

/-- The two environments differ at most in whether steps back are strict, and in what no
    run depends on. -/
structure Env.Alike (env env' : Env) : Prop where
  refusal_eq : env'.refusal = env.refusal
  canonicalOctets_eq : env'.settings.canonicalOctets = env.settings.canonicalOctets

namespace Run

/-- The two runs yield and emit the same and end at the same place, and not because of a step
    back without a step forward. -/
structure Alike (run run' : Run α) : Prop where
  outcome_eq : run'.outcome = run.outcome
  tokens_eq : run'.tokens = run.tokens
  reader : run.reader.Alike run'.reader
  not_misplaced : ∀ offset, run.outcome ≠ .raised (.misplacedBackup offset)

variable {run run' : Run α} {r r' : Reader} {env env' : Env}

theorem alike_pure (value : α) (h : r.Alike r') : (pure value r).Alike (pure value r') :=
  ⟨rfl, rfl, h, by simp [pure]⟩

theorem alike_note (notice : Notice) (h : r.Alike r') :
    (note notice r).Alike (note notice r') :=
  ⟨rfl, rfl, h, by simp [note]⟩

theorem alike_emit (henv : env.Alike env') (kind : Kind) (h : r.Alike r') :
    (emit env kind r).Alike (emit env' kind r') := by
  simp only [emit, henv.refusal_eq]
  split
  · exact ⟨rfl, rfl, h, by simp [raise]⟩
  · exact ⟨rfl, by simp [tokens, h.token_eq], h.renew, by simp⟩

theorem Alike.andThen {f f' : α → Reader → Run β} (h : run.Alike run')
    (hf : ∀ value r r', r.Alike r' → (f value r).Alike (f' value r')) :
    (run.andThen f).Alike (run'.andThen f') := by
  obtain ⟨events, r, outcome⟩ := run
  obtain ⟨events', r', outcome'⟩ := run'
  obtain ⟨houtcome, htokens, hreader, hplaced⟩ := h
  obtain rfl : outcome = outcome' := houtcome.symm
  cases outcome with
  | done value =>
    obtain ⟨houtcome, hrest, hreader, hplaced⟩ := hf value r r' hreader
    refine ⟨houtcome, ?_, hreader, hplaced⟩
    rw [tokens_andThen_done rfl, tokens_andThen_done rfl, htokens, hrest]
  | raised fault =>
    refine ⟨rfl, htokens, hreader, fun offset hfault => hplaced offset ?_⟩
    simpa [Run.andThen] using hfault
  | stuck => exact ⟨rfl, htokens, hreader, by simp [Run.andThen]⟩

/-- To compute a value behind runs that are alike. -/
theorem Alike.map (f : α → β) (h : run.Alike run') :
    (run.andThen fun value r => .pure (f value) r).Alike
      (run'.andThen fun value r => .pure (f value) r) :=
  h.andThen fun value _ _ h => alike_pure (f value) h

end Run

/-! ## Steps and recognizers -/

variable {r r' : Reader} {env env' : Env}

/-- A step that does not go back is the same from readers that are alike. -/
theorem Step.alike_run (henv : env.Alike env') (h : r.Alike r') {step : Step}
    (hstep : step ≠ .backup) : (step.run env r).Alike (step.run env' r') := by
  cases step with
  | next => simpa only [run, ofMove, h.next_eq] using Run.alike_pure _ (.refl _)
  | peek => simpa only [run_peek, ofMove, h.peek_eq] using Run.alike_pure _ (.refl _)
  | prevRune => simpa only [run, h.prevRune_eq] using Run.alike_pure _ h
  | backup => exact absurd rfl hstep
  | skip => exact Run.alike_pure _ h.renew
  | acceptOneOf runes =>
    simpa only [run_acceptOneOf, ofMove, h.acceptOneOf_eq] using Run.alike_pure _ (.refl _)
  | acceptRun runes =>
    simp only [run_acceptRun, h.acceptRun_eq]
    split
    · exact Run.alike_pure _ (.refl _)
    · exact ⟨rfl, rfl, h, by simp⟩
  | acceptUntil last =>
    simpa only [run_acceptUntil, ofMove, h.acceptUntil_eq] using Run.alike_pure _ (.refl _)
  | acceptLiteral text =>
    obtain ⟨hfound, hreader⟩ := h.acceptLiteral text
    simpa only [run, ofMove, hfound] using Run.alike_pure _ hreader
  | acceptWhile p =>
    simpa only [run_acceptWhile, ofMove, h.acceptWhile_eq] using Run.alike_pure _ (.refl _)
  | acceptUntilMatch p =>
    simpa only [run_acceptUntilMatch, ofMove, h.acceptUntilMatch_eq] using
      Run.alike_pure _ (.refl _)
  | emit kind => exact (Run.alike_emit henv kind h).map _
  | raise sort text => exact ⟨rfl, rfl, h, by simp [run, Run.raise]⟩

theorem Step.alike_runAll (henv : env.Alike env') {steps : List Step} (hsteps : .backup ∉ steps)
    (value : Value) (h : r.Alike r') :
    (runAll env steps value r).Alike (runAll env' steps value r') := by
  induction steps generalizing value r r' with
  | nil => exact Run.alike_pure value h
  | cons step steps ih =>
    simp only [List.mem_cons, not_or] at hsteps
    exact (alike_run henv h (Ne.symm hsteps.1)).andThen fun value _ _ h => ih hsteps.2 value h

/-- The matcher goes back on its own. -/
def Matcher.GoesBack : Matcher → Prop
  | token _ => False
  | steps ss _ _ => .backup ∈ ss

theorem Matcher.alike_run (henv : env.Alike env') (h : r.Alike r') {matcher : Matcher}
    (hmatcher : ¬matcher.GoesBack) : (matcher.run env r).Alike (matcher.run env' r') := by
  cases matcher with
  | token k =>
    rw [run_token, run_token, h.read_eq henv.canonicalOctets_eq]
    simp only [ofReading]
    split
    · exact Run.alike_pure _ (.refl _)
    · exact Run.alike_pure _ (.refl _)
    · exact (Run.alike_note _ (.refl _)).map _
  | steps ss result otherwise =>
    exact (Step.alike_runAll henv hmatcher .nothing h).map fun value =>
      choose value result otherwise

theorem Recognizer.alike_settle (henv : env.Alike env') (h : r.Alike r') (kind : Kind)
    (t : Transition σ) : (settle env kind t r).Alike (settle env' kind t r') := by
  rw [settle, settle]
  split
  · exact Run.alike_emit henv _ h
  · exact Run.alike_pure _ h.renew

theorem Recognizer.alike_call (henv : env.Alike env') (h : r.Alike r') (home : σ)
    {recognizer : Recognizer} (hmatcher : ¬recognizer.matcher.GoesBack) (t : Transition σ) :
    (recognizer.call env home t r).Alike (recognizer.call env' home t r') := by
  refine (Matcher.alike_run henv h hmatcher).andThen fun verdict r r' h => ?_
  obtain ⟨hspent, hreader⟩ := h.exhausted
  cases verdict with
  | invalid => exact (Run.alike_emit henv .error h).map _
  | rejected => simpa only [conclude_rejected, hspent] using Run.alike_pure _ hreader
  | accepted =>
    simpa only [conclude_accepted, hspent] using (alike_settle henv hreader recognizer.kind t).map _

/-! ## State calls -/

/-- The state goes back on its own. -/
def Definition.GoesBack : Definition σ → Prop
  | recognizer r _ => r.matcher.GoesBack
  | script s => .backup ∈ s.steps

/-- The move is a step back, or the call of a state that goes back on its own. The states
    that come with the library do not. -/
def Move.GoesBack (lexer : Lexer n) : Move n → Prop
  | step s => s = .backup
  | call (.standard _) => False
  | call (.custom i) => (lexer.grammar i).GoesBack

namespace Lexer

variable {lexer : Lexer n}

theorem alike_script (henv : env.Alike env') (h : r.Alike r') (home : State n)
    {s : Script (State n)} (hsteps : .backup ∉ s.steps) :
    (script env home s r).Alike (script env' home s r') := by
  have hmade {r r' : Reader} (h : r.Alike r') :=
    (Step.alike_runAll henv hsteps .nothing h).map fun value =>
      (Matcher.choose value s.next s.otherwise).resolve home
  cases hend : s.atEnd with
  | none =>
    simp only [script, hend]
    exact hmade h
  | some target =>
    simp only [script_of_atEnd hend, h.peek_eq]
    split
    · exact Run.alike_pure _ (.refl _)
    · exact hmade (.refl _)

/-- A call of a state that does not go back is the same from readers that are alike. -/
theorem alike_call (henv : env.Alike env') (h : r.Alike r') {q : State n}
    (hq : ¬(Move.call q).GoesBack lexer) : (lexer.call env q r).Alike (lexer.call env' q r') := by
  cases q with
  | standard q =>
    cases q with
    | token k =>
      have htoken : ¬k.recognizer.matcher.GoesBack := fun h => h
      exact Recognizer.alike_call henv h lexer.home htoken {}
    | dispatch =>
      simp only [call, dispatch, Mode.checked_peek, Run.pure_andThen, h.peek_eq]
      cases r.peek.1 with
      | none => exact (Run.alike_emit henv .endOfInput (.refl _)).map _
      | some c => exact Run.alike_pure _ (.refl _)
    | unknown =>
      simp only [call, unknown_of_accept rfl, h.next_eq]
      exact (Run.alike_note _ (.refl _)).andThen fun _ _ _ h =>
        (Run.alike_emit henv .error h).map _
  | custom i =>
    simp only [Move.GoesBack] at hq
    cases hdef : lexer.grammar i with
    | recognizer recognizer t =>
      rw [hdef] at hq
      simp only [call, hdef]
      exact Recognizer.alike_call henv h lexer.home hq t
    | script s =>
      rw [hdef] at hq
      simp only [call, hdef]
      exact alike_script henv h lexer.home hq

end Lexer

/-! ## Stepping by hand -/

/-- The move is a look, ahead or back. -/
def Move.isLook : Move n → Bool
  | step .peek => true
  | step .prevRune => true
  | _ => false

/-- What is seen of a move: what it yields, if it does not fail, the tokens that it emits,
    and where the window behind it begins and ends. -/
structure Sight (n : Nat) where
  outcome : Outcome (MoveValue n)
  tokens : List Token
  pos : Nat
  start : Nat

namespace Stepper

/-- The act is a look. -/
def Act.isLook : Act n → Bool
  | move m => m.isLook
  | _ => false

/-- What is seen of the moves that `keep` admits, during the acts. -/
def sights (keep : Move n → Bool) (s : Stepper n) : List (Act n) → List (Sight n)
  | [] => []
  | .move m :: acts =>
    let record := s.record m
    let rest := (s.act (.move m)).sights keep acts
    if keep m then
      ⟨record.outcome, record.tokens, record.reader.pos, record.reader.start⟩ :: rest
    else rest
  | a :: acts => (s.act a).sights keep acts

/-- The two steppers differ at most in whether steps back are strict, and in what their
    readers remember. -/
structure Alike (s s' : Stepper n) : Prop where
  lexer_eq : s'.lexer = s.lexer
  canonicalOctets_eq : s'.settings.canonicalOctets = s.settings.canonicalOctets
  channel_eq : s'.channel = s.channel
  reader : s.reader.Alike s'.reader

variable {s s' : Stepper n} {m : Move n}

theorem Alike.record (h : s.Alike s') (hm : ¬m.GoesBack s.lexer) :
    (s.record m).Alike (s'.record m) := by
  have henv : Env.Alike { settings := s.settings, refusal := s.channel.refusal }
      { settings := s'.settings, refusal := s'.channel.refusal } :=
    ⟨by rw [h.channel_eq], h.canonicalOctets_eq⟩
  cases m with
  | step step => exact (Step.alike_run henv h.reader hm).map _
  | call q =>
    simp only [Stepper.record, h.lexer_eq]
    exact (Lexer.alike_call henv h.reader hm).map _

theorem Alike.act_move (h : s.Alike s') (hm : ¬m.GoesBack s.lexer) :
    (s.act (.move m)).Alike (s'.act (.move m)) := by
  have hrecord := h.record hm
  refine ⟨h.lexer_eq, h.canonicalOctets_eq, ?_, hrecord.reader⟩
  simp only [act, move, after, hrecord.tokens_eq, h.channel_eq]

/-- To look leaves a stepper that is like the one before. -/
theorem alike_look (hle : s.reader.start ≤ s.reader.pos) (hm : m.isLook = true) :
    (s.act (.move m)).Alike s := by
  cases m with
  | step step =>
    cases step with
    | peek =>
      have hact : s.act (.move (.step .peek)) =
          s.after (.pure (.ofStep (.rune s.reader.peek.1)) s.reader.peek.2) := by
        rw [act, move, record, Step.run_peek]
        rfl
      rw [hact]
      exact ⟨rfl, rfl, rfl, (Reader.alike_peek hle).symm⟩
    | prevRune => exact ⟨rfl, rfl, rfl, .refl _⟩
    | _ => simp [Move.isLook] at hm
  | call q => simp [Move.isLook] at hm

/-- The same is seen of steppers that are alike, if no move goes back on its own. -/
theorem sights_eq (keep : Move n → Bool) {acts : List (Act n)} (h : s.Alike s')
    (hacts : ∀ m, .move m ∈ acts → ¬m.GoesBack s.lexer) :
    s'.sights keep acts = s.sights keep acts := by
  induction acts generalizing s s' with
  | nil => rfl
  | cons a acts ih =>
    have hrest m (hm : .move m ∈ acts) := hacts m (List.mem_cons_of_mem _ hm)
    cases a with
    | move m =>
      have hm := hacts m List.mem_cons_self
      have hrecord := h.record hm
      simp only [sights, hrecord.outcome_eq, hrecord.tokens_eq, hrecord.reader.pos_eq,
        hrecord.reader.start_eq, ih (h.act_move hm) hrest]
    | close =>
      exact ih ⟨h.lexer_eq, h.canonicalOctets_eq, congrArg Channel.close h.channel_eq, h.reader⟩
        hrest
    | cancel =>
      exact ih ⟨h.lexer_eq, h.canonicalOctets_eq, congrArg Channel.cancel h.channel_eq, h.reader⟩
        hrest

/-- What is seen of the other moves is the same without the looks. -/
theorem sights_filter {input : ByteArray} {acts : List (Act n)} (hon : s.reader.On input)
    (hacts : ∀ m, .move m ∈ acts → ¬m.GoesBack s.lexer) :
    s.sights (!·.isLook) (acts.filter (!·.isLook)) = s.sights (!·.isLook) acts := by
  induction acts generalizing s with
  | nil => rfl
  | cons a acts ih =>
    have hrest m (hm : .move m ∈ acts) := hacts m (List.mem_cons_of_mem _ hm)
    cases a with
    | move m =>
      have hon' : (s.act (.move m)).reader.On input := ((s.passes_move m).on hon).on_reader
      cases hlook : m.isLook with
      | true =>
        have hskipped : (Act.move m :: acts).filter (!·.isLook) = acts.filter (!·.isLook) :=
          List.filter_cons_of_neg (by simp [Act.isLook, hlook])
        have hunseen : s.sights (!·.isLook) (.move m :: acts) =
            (s.act (.move m)).sights (!·.isLook) acts := by simp [sights, hlook]
        rw [hskipped, hunseen, ← ih hon' hrest]
        exact sights_eq _ (alike_look hon.start_le_pos hlook) fun m hm =>
          hrest m (List.mem_filter.1 hm).1
      | false =>
        have hkept : (Act.move m :: acts).filter (!·.isLook) =
            .move m :: acts.filter (!·.isLook) :=
          List.filter_cons_of_pos (by simp [Act.isLook, hlook])
        rw [hkept]
        simp only [sights, ih hon' hrest]
    | close => exact ih (s := s.close) hon hrest
    | cancel => exact ih (s := s.cancel) hon hrest

/-- A move that does not go back on its own does not fail because of a step back without a
    step forward. -/
theorem not_misplaced (s : Stepper n) (hm : ¬m.GoesBack s.lexer) (offset : Nat) :
    (s.record m).outcome ≠ .raised (.misplacedBackup offset) :=
  (Alike.record ⟨rfl, rfl, rfl, .refl _⟩ hm).not_misplaced offset

theorem sights_not_misplaced (keep : Move n → Bool) {acts : List (Act n)}
    (hacts : ∀ m, .move m ∈ acts → ¬m.GoesBack s.lexer) :
    ∀ sight ∈ s.sights keep acts, ∀ offset, sight.outcome ≠ .raised (.misplacedBackup offset) := by
  induction acts generalizing s with
  | nil => exact fun sight hsight => absurd hsight List.not_mem_nil
  | cons a acts ih =>
    have hrest m (hm : .move m ∈ acts) := hacts m (List.mem_cons_of_mem _ hm)
    cases a with
    | move m =>
      have htail := ih (s := s.act (.move m)) hrest
      simp only [sights]
      split
      · exact List.forall_mem_cons.2 ⟨s.not_misplaced (hacts m List.mem_cons_self), htail⟩
      · exact htail
    | close => exact ih (s := s.close) hrest
    | cancel => exact ih (s := s.cancel) hrest

end Stepper

/-- A step back without a step forward is the only fault under its label that no grammar
    raises on purpose. -/
theorem Fault.exists_text_of_label {fault : Fault} (hlabel : fault.label = FaultSort.cursor.label)
    (hplaced : ∀ offset, fault ≠ .misplacedBackup offset) :
    ∃ text, fault = .thrown .cursor text := by
  cases fault with
  | misplacedBackup offset => exact absurd rfl (hplaced offset)
  | refused why => cases why <;> exact absurd hlabel (by decide)
  | thrown sort text =>
    cases sort with
    | cursor => exact ⟨text, rfl⟩
    | _ => exact absurd hlabel (by simp [label, FaultSort.label])

/-! ## All of it -/

/-- Where no move goes back on its own, neither the checks of the steps back nor looks can be
    seen. Whatever a stepper is made to do, by steps or by calls of states, among them all
    that come with the library:

    * wherever it is made, and whatever has been done before, no such move fails for the lack
      of a step forward, though every step back on its way is checked;
    * so a fault of this sort is one that a grammar raises on purpose;
    * what is seen of the moves is the same whether steps back are strict or not;
    * what is seen of the moves that are no looks is the same however many looks, ahead or
      back, there are between them. -/
theorem lookahead_invisible (lexer : Lexer n) (settings : Settings) (input : ByteArray)
    (channel : Channel Token) {acts : List (Stepper.Act n)}
    (hacts : ∀ m, .move m ∈ acts → ¬m.GoesBack lexer) :
    let stepper (settings : Settings) := Stepper.new lexer settings input channel
    (∀ (s : Stepper n) m, ¬m.GoesBack s.lexer →
        ∀ offset, (s.record m).outcome ≠ .raised (.misplacedBackup offset)) ∧
      (∀ sight ∈ (stepper settings).sights (fun _ => true) acts, ∀ fault,
        sight.outcome = .raised fault → fault.label = FaultSort.cursor.label →
          ∃ text, fault = .thrown .cursor text) ∧
      (∀ strict, (stepper { settings with strictBackup := strict }).sights (fun _ => true) acts =
        (stepper settings).sights (fun _ => true) acts) ∧
      ∀ acts' : List (Stepper.Act n), acts'.filter (!·.isLook) = acts.filter (!·.isLook) →
        (stepper settings).sights (!·.isLook) acts' =
          (stepper settings).sights (!·.isLook) acts := by
  intro stepper
  refine ⟨fun s m hm => Stepper.not_misplaced s hm,
    fun sight hsight fault hfault hlabel => ?_, fun strict => ?_, fun acts' hfilter => ?_⟩
  · refine Fault.exists_text_of_label hlabel ?_
    rintro offset rfl
    exact Stepper.sights_not_misplaced (s := stepper settings) _ hacts sight hsight offset hfault
  · exact Stepper.sights_eq (s := stepper settings) _ ⟨rfl, rfl, rfl, .refl _⟩ hacts
  · have hon : (stepper settings).reader.On input := Reader.on_mk input
    have hacts' (m : Move n) (hm : .move m ∈ acts') : ¬m.GoesBack lexer := by
      by_cases hlook : m.isLook = true
      · cases m with
        | step step =>
          rintro rfl
          simp [Move.isLook] at hlook
        | call q => simp [Move.isLook] at hlook
      · -- A move that is no look is one of the others, too.
        have hmem : Stepper.Act.move m ∈ acts.filter (!·.isLook) := by
          rw [← hfilter]
          exact List.mem_filter.2 ⟨hm, by simpa [Stepper.Act.isLook] using hlook⟩
        exact hacts m (List.mem_filter.1 hmem).1
    rw [← Stepper.sights_filter hon hacts', hfilter, Stepper.sights_filter hon hacts]

/-- Looks between the moves, also behind a text that cannot be undone, are not seen. -/
theorem lookahead_invisible_letters :
    let steps (l : List Step) : List (Stepper.Act 0) := l.map fun step => .move (.step step)
    let dispatch : Stepper.Act 0 := .move (.call (.standard .dispatch))
    let acts := steps [.next, .acceptLiteral "b", .emit .hostname] ++ [dispatch]
    let acts' := steps [.peek, .next, .prevRune, .acceptLiteral "b", .peek, .peek,
      .emit .hostname] ++ [dispatch] ++ steps [.prevRune]
    let s : Stepper 0 := .new .standard {} "abc".toUTF8 {}
    (∀ m : Move 0, .move m ∈ acts → ¬m.GoesBack Lexer.standard) ∧
      acts'.filter (!·.isLook) = acts.filter (!·.isLook) ∧
      (s.sights (!·.isLook) acts').map (fun sight => (sight.tokens, sight.pos, sight.start)) =
        [([], 1, 0), ([], 2, 0), ([⟨.hostname, 0, "ab"⟩], 2, 2), ([], 2, 2)] ∧
      ∀ strict, (Stepper.new .standard { strictBackup := strict } "abc".toUTF8 {}).sights
        (fun _ => true) acts = s.sights (fun _ => true) acts := by
  intro steps dispatch acts acts' s
  have hacts : ∀ m : Move 0, .move m ∈ acts → ¬m.GoesBack Lexer.standard := by
    simp [acts, steps, dispatch, Move.GoesBack]
  have hfilter : acts'.filter (!·.isLook) = acts.filter (!·.isLook) := rfl
  obtain ⟨-, -, hstrict, hlooks⟩ := lookahead_invisible Lexer.standard {} "abc".toUTF8 {} hacts
  refine ⟨hacts, hfilter, ?_, hstrict⟩
  rw [hlooks acts' hfilter]
  decide +kernel

end StateLexer
