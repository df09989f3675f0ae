import StateLexer.Proofs.Reader.Moves
import StateLexer.Proofs.Run.Unbroken

/-!
# The windows of a run

A run closes one window after the other. A window ends where the reader stands when a
token is made of it, or when it is left out of the tokens (`Closing`). The record of a
run shows the tokens, but nothing of what is left out, so the windows that a piece of a
grammar closes are computed beside its run (`Step.closings`, …, `Lexer.closings`).

From one closing to the next the reader moves inside its window. What a grammar does is
thus a *passage*: moves, and closings in between (`Passage`). This holds for every piece
of a grammar, from a single step to the call of a state, whether it fails or not, and the
tokens on its record are those that are made of the windows (`Run.Passes`):

* `Step.passes_run`, `Step.passes_runAll`: the steps of a grammar;
* `Recognizer.passes_call`: a recognizer with a transition;
* `Lexer.passes_call`, `Lexer.passes_calls`: a state, of whatever grammar, and a chain of
  them.
-/

namespace StateLexer

/-- The end of a window: where the reader stands, and the token that is made of the
    window, unless it is left out. -/
structure Closing where
  reader : Reader
  token : Option Token

/-- The reader gets from the one place to the other, and closes the windows on its way. -/
inductive Passage (strict : Bool) : Reader → List Closing → Reader → Prop
  | moves {r r' : Reader} (h : r.Moves strict r') : Passage strict r [] r'
  | close (r : Reader) {token : Option Token} (h : ∀ t ∈ token, ∃ kind, t = r.token kind) :
    Passage strict r [⟨r, token⟩] r.renew
  | trans {r r' r'' : Reader} {cs cs' : List Closing} (h : Passage strict r cs r')
    (h' : Passage strict r' cs' r'') : Passage strict r (cs ++ cs') r''

variable {strict : Bool} {r r' : Reader} {cs cs' : List Closing}

theorem Passage.refl (r : Reader) : Passage strict r [] r :=
  .moves (.refl r)

/-- Every token is made of its window. -/
theorem Passage.exists_kind (h : Passage strict r cs r') :
    ∀ c ∈ cs, ∀ t ∈ c.token, ∃ kind, t = c.reader.token kind := by
  induction h with
  | moves => exact fun c hc => absurd hc List.not_mem_nil
  | close r h =>
    intro c hc
    obtain rfl := List.mem_singleton.1 hc
    exact h
  | trans h h' ih ih' =>
    intro c hc
    rcases List.mem_append.1 hc with hc | hc
    · exact ih c hc
    · exact ih' c hc

/-- What moves and closings keep holds at the end of a passage, and wherever a window is
    closed. -/
theorem Passage.keeps {P : Reader → Prop} (hmoves : ∀ r r', r.Moves strict r' → P r → P r')
    (hclose : ∀ r, P r → P r.renew) (h : Passage strict r cs r') (hr : P r) :
    P r' ∧ ∀ c ∈ cs, P c.reader := by
  induction h with
  | moves h => exact ⟨hmoves _ _ h hr, fun c hc => absurd hc List.not_mem_nil⟩
  | close r =>
    refine ⟨hclose r hr, fun c hc => ?_⟩
    obtain rfl := List.mem_singleton.1 hc
    exact hr
  | trans h h' ih ih' =>
    obtain ⟨hmid, hclosings⟩ := ih hr
    obtain ⟨hend, hclosings'⟩ := ih' hmid
    refine ⟨hend, fun c hc => ?_⟩
    rcases List.mem_append.1 hc with hc | hc
    · exact hclosings c hc
    · exact hclosings' c hc

/-! ## Runs -/

namespace Run

variable {α β : Type}

/-- The windows that the tokens on the record are made of. -/
def offers (run : Run α) : List Closing :=
  run.events.filterMap fun
    | .offer reader token => some ⟨reader, some token⟩
    | .note _ => none

/-- The windows that are closed by a run, which closes `cs`, and, unless it fails, by
    another one behind it. -/
def closingsThen (first : Run α) (cs : List Closing) (second : α → Reader → List Closing) :
    List Closing :=
  match first.outcome with
  | .done value => cs ++ second value first.reader
  | _ => cs

/-- The run takes the reader from the given place on a passage that closes the windows, and
    puts their tokens on its record. -/
structure Passes (strict : Bool) (r : Reader) (cs : List Closing) (run : Run α) : Prop where
  passage : Passage strict r cs run.reader
  offers_eq : run.offers = cs.filter fun c => c.token.isSome

/-- The tokens on the record are those of the windows. -/
theorem Passes.tokens_eq {run : Run α} (h : run.Passes strict r cs) :
    run.tokens = cs.filterMap Closing.token := by
  have hoffers : run.tokens = run.offers.filterMap Closing.token := by
    rw [tokens, offers, List.filterMap_filterMap]
    congr
    funext event
    cases event <;> rfl
  rw [hoffers, h.offers_eq, List.filterMap_filter]
  congr
  funext c
  cases c.token <;> rfl

theorem passes_pure (value : α) (h : r.Moves strict r') :
    (pure value r').Passes strict r [] :=
  ⟨.moves h, rfl⟩

theorem passes_raise (fault : Fault) (r : Reader) :
    (raise fault r : Run α).Passes strict r [] :=
  ⟨.refl r, rfl⟩

theorem passes_note (notice : Notice) (h : r.Moves strict r') :
    (note notice r').Passes strict r [] :=
  ⟨.moves h, rfl⟩

/-- A token that is refused closes no window. -/
theorem passes_emit (strict : Bool) (env : Env) (kind : Kind) (r : Reader) :
    (emit env kind r).Passes strict r (emit env kind r).offers := by
  rw [emit]
  split
  · exact passes_raise _ r
  · refine ⟨.close r fun t ht => ⟨kind, ?_⟩, rfl⟩
    exact (Option.some.inj ht).symm

/-- A run can begin behind moves. -/
theorem Passes.behind {run : Run α} (h : run.Passes strict r' cs) (hr : r.Moves strict r') :
    run.Passes strict r cs :=
  ⟨(Passage.moves hr).trans h.passage, h.offers_eq⟩

theorem Passes.andThen {first : Run α} {f : α → Reader → Run β}
    {g : α → Reader → List Closing} (h : first.Passes strict r cs)
    (hf : ∀ value, (f value first.reader).Passes strict first.reader (g value first.reader)) :
    (first.andThen f).Passes strict r (first.closingsThen cs g) := by
  obtain ⟨events, reader, outcome⟩ := first
  cases outcome with
  | done value =>
    refine ⟨h.passage.trans (hf value).passage, ?_⟩
    have hfirst := h.offers_eq
    have hsecond := (hf value).offers_eq
    simp only [offers] at hfirst hsecond
    simp only [Run.andThen, closingsThen, offers, List.filterMap_append, List.filter_append,
      hfirst, hsecond]
  | raised fault => exact ⟨h.passage, h.offers_eq⟩
  | stuck => exact ⟨h.passage, h.offers_eq⟩

/-- To compute a value behind a run closes no window. -/
theorem Passes.map {run : Run α} (f : α → β) (h : run.Passes strict r cs) :
    (run.andThen fun value r => .pure (f value) r).Passes strict r cs := by
  have hmap := h.andThen (g := fun _ _ => []) fun value => passes_pure (f value) (.refl _)
  rw [closingsThen] at hmap
  split at hmap
  · rwa [List.append_nil] at hmap
  · exact hmap

end Run

/-! ## Steps -/

namespace Step

/-- The windows that the step closes. -/
def closings (env : Env) : Step → Reader → List Closing
  | .skip, r => [⟨r, none⟩]
  | .emit kind, r => (Run.emit env kind r).offers
  | _, _ => []

/-- The windows that the steps close, in order. -/
def closingsAll (env : Env) : List Step → Reader → List Closing
  | [], _ => []
  | step :: steps, r =>
    (step.run env r).closingsThen (step.closings env r) fun _ r => closingsAll env steps r

theorem passes_run (env : Env) (step : Step) (r : Reader) :
    (step.run env r).Passes env.settings.strictBackup r (step.closings env r) := by
  have hr : r.Moves env.settings.strictBackup r := .refl r
  cases step with
  | next => exact Run.passes_pure _ hr.step
  | peek => exact run_peek env r ▸ Run.passes_pure _ hr.look
  | prevRune => exact Run.passes_pure _ hr
  | backup =>
    rw [run_backup]
    split
    · exact Run.passes_raise _ r
    · next hbackup =>
      exact Run.passes_pure _ (.stepBack fun hstrict => by simpa [hstrict] using hbackup)
  | skip => exact ⟨.close r fun t ht => by simp at ht, rfl⟩
  | acceptOneOf runes => exact run_acceptOneOf env r runes ▸ Run.passes_pure _ (hr.acceptOneOf _)
  | acceptRun runes =>
    rw [run_acceptRun]
    split
    · next ht => exact Run.passes_pure _ (hr.acceptRun ht)
    · exact ⟨.refl r, rfl⟩
  | acceptUntil last => exact run_acceptUntil env r last ▸ Run.passes_pure _ (hr.acceptUntil last)
  | acceptLiteral text => exact Run.passes_pure _ (hr.acceptLiteral text)
  | acceptWhile p => exact run_acceptWhile env r p ▸ Run.passes_pure _ (hr.acceptWhile _)
  | acceptUntilMatch p => exact run_acceptUntilMatch env r p ▸ Run.passes_pure _ (hr.acceptWhile _)
  | emit kind => exact (Run.passes_emit _ env kind r).map fun _ => Value.nothing
  | raise sort text => exact Run.passes_raise _ r

theorem passes_runAll (env : Env) (steps : List Step) (value : Value) (r : Reader) :
    (runAll env steps value r).Passes env.settings.strictBackup r (closingsAll env steps r) := by
  induction steps generalizing value r with
  | nil => exact Run.passes_pure _ (.refl r)
  | cons step steps ih => exact (passes_run env step r).andThen fun value => ih value _

end Step

/-! ## Recognizers -/

namespace Matcher

/-- The windows that the matcher closes. -/
def closings (env : Env) : Matcher → Reader → List Closing
  | .token _, _ => []
  | .steps ss _ _, r => Step.closingsAll env ss r

theorem passes_run (env : Env) (matcher : Matcher) (r : Reader) :
    (matcher.run env r).Passes env.settings.strictBackup r (matcher.closings env r) := by
  cases matcher with
  | token k =>
    have hr : r.Moves env.settings.strictBackup r := .refl r
    have hread := TokenClass.moves_read env.settings k hr
    rw [run_token]
    simp only [ofReading]
    split
    · exact Run.passes_pure _ hread
    · exact Run.passes_pure _ hread
    · exact (Run.passes_note _ hread).map fun _ => Verdict.invalid
  | steps steps result otherwise =>
    exact (Step.passes_runAll env steps _ r).map fun value => choose value result otherwise

end Matcher

namespace Recognizer

variable {σ : Type}

/-- The window that is closed when something has been accepted. -/
def settleClosings (env : Env) (kind : Kind) (t : Transition σ) (r : Reader) : List Closing :=
  if t.emits then (Run.emit env (t.kind.getD kind) r).offers else [⟨r, none⟩]

/-- The windows that the recognizer closes, with the transition. -/
def closings (env : Env) (recognizer : Recognizer) (t : Transition σ) (r : Reader) :
    List Closing :=
  (recognizer.matcher.run env r).closingsThen (recognizer.matcher.closings env r)
    fun verdict r =>
      match verdict with
      | .invalid => (Run.emit env .error r).offers
      | .rejected => []
      | .accepted => settleClosings env recognizer.kind t (exhausted .plain r).2

theorem passes_settle (env : Env) (kind : Kind) (t : Transition σ) (r : Reader) :
    (settle env kind t r).Passes strict r (settleClosings env kind t r) := by
  rw [settle, settleClosings]
  split
  · exact Run.passes_emit _ env _ r
  · exact ⟨.close r fun t ht => by simp at ht, rfl⟩

theorem passes_call (env : Env) (home : σ) (recognizer : Recognizer) (t : Transition σ)
    (r : Reader) : (recognizer.call env home t r).Passes env.settings.strictBackup r
      (recognizer.closings env t r) := by
  refine (Matcher.passes_run env _ r).andThen fun verdict => ?_
  cases verdict with
  | invalid => exact (Run.passes_emit _ env _ _).map _
  | rejected => exact conclude_rejected ▸ Run.passes_pure _ (moves_exhausted (.refl _))
  | accepted =>
    rw [conclude_accepted]
    exact ((passes_settle env _ t _).map _).behind (moves_exhausted (.refl _))

end Recognizer

/-! ## State calls -/

namespace Lexer

variable {n : Nat}

/-- The windows that a script closes. -/
def scriptClosings (env : Env) (s : Script (State n)) (r : Reader) : List Closing :=
  match s.atEnd with
  | none => Step.closingsAll env s.steps r
  | some _ => if r.peek.1.isNone then [] else Step.closingsAll env s.steps r.peek.2

/-- The windows that a call of the state closes. -/
def closings (lexer : Lexer n) (env : Env) : State n → Reader → List Closing
  | .standard (.token k), r => k.recognizer.closings env ({} : Transition (State n)) r
  | .standard .dispatch, r =>
    match r.peek.1 with
    | none => (Run.emit env .endOfInput r.peek.2).offers
    | some _ => []
  | .standard .unknown, r =>
    (Run.emit env .error (r.next.2.acceptUntilMatch beginsToken).2).offers
  | .custom i, r =>
    match lexer.grammar i with
    | .recognizer recognizer t => recognizer.closings env t r
    | .script s => scriptClosings env s r

theorem passes_script (env : Env) (home : State n) (s : Script (State n)) (r : Reader) :
    (script env home s r).Passes env.settings.strictBackup r (scriptClosings env s r) := by
  cases hend : s.atEnd with
  | none =>
    simp only [script, scriptClosings, hend]
    exact (Step.passes_runAll env _ _ r).map _
  | some target =>
    have hpeek : r.Moves env.settings.strictBackup r.peek.2 := .look (.refl r)
    rw [script_of_atEnd hend]
    simp only [scriptClosings, hend]
    split
    · exact Run.passes_pure _ hpeek
    · exact ((Step.passes_runAll env _ _ _).map _).behind hpeek

/-- A state call is a passage. -/
theorem passes_call (lexer : Lexer n) (env : Env) (q : State n) (r : Reader) :
    (lexer.call env q r).Passes env.settings.strictBackup r (lexer.closings env q r) := by
  have hr : r.Moves env.settings.strictBackup r := .refl r
  cases q with
  | standard q =>
    cases q with
    | token k => exact Recognizer.passes_call env _ _ _ r
    | dispatch =>
      cases hahead : r.peek.1 with
      | none =>
        simp only [call, closings, dispatch_of_end hahead, hahead]
        exact ((Run.passes_emit _ env _ _).map _).behind hr.look
      | some c =>
        simp only [call, closings, dispatch_of_rune hahead, hahead]
        exact Run.passes_pure _ hr.look
    | unknown =>
      have hread := hr.step.acceptWhile fun c => !beginsToken c
      have hemit := (Run.passes_emit env.settings.strictBackup env .error
        (r.next.2.acceptUntilMatch beginsToken).2).map fun _ => some lexer.home
      simp only [call, closings, unknown_of_accept rfl]
      exact ⟨(Passage.moves hread).trans hemit.passage, hemit.offers_eq⟩
  | custom i =>
    cases hstate : lexer.grammar i with
    | recognizer recognizer t =>
      simp only [call, closings, hstate]
      exact Recognizer.passes_call env _ _ _ r
    | script s =>
      simp only [call, closings, hstate]
      exact passes_script env _ _ r

/-! ## Chains of calls -/

/-- The windows that the first `k` of a chain of state calls close. -/
def chainClosings (lexer : Lexer n) (env : Env) : (k : Nat) → Option (State n) → Reader →
    List Closing
  | _, none, _ => []
  | 0, some _, _ => []
  | k + 1, some q, r =>
    (lexer.call env q r).closingsThen (lexer.closings env q r) (chainClosings lexer env k)

theorem passes_calls (lexer : Lexer n) (env : Env) (k : Nat) (st : Option (State n))
    (r : Reader) : (lexer.calls env k st r).Passes env.settings.strictBackup r
      (lexer.chainClosings env k st r) := by
  induction k generalizing st r with
  | zero => cases st <;> exact Run.passes_pure _ (.refl r)
  | succ k ih =>
    cases st with
    | none => exact Run.passes_pure _ (.refl r)
    | some q => exact (lexer.passes_call env q r).andThen fun next => ih next _

/-- The windows that the first `k` state calls of the unbroken scan close. -/
def scanClosings (lexer : Lexer n) (settings : Settings) (input : ByteArray) (k : Nat) :
    List Closing :=
  lexer.chainClosings { settings } k (some lexer.start) { input }

end Lexer

end StateLexer
