import StateLexer.Proofs.Recognizer.Exhausted

/-!
# Policies of emission

A transition says where a recognizer leads, and besides, whether what has been accepted is
emitted, and as which kind of token. The latter is a *policy*: two lexers that differ in
nothing else (`Lexer.SameRoutes`) call the same states at the same places, and end in the
same way. To emit a window and to skip it leaves the reader at the same place.

So the tokens of both are told by one list of *slots*, which the calls leave open for the
policies (`Slot`): a slot holds a token, which is the same for both lexers, or the window
that a recognizer has accepted, of which its policy makes a token or none (`Slot.fill`).

* `Recognizer.parallel_conclude`: what a recognizer does with a verdict, under two policies;
* `Lexer.parallel_call`, `Lexer.parallel_calls`: a state call, and a chain of them;
* `policy_invisible`: the unbroken scans of both lexers.
-/

namespace StateLexer

variable {n : Nat} {α β σ : Type}

/-! ## Lexers that differ in their policies -/

/-- The two transitions lead to the same states. -/
structure Transition.SameRoutes (t t' : Transition σ) : Prop where
  onSuccess_eq : t'.onSuccess = t.onSuccess
  onError_eq : t'.onError = t.onError
  onReject_eq : t'.onReject = t.onReject

/-- The two definitions are the same but for the policy of a recognizer. -/
inductive Definition.SameRoutes : Definition σ → Definition σ → Prop
  | recognizer (r : Recognizer) {t t' : Transition σ} (routes : t.SameRoutes t') :
    SameRoutes (.recognizer r t) (.recognizer r t')
  | script (s : Script σ) : SameRoutes (.script s) (.script s)

/-- The two lexers are the same but for the policies of their recognizers. -/
structure Lexer.SameRoutes (lexer lexer' : Lexer n) : Prop where
  start_eq : lexer'.start = lexer.start
  home_eq : lexer'.home = lexer.home
  grammar : ∀ i, (lexer.grammar i).SameRoutes (lexer'.grammar i)

/-- The policy of a state: the kind of token that it makes of what it accepts, if any. -/
def Definition.policy : Definition σ → Option Kind
  | recognizer r t => if t.emits then some (t.kind.getD r.kind) else none
  | script _ => none

/-! ## Slots -/

/-- What a state call hands over, with the policies left open. -/
inductive Slot (n : Nat)
  | token (t : Token)
  /-- The window of the reader, which the recognizer of the state has accepted. -/
  | accepted (i : Fin n) (r : Reader)

/-- The token that the policies of the grammar put into the slot, if any. -/
def Slot.fill (g : Grammar n) : Slot n → Option Token
  | token t => some t
  | accepted i r => (g i).policy.map r.token

theorem filterMap_fill_token (g : Grammar n) (ts : List Token) :
    (ts.map Slot.token).filterMap (Slot.fill g) = ts := by
  rw [List.filterMap_map]
  exact List.filterMap_some

namespace Run

/-- What is listed of a run is `own`, and, unless it fails, what is listed of the run behind
    it follows. -/
def gather {γ : Type} (first : Run α) (own : List γ) (rest : α → Reader → List γ) : List γ :=
  match first.outcome with
  | .done value => own ++ rest value first.reader
  | _ => own

/-- The two runs come to the same end, and their tokens are what the policies of the two
    grammars make of the slots. -/
structure Parallel (g g' : Grammar n) (slots : List (Slot n)) (run run' : Run α) : Prop where
  reader_eq : run'.reader = run.reader
  outcome_eq : run'.outcome = run.outcome
  tokens_eq : run.tokens = slots.filterMap (Slot.fill g)
  tokens_eq' : run'.tokens = slots.filterMap (Slot.fill g')

variable {g g' : Grammar n} {slots : List (Slot n)} {run run' : Run α}

/-- The tokens of a run in which no policy has a part are the same for both. -/
theorem parallel_token (g g' : Grammar n) (run : Run α) :
    run.Parallel g g' (run.tokens.map .token) run :=
  ⟨rfl, rfl, (filterMap_fill_token g _).symm, (filterMap_fill_token g' _).symm⟩

theorem parallel_pure (g g' : Grammar n) (value : α) (r : Reader) :
    (pure value r).Parallel g g' [] (pure value r) :=
  ⟨rfl, rfl, rfl, rfl⟩

theorem Parallel.andThen {f f' : α → Reader → Run β} {rest : α → Reader → List (Slot n)}
    (h : run.Parallel g g' slots run')
    (hf : ∀ value r, (f value r).Parallel g g' (rest value r) (f' value r)) :
    (run.andThen f).Parallel g g' (run.gather slots rest) (run'.andThen f') := by
  obtain ⟨events, r, outcome⟩ := run
  obtain ⟨events', r', outcome'⟩ := run'
  obtain ⟨hreader, houtcome, htokens, htokens'⟩ := h
  obtain rfl : r = r' := hreader.symm
  obtain rfl : outcome = outcome' := houtcome.symm
  cases outcome with
  | done value =>
    obtain ⟨hreader, houtcome, hrest, hrest'⟩ := hf value r
    refine ⟨hreader, houtcome, ?_, ?_⟩
    · rw [tokens_andThen_done rfl, htokens, hrest, gather, List.filterMap_append]
    · rw [tokens_andThen_done rfl, htokens', hrest', gather, List.filterMap_append]
  | raised fault => exact ⟨rfl, rfl, htokens, htokens'⟩
  | stuck => exact ⟨rfl, rfl, htokens, htokens'⟩

/-- To compute a value behind runs puts nothing into a slot. -/
theorem Parallel.map (f : α → β) (h : run.Parallel g g' slots run') :
    (run.andThen fun value r => .pure (f value) r).Parallel g g' slots
      (run'.andThen fun value r => .pure (f value) r) := by
  have hvalue (value : α) (r : Reader) := parallel_pure g g' (f value) r
  have hmap := h.andThen hvalue
  rw [gather] at hmap
  split at hmap
  · rwa [List.append_nil] at hmap
  · exact hmap

end Run

/-! ## Recognizers -/

namespace Recognizer

/-- The slots that a recognizer leaves, as the state with the number, when it acts upon a
    verdict. -/
def concludeSlots (i : Fin n) (verdict : Verdict) (r : Reader) : List (Slot n) :=
  match verdict with
  | .invalid => [.token (r.token .error)]
  | .rejected => []
  | .accepted => [.accepted i (exhausted .plain r).2]

/-- As long as tokens are accepted, what is accepted is a slot for the policy. -/
theorem tokens_settle {env : Env} (hopen : env.refusal = none) {g : Grammar n} {i : Fin n}
    {recognizer : Recognizer} {t : Transition (State n)} (hg : g i = .recognizer recognizer t)
    (r : Reader) : (settle env recognizer.kind t r).tokens = [Slot.accepted i r].filterMap
      (Slot.fill g) := by
  rw [settle]
  cases hemits : t.emits with
  | true =>
    rw [if_pos rfl, Run.tokens_emit hopen]
    simp [Slot.fill, hg, Definition.policy, hemits]
  | false => simp [Slot.fill, hg, Definition.policy, hemits]

theorem parallel_conclude {env : Env} (hopen : env.refusal = none) {g g' : Grammar n} {i : Fin n}
    {recognizer : Recognizer} {t t' : Transition (State n)}
    (hg : g i = .recognizer recognizer t) (hg' : g' i = .recognizer recognizer t')
    (hroutes : t.SameRoutes t') (home : State n) (verdict : Verdict) (r : Reader) :
    (conclude env home recognizer.kind t verdict r).Parallel g g' (concludeSlots i verdict r)
      (conclude env home recognizer.kind t' verdict r) := by
  cases verdict with
  | invalid =>
    have hemit := Run.parallel_token g g' (Run.emit env .error r)
    rw [Run.tokens_emit hopen] at hemit
    simp only [conclude, hroutes.onError_eq]
    exact hemit.map _
  | rejected =>
    simp only [conclude_rejected, hroutes.onReject_eq]
    exact Run.parallel_pure g g' _ _
  | accepted =>
    simp only [conclude_accepted, hroutes.onSuccess_eq]
    refine Run.Parallel.map _ ⟨?_, ?_, tokens_settle hopen hg _, tokens_settle hopen hg' _⟩
    · rw [reader_settle hopen, reader_settle hopen]
    · rw [outcome_settle hopen, outcome_settle hopen]

end Recognizer

/-! ## State calls -/

namespace Lexer

variable {lexer lexer' : Lexer n} {env : Env}

/-- The slots that a call of the state leaves. -/
def callSlots (lexer : Lexer n) (env : Env) : State n → Reader → List (Slot n)
  | .standard q, r => (lexer.call env (.standard q) r).tokens.map .token
  | .custom i, r =>
    match lexer.grammar i with
    | .recognizer recognizer _ =>
      let matched := recognizer.matcher.run env r
      matched.gather (matched.tokens.map .token) (Recognizer.concludeSlots i)
    | .script s => (script env lexer.home s r).tokens.map .token

theorem SameRoutes.call_standard (h : lexer.SameRoutes lexer') (env : Env) (q : Standard)
    (r : Reader) : lexer'.call env (.standard q) r = lexer.call env (.standard q) r := by
  cases q <;> simp only [call, h.home_eq]

/-- A state call leaves the slots open, whatever the policies are. -/
theorem SameRoutes.parallel_call (h : lexer.SameRoutes lexer') (hopen : env.refusal = none)
    (q : State n) (r : Reader) :
    (lexer.call env q r).Parallel lexer.grammar lexer'.grammar (lexer.callSlots env q r)
      (lexer'.call env q r) := by
  cases q with
  | standard q =>
    rw [h.call_standard]
    exact Run.parallel_token _ _ _
  | custom i =>
    have hstate := h.grammar i
    generalize hdef : lexer.grammar i = d at hstate
    generalize hdef' : lexer'.grammar i = d' at hstate
    cases hstate with
    | recognizer recognizer routes =>
      simp only [call, callSlots, hdef, hdef', h.home_eq, Recognizer.call]
      exact (Run.parallel_token _ _ _).andThen
        (Recognizer.parallel_conclude hopen hdef hdef' routes lexer.home)
    | script s =>
      simp only [call, callSlots, hdef, hdef', h.home_eq]
      exact Run.parallel_token _ _ _

/-! ## Chains of calls -/

/-- The slots that the first `k` of a chain of state calls leave. -/
def slots (lexer : Lexer n) (env : Env) : (k : Nat) → Option (State n) → Reader → List (Slot n)
  | _, none, _ => []
  | 0, some _, _ => []
  | k + 1, some q, r =>
    (lexer.call env q r).gather (lexer.callSlots env q r) (slots lexer env k)

/-- A state call of a chain. -/
structure Visit (n : Nat) where
  state : State n
  /-- The reader in front of the call. -/
  before : Reader
  /-- The reader behind it. -/
  behind : Reader

/-- The first `k` of a chain of state calls. -/
def visits (lexer : Lexer n) (env : Env) : (k : Nat) → Option (State n) → Reader → List (Visit n)
  | _, none, _ => []
  | 0, some _, _ => []
  | k + 1, some q, r =>
    (lexer.call env q r).gather [⟨q, r, (lexer.call env q r).reader⟩] (visits lexer env k)

theorem SameRoutes.parallel_calls (h : lexer.SameRoutes lexer') (hopen : env.refusal = none)
    (k : Nat) (st : Option (State n)) (r : Reader) :
    (lexer.calls env k st r).Parallel lexer.grammar lexer'.grammar (lexer.slots env k st r)
      (lexer'.calls env k st r) := by
  induction k generalizing st r with
  | zero => cases st <;> exact Run.parallel_pure _ _ _ _
  | succ k ih =>
    cases st with
    | none => exact Run.parallel_pure _ _ _ _
    | some q => exact (h.parallel_call hopen q r).andThen ih

theorem SameRoutes.visits_eq (h : lexer.SameRoutes lexer') (hopen : env.refusal = none)
    (k : Nat) (st : Option (State n)) (r : Reader) :
    lexer'.visits env k st r = lexer.visits env k st r := by
  induction k generalizing st r with
  | zero => cases st <;> rfl
  | succ k ih =>
    cases st with
    | none => rfl
    | some q =>
      have hcall := h.parallel_call hopen q r
      simp only [visits, Run.gather, hcall.outcome_eq, hcall.reader_eq, ih]

end Lexer

/-! ## Unbroken scans -/

/-- The policies of emission do not influence where a scan goes. Two lexers that differ in
    nothing else make the same state calls, with the reader at the same place before and
    behind each of them, and come to the same end. Their tokens are what their policies make
    of the same slots, in order: the tokens of a slot that no policy fills are the same, and
    where a recognizer has accepted its window, either lexer emits what its own policy says. -/
theorem policy_invisible {lexer lexer' : Lexer n} (h : lexer.SameRoutes lexer')
    (settings : Settings) (input : ByteArray) (k : Nat) :
    lexer'.visits { settings } k (some lexer'.start) { input } =
        lexer.visits { settings } k (some lexer.start) { input } ∧
      (lexer'.unbroken settings input k).reader = (lexer.unbroken settings input k).reader ∧
      (lexer'.unbroken settings input k).outcome = (lexer.unbroken settings input k).outcome ∧
      (lexer.unbroken settings input k).tokens =
        (lexer.slots { settings } k (some lexer.start) { input }).filterMap
          (Slot.fill lexer.grammar) ∧
      (lexer'.unbroken settings input k).tokens =
        (lexer.slots { settings } k (some lexer.start) { input }).filterMap
          (Slot.fill lexer'.grammar) := by
  let env : Env := { settings }
  have hopen : env.refusal = none := rfl
  have hcalls := h.parallel_calls hopen k (some lexer.start) { input }
  rw [Lexer.unbroken, Lexer.unbroken, h.start_eq]
  exact ⟨h.visits_eq hopen k _ _, hcalls.reader_eq, hcalls.outcome_eq, hcalls.tokens_eq,
    hcalls.tokens_eq'⟩

/-- A lexer that accepts a character with a hyphen behind it, with the transition, and finds
    any other one invalid. -/
def Lexer.hyphened (t : Transition (State 1)) : Lexer 1 where
  grammar _ := .recognizer
    { name := "hyphened", kind := .hostname
      matcher := .steps [.next, .acceptLiteral "-"] .accepted (some .invalid) } t
  start := .only
  home := .only

/-- Whether a lexer emits what it accepts, or skips it, or makes a token of another kind of
    it, it goes on to the same error token. -/
theorem policy_invisible_hyphened :
    (Lexer.hyphened {}).SameRoutes (.hyphened { emits := false }) ∧
      (Lexer.hyphened {}).SameRoutes (.hyphened { kind := some .space }) ∧
      ((Lexer.hyphened {}).unbroken {} "a-b".toUTF8 2).tokens =
        [⟨.hostname, 0, "a-"⟩, ⟨.error, 2, "b"⟩] ∧
      ((Lexer.hyphened { emits := false }).unbroken {} "a-b".toUTF8 2).tokens =
        [⟨.error, 2, "b"⟩] ∧
      ((Lexer.hyphened { kind := some .space }).unbroken {} "a-b".toUTF8 2).tokens =
        [⟨.space, 0, "a-"⟩, ⟨.error, 2, "b"⟩] := by
  have hskips : (Lexer.hyphened {}).SameRoutes (.hyphened { emits := false }) :=
    ⟨rfl, rfl, fun _ => .recognizer _ ⟨rfl, rfl, rfl⟩⟩
  have hrelabels : (Lexer.hyphened {}).SameRoutes (.hyphened { kind := some .space }) :=
    ⟨rfl, rfl, fun _ => .recognizer _ ⟨rfl, rfl, rfl⟩⟩
  obtain ⟨-, -, -, htokens, htokens'⟩ := policy_invisible hskips {} "a-b".toUTF8 2
  obtain ⟨-, -, -, -, htokens''⟩ := policy_invisible hrelabels {} "a-b".toUTF8 2
  rw [htokens, htokens', htokens'']
  exact ⟨hskips, hrelabels, by decide +kernel, by decide +kernel, by decide +kernel⟩

end StateLexer
