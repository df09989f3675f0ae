import Mathlib.Tactic.ByContra
import StateLexer.Grammar

/-!
# Unbroken runs

A scan in which every token is taken at once is a chain of state calls, each
beginning where the one before ended: `Lexer.calls` is the run of the first `k`
of them, and `Lexer.unbroken` starts it at the beginning of an input. What the
chain offers does not depend on how far one looks (`tokens_calls_mono`), so a
scan has a `k`-th token (`Emits`), and at most one end (`EndsWith`), after so
many tokens, with a failure or without. It can also go on for ever, or get
stuck in a call; then it has no end.

* `calls_add`: the chain can be cut after any number of calls;
* `EndsWith.unique`, `Emits.unique`: there is one stream of tokens, and one end;
* `exists_done_of_loop`, `tokens_of_silent_loop`: a chain that comes back to where it
  was always leads on, and if it is silent meanwhile, it is silent for ever;
* `Continues`: what is still to come of the chain, in the middle of a call.
-/

namespace StateLexer

variable {n : Nat}

/-! ## Ends -/

/-- The failure that a fault is: a cancellation is none. -/
def Fault.failure (f : Fault) : Option Fault :=
  if f.isCancellation then none else some f

/-- With which failure a chain of state calls is over that comes to this
    outcome; nothing, if it is not over. -/
def Outcome.ending {σ : Type} : Outcome (Option σ) → Option (Option Fault)
  | done none => some none
  | done (some _) => none
  | raised fault => some fault.failure
  | stuck => none

namespace Run

variable {α β : Type}

theorem tokens_prefix_andThen (run : Run α) (f : α → Reader → Run β) :
    run.tokens <+: (run.andThen f).tokens := by
  obtain ⟨events, r, outcome⟩ := run
  cases outcome with
  | done value => exact ⟨_, (tokens_andThen_done rfl f).symm⟩
  | raised fault => exact List.prefix_rfl
  | stuck => exact List.prefix_rfl

/-- Nothing follows a run that has no value. -/
theorem andThen_of_not_done {run : Run α} (h : ∀ value, run.outcome ≠ .done value)
    (f : α → Reader → Run α) : run.andThen f = run := by
  obtain ⟨events, r, outcome⟩ := run
  cases outcome with
  | done value => exact absurd rfl (h value)
  | raised fault => rfl
  | stuck => rfl

theorem outcome_andThen_done {run : Run α} {value : α} (h : run.outcome = .done value)
    (f : α → Reader → Run β) : (run.andThen f).outcome = (f value run.reader).outcome := by
  simp [andThen, h]

theorem reader_andThen_done {run : Run α} {value : α} (h : run.outcome = .done value)
    (f : α → Reader → Run β) : (run.andThen f).reader = (f value run.reader).reader := by
  simp [andThen, h]

/-- What follows a run depends on its tokens, its reader and its outcome only. -/
theorem tokens_andThen_congr {run run' : Run α} (ht : run.tokens = run'.tokens)
    (hr : run.reader = run'.reader) (ho : run.outcome = run'.outcome)
    (f : α → Reader → Run β) :
    (run.andThen f).tokens = (run'.andThen f).tokens ∧
      (run.andThen f).outcome = (run'.andThen f).outcome := by
  obtain ⟨events, r, outcome⟩ := run
  obtain ⟨events', r', outcome'⟩ := run'
  obtain rfl : r = r' := hr
  obtain rfl : outcome = outcome' := ho
  cases outcome with
  | done value =>
    rw [tokens_andThen_done rfl, tokens_andThen_done rfl, ht]
    exact ⟨rfl, rfl⟩
  | raised fault => exact ⟨ht, rfl⟩
  | stuck => exact ⟨ht, rfl⟩

end Run

namespace Lexer

/-! ## Chains of calls -/

/-- The run of up to `k` state calls, one after the other, with every token
    taken at once. -/
def calls (lexer : Lexer n) (env : Env) :
    (k : Nat) → Option (State n) → Reader → Run (Option (State n))
  | _, none, r => .pure none r
  | 0, some q, r => .pure (some q) r
  | k + 1, some q, r => (lexer.call env q r).andThen (calls lexer env k)

variable {lexer : Lexer n} {env : Env} {st : Option (State n)} {q : State n} {r : Reader}

@[simp] theorem calls_none (k : Nat) (r : Reader) : lexer.calls env k none r = .pure none r := by
  cases k <;> rfl

@[simp] theorem calls_zero (st : Option (State n)) (r : Reader) :
    lexer.calls env 0 st r = .pure st r := by
  cases st <;> rfl

theorem calls_succ (k : Nat) (q : State n) (r : Reader) :
    lexer.calls env (k + 1) (some q) r = (lexer.call env q r).andThen (lexer.calls env k) := rfl

/-- A call that leads nowhere is the whole chain. -/
theorem calls_one_of_halted (h : (lexer.call env q r).outcome = .done none) :
    (lexer.calls env 1 (some q) r).outcome = .done none ∧
      (lexer.calls env 1 (some q) r).tokens = (lexer.call env q r).tokens := by
  rw [calls_succ, Run.outcome_andThen_done h, Run.tokens_andThen_done h, calls_none,
    Run.tokens_pure, List.append_nil]
  exact ⟨rfl, rfl⟩

/-- A chain can be cut after any number of calls. -/
theorem calls_add (j k : Nat) (st : Option (State n)) (r : Reader) :
    lexer.calls env (j + k) st r = (lexer.calls env j st r).andThen (lexer.calls env k) := by
  induction j generalizing st r with
  | zero => simp
  | succ j ih =>
    cases st with
    | none => simp
    | some q =>
      rw [Nat.succ_add, calls_succ, calls_succ, Run.andThen_assoc]
      congr
      funext st r
      exact ih st r

theorem tokens_calls_mono {j k : Nat} (h : j ≤ k) (st : Option (State n)) (r : Reader) :
    (lexer.calls env j st r).tokens <+: (lexer.calls env k st r).tokens := by
  obtain ⟨i, rfl⟩ := Nat.exists_eq_add_of_le h
  rw [calls_add]
  exact Run.tokens_prefix_andThen _ _

/-- A chain that leads to no other call does not go on. -/
theorem calls_add_of_not_done {j : Nat}
    (h : ∀ q, (lexer.calls env j st r).outcome ≠ .done (some q)) (k : Nat) :
    lexer.calls env (j + k) st r = lexer.calls env j st r := by
  rw [calls_add]
  generalize lexer.calls env j st r = run at h
  obtain ⟨events, r', outcome⟩ := run
  cases outcome with
  | done next =>
    cases next with
    | none => simp [Run.andThen, Run.pure]
    | some q => exact absurd rfl (h q)
  | raised fault => rfl
  | stuck => rfl

/-- A chain that is over does not go on. -/
theorem calls_add_of_ending {j : Nat} {failure : Option Fault}
    (h : (lexer.calls env j st r).outcome.ending = some failure) (k : Nat) :
    lexer.calls env (j + k) st r = lexer.calls env j st r := by
  refine calls_add_of_not_done (fun q hq => ?_) k
  rw [hq] at h
  simp [Outcome.ending] at h

/-! ## Loops -/

/-- A chain that comes back to where it was does so again and again. -/
theorem calls_mul_of_loop {j : Nat} (ho : (lexer.calls env j (some q) r).outcome = .done (some q))
    (hr : (lexer.calls env j (some q) r).reader = r) (m : Nat) :
    (lexer.calls env (j * m) (some q) r).outcome = .done (some q) ∧
      (lexer.calls env (j * m) (some q) r).reader = r := by
  induction m with
  | zero => exact ⟨rfl, rfl⟩
  | succ m ih =>
    rw [Nat.mul_succ, calls_add, Run.outcome_andThen_done ih.1, Run.reader_andThen_done ih.1, ih.2]
    exact ⟨ho, hr⟩

/-- A chain that comes back to where it was always leads to another call. -/
theorem exists_done_of_loop {j : Nat} (hj : 1 ≤ j)
    (ho : (lexer.calls env j (some q) r).outcome = .done (some q))
    (hr : (lexer.calls env j (some q) r).reader = r) (k : Nat) :
    ∃ q', (lexer.calls env k (some q) r).outcome = .done (some q') := by
  by_contra hne
  have hnot (q' : State n) : (lexer.calls env k (some q) r).outcome ≠ .done (some q') :=
    fun hq => hne ⟨q', hq⟩
  -- The loop made `k` times is at least as long as the chain that leads nowhere.
  obtain ⟨i, hi⟩ := Nat.exists_eq_add_of_le (Nat.le_mul_of_pos_left k hj)
  have hloop := (calls_mul_of_loop ho hr k).1
  rw [hi, calls_add_of_not_done hnot] at hloop
  exact hnot q hloop

/-- A chain that comes back to where it was never ends. -/
theorem ending_of_loop {j : Nat} (hj : 1 ≤ j)
    (ho : (lexer.calls env j (some q) r).outcome = .done (some q))
    (hr : (lexer.calls env j (some q) r).reader = r) (k : Nat) :
    (lexer.calls env k (some q) r).outcome.ending = none := by
  obtain ⟨q', hq⟩ := exists_done_of_loop hj ho hr k
  rw [hq]
  rfl

/-- A chain that comes back to where it was without a token has none at all. -/
theorem tokens_of_silent_loop {j : Nat} (hj : 1 ≤ j)
    (ho : (lexer.calls env j (some q) r).outcome = .done (some q))
    (hr : (lexer.calls env j (some q) r).reader = r)
    (ht : (lexer.calls env j (some q) r).tokens = []) (k : Nat) :
    (lexer.calls env k (some q) r).tokens = [] := by
  have hsilent (m : Nat) : (lexer.calls env (j * m) (some q) r).tokens = [] := by
    induction m with
    | zero => rfl
    | succ m ih =>
      have hloop := calls_mul_of_loop ho hr m
      rw [Nat.mul_succ, calls_add, Run.tokens_andThen_done hloop.1, ih, hloop.2]
      exact ht
  refine List.prefix_nil.1 ?_
  rw [← hsilent k]
  exact tokens_calls_mono (Nat.le_mul_of_pos_left k hj) (some q) r

/-! ## The stream of a scan -/

/-- The first `k` state calls of the scan of an input, with every token taken
    at once. -/
def unbroken (lexer : Lexer n) (settings : Settings) (input : ByteArray) (k : Nat) :
    Run (Option (State n)) :=
  lexer.calls { settings } k (some lexer.start) { input }

/-- The unbroken scan of the input has a token with index `i`, which is `t`. -/
def Emits (lexer : Lexer n) (settings : Settings) (input : ByteArray) (i : Nat) (t : Token) :
    Prop :=
  ∃ k, (lexer.unbroken settings input k).tokens[i]? = some t

/-- The unbroken scan of the input comes to an end, after the tokens `ts`: with
    a failure, or without. -/
def EndsWith (lexer : Lexer n) (settings : Settings) (input : ByteArray) (ts : List Token)
    (failure : Option Fault) : Prop :=
  ∃ k, (lexer.unbroken settings input k).tokens = ts ∧
    (lexer.unbroken settings input k).outcome.ending = some failure

/-- The unbroken scan of the input has the tokens `ts` and no others, and never
    comes to an end. -/
def FallsSilent (lexer : Lexer n) (settings : Settings) (input : ByteArray)
    (ts : List Token) : Prop :=
  ∃ j, ∀ k, (lexer.unbroken settings input (j + k)).tokens = ts ∧
    (lexer.unbroken settings input (j + k)).outcome.ending = none

/-- The unbroken scan of the input has the tokens `ts`, and then stays in one state
    call for ever. -/
def StaysInCall (lexer : Lexer n) (settings : Settings) (input : ByteArray)
    (ts : List Token) : Prop :=
  ∃ k, (lexer.unbroken settings input k).tokens = ts ∧
    (lexer.unbroken settings input k).outcome = .stuck

variable {settings : Settings} {input : ByteArray}

theorem tokens_unbroken_mono {j k : Nat} (h : j ≤ k) :
    (lexer.unbroken settings input j).tokens <+: (lexer.unbroken settings input k).tokens :=
  tokens_calls_mono h _ _

/-- A token of the first calls is one of all of them. -/
theorem getElem?_unbroken {j k i : Nat} {t : Token} (h : j ≤ k)
    (ht : (lexer.unbroken settings input j).tokens[i]? = some t) :
    (lexer.unbroken settings input k).tokens[i]? = some t := by
  obtain ⟨hi, hget⟩ := List.getElem?_eq_some_iff.1 ht
  rw [List.prefix_iff_getElem?.1 (tokens_unbroken_mono h) i hi, hget]

theorem unbroken_of_ending {j k : Nat} {failure : Option Fault}
    (h : (lexer.unbroken settings input j).outcome.ending = some failure) (hk : j ≤ k) :
    lexer.unbroken settings input k = lexer.unbroken settings input j := by
  obtain ⟨i, rfl⟩ := Nat.exists_eq_add_of_le hk
  exact calls_add_of_ending h i

theorem unbroken_of_halted {j k : Nat}
    (h : (lexer.unbroken settings input j).outcome = .done none) (hk : j ≤ k) :
    lexer.unbroken settings input k = lexer.unbroken settings input j := by
  have hending : (lexer.unbroken settings input j).outcome.ending = some none := by
    rw [h]
    rfl
  exact unbroken_of_ending hending hk

/-- A scan can be cut after any number of calls. -/
theorem unbroken_add (j k : Nat) : lexer.unbroken settings input (j + k) =
    (lexer.unbroken settings input j).andThen (lexer.calls { settings } k) :=
  calls_add j k _ _

/-- The scan is where its last call has led. -/
theorem outcome_unbroken_succ {k : Nat} {q : State n}
    (h : (lexer.unbroken settings input k).outcome = .done (some q)) :
    (lexer.unbroken settings input (k + 1)).outcome =
      (lexer.call { settings } q (lexer.unbroken settings input k).reader).outcome := by
  rw [unbroken_add, Run.outcome_andThen_done h, calls_succ]
  cases houtcome : (lexer.call { settings } q (lexer.unbroken settings input k).reader).outcome with
  | done next => rw [Run.outcome_andThen_done houtcome, calls_zero, Run.pure]
  | raised fault => simp [Run.andThen, houtcome]
  | stuck => simp [Run.andThen, houtcome]

/-- A scan has at most one token with a given index. -/
theorem Emits.unique {i : Nat} {t t' : Token} (h : lexer.Emits settings input i t)
    (h' : lexer.Emits settings input i t') : t = t' := by
  obtain ⟨j, hj⟩ := h
  obtain ⟨k, hk⟩ := h'
  have hj' := getElem?_unbroken (Nat.le_max_left j k) hj
  have hk' := getElem?_unbroken (Nat.le_max_right j k) hk
  exact Option.some.inj (hj'.symm.trans hk')

/-- The tokens of a scan that ends are all there are. -/
theorem EndsWith.emits_iff {ts : List Token} {failure : Option Fault}
    (h : lexer.EndsWith settings input ts failure) {i : Nat} {t : Token} :
    lexer.Emits settings input i t ↔ ts[i]? = some t := by
  obtain ⟨j, rfl, hend⟩ := h
  refine ⟨fun ⟨k, hk⟩ => ?_, fun hi => ⟨j, hi⟩⟩
  have hk' := getElem?_unbroken (Nat.le_max_right j k) hk
  rwa [unbroken_of_ending hend (Nat.le_max_left j k)] at hk'

/-- A scan has at most one end. -/
theorem EndsWith.unique {ts ts' : List Token} {failure failure' : Option Fault}
    (h : lexer.EndsWith settings input ts failure)
    (h' : lexer.EndsWith settings input ts' failure') : ts = ts' ∧ failure = failure' := by
  obtain ⟨j, rfl, hj⟩ := h
  obtain ⟨k, rfl, hk⟩ := h'
  have h₁ := unbroken_of_ending hj (Nat.le_max_left j k)
  have h₂ := unbroken_of_ending hk (Nat.le_max_right j k)
  rw [← h₁, ← h₂]
  refine ⟨rfl, Option.some.inj ?_⟩
  rw [← hj, ← hk, ← h₁, ← h₂]

/-- The tokens of a scan that falls silent are all there are. -/
theorem FallsSilent.emits_iff {ts : List Token} (h : lexer.FallsSilent settings input ts) {i : Nat}
    {t : Token} : lexer.Emits settings input i t ↔ ts[i]? = some t := by
  obtain ⟨j, hj⟩ := h
  refine ⟨fun ⟨k, hk⟩ => ?_, fun hi => ⟨j, by rwa [← (hj 0).1] at hi⟩⟩
  have hk' := getElem?_unbroken (Nat.le_add_left k j) hk
  rwa [(hj k).1] at hk'

/-- As many emitted tokens as a scan has that falls silent are those that it has. -/
theorem FallsSilent.eq_of_emits {ts ts' : List Token} (h : lexer.FallsSilent settings input ts)
    (hlength : ts'.length = ts.length)
    (hemits : ∀ i t, ts'[i]? = some t → lexer.Emits settings input i t) : ts' = ts := by
  refine List.ext_getElem hlength fun i hi' hi => ?_
  have hget := h.emits_iff.1 (hemits i _ (List.getElem?_eq_getElem hi'))
  rw [List.getElem?_eq_getElem hi] at hget
  exact (Option.some.inj hget).symm

/-- Nothing follows a call that the scan stays in. -/
theorem StaysInCall.fallsSilent {ts : List Token} (h : lexer.StaysInCall settings input ts) :
    lexer.FallsSilent settings input ts := by
  obtain ⟨j, htokens, hout⟩ := h
  refine ⟨j, fun k => ?_⟩
  rw [unbroken_add, Run.andThen_of_not_done (by simp [hout]), hout]
  exact ⟨htokens, rfl⟩

/-- A scan that falls silent has no end. -/
theorem FallsSilent.not_endsWith {ts ts' : List Token} {failure : Option Fault}
    (h : lexer.FallsSilent settings input ts) : ¬lexer.EndsWith settings input ts' failure := by
  rintro ⟨k, -, hk⟩
  obtain ⟨j, hj⟩ := h
  have hsilent := (hj k).2
  rw [unbroken_of_ending hk (Nat.le_add_left k j), hk] at hsilent
  simp at hsilent

/-! ## In the middle of a call -/

/-- Behind the tokens `past`, the unbroken scan of the input goes on with `run`,
    the rest of a call, and with the calls that follow it. -/
def Continues (lexer : Lexer n) (settings : Settings) (input : ByteArray) (past : List Token)
    (run : Run (Option (State n))) : Prop :=
  ∃ j, ∀ k,
    (lexer.unbroken settings input (j + k)).tokens =
        past ++ (run.andThen (lexer.calls { settings } k)).tokens ∧
      (lexer.unbroken settings input (j + k)).outcome =
        (run.andThen (lexer.calls { settings } k)).outcome

variable {past : List Token} {run run' : Run (Option (State n))}

theorem continues_start (lexer : Lexer n) (settings : Settings) (input : ByteArray) :
    lexer.Continues settings input [] (.pure (some lexer.start) { input }) := by
  refine ⟨0, fun k => ?_⟩
  rw [Nat.zero_add, Run.pure_andThen]
  exact ⟨rfl, rfl⟩

theorem Continues.congr (h : lexer.Continues settings input past run)
    (ht : run.tokens = run'.tokens) (hr : run.reader = run'.reader)
    (ho : run.outcome = run'.outcome) : lexer.Continues settings input past run' := by
  obtain ⟨j, hj⟩ := h
  refine ⟨j, fun k => ?_⟩
  obtain ⟨htokens, houtcome⟩ := Run.tokens_andThen_congr ht hr ho (lexer.calls { settings } k)
  rw [← htokens, ← houtcome]
  exact hj k

/-- At the end of a call, the next state is called. -/
theorem Continues.call (h : lexer.Continues settings input past (.pure (some q) r)) :
    lexer.Continues settings input past (lexer.call { settings } q r) := by
  obtain ⟨j, hj⟩ := h
  refine ⟨j + 1, fun k => ?_⟩
  have hk := hj (1 + k)
  rwa [Run.pure_andThen, ← Nat.add_assoc, Nat.add_comm 1 k, calls_succ] at hk

/-- A call of which nothing is to come but its end. -/
theorem Continues.done (h : lexer.Continues settings input past run) (ht : run.tokens = [])
    (ho : run.outcome = .done st) : lexer.Continues settings input past (.pure st run.reader) :=
  h.congr ht rfl ho

/-- A token that is offered has been taken. -/
theorem Continues.take {events : List Event} {t : Token}
    (h : lexer.Continues settings input past { run with events := .offer r t :: events }) :
    lexer.Continues settings input (past ++ [t]) { run with events } := by
  obtain ⟨j, hj⟩ := h
  refine ⟨j, fun k => ?_⟩
  obtain ⟨htokens, houtcome⟩ := hj k
  rw [htokens, houtcome]
  obtain ⟨_, r', outcome⟩ := run
  cases outcome with
  | done value => simp [Run.andThen, Run.tokens]
  | raised fault => simp [Run.andThen, Run.tokens]
  | stuck => simp [Run.andThen, Run.tokens]

/-- A token that is offered is the next one of the stream. -/
theorem Continues.emits {events : List Event} {t : Token}
    (h : lexer.Continues settings input past { run with events := .offer r t :: events }) :
    lexer.Emits settings input past.length t := by
  obtain ⟨j, hj⟩ := h.take
  refine ⟨j, ?_⟩
  have hz := (hj 0).1
  rw [Nat.add_zero] at hz
  rw [hz, List.append_assoc]
  simp

theorem Continues.endsWith {failure : Option Fault}
    (h : lexer.Continues settings input past run) (ht : run.tokens = [])
    (ho : run.outcome.ending = some failure) :
    lexer.EndsWith settings input past failure := by
  obtain ⟨j, hj⟩ := h
  obtain ⟨htokens, houtcome⟩ := hj 0
  obtain ⟨events, r', outcome⟩ := run
  refine ⟨j, ?_⟩
  rw [Nat.add_zero] at htokens houtcome
  rw [htokens, houtcome]
  cases outcome with
  | done next =>
    cases next with
    | none => exact ⟨by rw [Run.tokens_andThen_done rfl, ht]; simp, ho⟩
    | some q => simp [Outcome.ending] at ho
  | raised fault => exact ⟨by simpa [Run.andThen, Run.tokens] using ht, ho⟩
  | stuck => simp [Outcome.ending] at ho

/-- A call that is stuck is one that the scan stays in. -/
theorem Continues.staysInCall (h : lexer.Continues settings input past run)
    (ht : run.tokens = []) (ho : run.outcome = .stuck) :
    lexer.StaysInCall settings input past := by
  obtain ⟨j, hj⟩ := h
  obtain ⟨htokens, houtcome⟩ := hj 0
  rw [Run.andThen_of_not_done (by simp [ho])] at htokens houtcome
  exact ⟨j, by simpa [ht] using htokens, houtcome.trans ho⟩

/-- A scan that goes on with a chain of calls that comes back to where it was leaves every call. -/
theorem Continues.not_staysInCall_of_loop {j : Nat} {ts : List Token}
    (h : lexer.Continues settings input past (.pure (some q) r)) (hj : 1 ≤ j)
    (ho : (lexer.calls { settings } j (some q) r).outcome = .done (some q))
    (hr : (lexer.calls { settings } j (some q) r).reader = r) :
    ¬lexer.StaysInCall settings input ts := by
  rintro ⟨k, -, hstuck⟩
  obtain ⟨i, hi⟩ := h
  obtain ⟨q', hq⟩ := exists_done_of_loop hj ho hr k
  have hdone := (hi k).2
  rw [Run.pure_andThen, hq, Nat.add_comm, unbroken_add,
    Run.andThen_of_not_done (by simp [hstuck]), hstuck] at hdone
  simp at hdone

/-- Nothing follows a chain of calls that has come back to where it was without a token. -/
theorem Continues.fallsSilent_of_loop {j : Nat}
    (h : lexer.Continues settings input past (.pure (some q) r)) (hj : 1 ≤ j)
    (ho : (lexer.calls { settings } j (some q) r).outcome = .done (some q))
    (hr : (lexer.calls { settings } j (some q) r).reader = r)
    (ht : (lexer.calls { settings } j (some q) r).tokens = []) :
    lexer.FallsSilent settings input past := by
  obtain ⟨i, hi⟩ := h
  refine ⟨i, fun k => ?_⟩
  obtain ⟨htokens, houtcome⟩ := hi k
  rw [htokens, houtcome, Run.pure_andThen, tokens_of_silent_loop hj ho hr ht,
    ending_of_loop hj ho hr]
  exact ⟨List.append_nil _, rfl⟩

end Lexer

end StateLexer
