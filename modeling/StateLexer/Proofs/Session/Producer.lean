import StateLexer.Proofs.Run.Bound
import StateLexer.Session

/-!
# The producer follows the unbroken scan

A session that has not been cancelled *follows* the unbroken scan of its input
(`Session.Follows`): the tokens taken so far are the first of that scan, and its
producer rests where the unbroken scan goes on (`Lexer.Rest`). Either it waits
with the next token, or it will never have another one, or the scan is over.

* `follows_advance`: a call that goes on comes to a rest that follows, or to its
  end without another token;
* `follows_drive`: so do state calls, one after the other. The trail of the calls
  since the last token leads to the present one without a token (`Leads`), hence
  a call that is in the trail already is in a silent loop; and the trail cannot
  be longer than there are different calls, hence the fuel suffices;
* `follows_launch`, `follows_resume`: the two moves of a producer from one rest to
  the next.
-/

namespace StateLexer

variable {n : Nat} {lexer : Lexer n} {settings : Settings} {input : ByteArray}

/-- Where the producer of a scan rests, behind the tokens `past`. -/
inductive Lexer.Rest (lexer : Lexer n) (settings : Settings) (input : ByteArray) (task : Task n)
    (channel : Channel Token) (reader : Reader) (past : List Token) (failure : Option Fault) : Prop
  /-- It waits with a token, in the middle of a call. -/
  | offering {t : Token} {rest : Run (Option (State n))}
      (task_eq : task = .offering t rest) (slot_eq : channel.slot = some t)
      (closed_eq : channel.closed = false) (failure_eq : failure = none)
      (on_input : ({ rest with events := .offer reader t :: rest.events } :
        Run (Option (State n))).On input)
      (continues : lexer.Continues settings input past
        { rest with events := .offer reader t :: rest.events })
  /-- It will never have a token again, and never finish. -/
  | silent (task_eq : task = .looping ∧ ¬lexer.StaysInCall settings input past ∨
        task = .stuck ∧ lexer.StaysInCall settings input past)
      (slot_eq : channel.slot = none) (closed_eq : channel.closed = false)
      (failure_eq : failure = none)
      (silent : lexer.FallsSilent settings input past)
  | finished (task_eq : task = .finished) (slot_eq : channel.slot = none)
      (closed_eq : channel.closed = true) (ends : lexer.EndsWith settings input past failure)

namespace Session

/-- The session is at rest in the scan of the input, and has not been cancelled. -/
structure Follows (lexer : Lexer n) (settings : Settings) (input : ByteArray) (s : Session n) :
    Prop where
  lexer_eq : s.lexer = lexer
  settings_eq : s.settings = settings
  input_eq : s.reader.input = input
  cancelled_eq : s.channel.cancelled = false
  rest : lexer.Rest settings input s.task s.channel s.reader s.taken.toList s.failure

/-- The producer of the session calls states, on its way to the next rest. -/
structure Active (lexer : Lexer n) (settings : Settings) (input : ByteArray) (s : Session n) :
    Prop where
  lexer_eq : s.lexer = lexer
  settings_eq : s.settings = settings
  on_reader : s.reader.On input
  slot_eq : s.channel.slot = none
  closed_eq : s.channel.closed = false
  cancelled_eq : s.channel.cancelled = false
  failure_eq : s.failure = none

variable {s : Session n}

theorem Active.note (h : s.Active lexer settings input) (notice : Notice) :
    (s.note notice).Active lexer settings input :=
  ⟨h.lexer_eq, h.settings_eq, h.on_reader, h.slot_eq, h.closed_eq, h.cancelled_eq, h.failure_eq⟩

/-! ## The end of a scan -/

/-- A scan that is over rests, with its failure. -/
theorem follows_finish {failure : Option Fault} (h : s.Active lexer settings input)
    (hend : lexer.EndsWith settings input s.taken.toList failure) :
    ({ s with failure } : Session n).finish.Follows lexer settings input where
  lexer_eq := h.lexer_eq
  settings_eq := h.settings_eq
  input_eq := h.on_reader.input_eq
  cancelled_eq := h.cancelled_eq
  rest := .finished rfl h.slot_eq rfl hend

theorem follows_haltWithin {fault : Fault} (h : s.Active lexer settings input)
    (hend : lexer.EndsWith settings input s.taken.toList fault.failure) :
    (s.haltWithin fault).Follows lexer settings input := by
  rw [haltWithin]
  rw [Fault.failure] at hend
  split
  · next hcancel =>
    rw [if_pos hcancel, ← h.failure_eq] at hend
    exact follows_finish (h.note _) hend
  · next hcancel =>
    rw [if_neg hcancel] at hend
    exact follows_finish (s := s.note _) (h.note _) hend

theorem taken_haltWithin (s : Session n) (fault : Fault) :
    (s.haltWithin fault).taken = s.taken :=
  congrArg (·.2.2.1) (untouched_haltWithin s fault)

/-! ## One call -/

/-- A call goes on to a rest, or to its end, and then no token was to come. -/
theorem follows_advance (call : Run (Option (State n))) (events : List Event)
    (h : s.Active lexer settings input)
    (hon : ({ call with events } : Run (Option (State n))).On input)
    (hcont : lexer.Continues settings input s.taken.toList { call with events }) :
    ((advance call events s).1 = false ∧
        (advance call events s).2.Follows lexer settings input ∧
        (advance call events s).2.taken = s.taken) ∨
      ((advance call events s).1 = true ∧
        (advance call events s).2.Active lexer settings input ∧
        (advance call events s).2.taken = s.taken ∧
        (advance call events s).2.reader = call.reader ∧
        call.outcome = .done (advance call events s).2.state ∧
        ({ call with events } : Run (Option (State n))).tokens = []) := by
  induction events generalizing s with
  | nil =>
    -- All that the call has done is over, so its outcome decides.
    have h' : ({ s with reader := call.reader } : Session n).Active lexer settings input :=
      ⟨h.lexer_eq, h.settings_eq, hon.on_reader, h.slot_eq, h.closed_eq, h.cancelled_eq,
        h.failure_eq⟩
    rw [advance]
    split
    · next st hout =>
      refine .inr ⟨rfl, ?_, rfl, rfl, hout, rfl⟩
      exact ⟨h.lexer_eq, h.settings_eq, hon.on_reader, h.slot_eq, h.closed_eq, h.cancelled_eq,
        h.failure_eq⟩
    · next fault hout =>
      refine .inl ⟨rfl, follows_haltWithin h' ?_, taken_haltWithin _ fault⟩
      exact hcont.endsWith rfl (by simp [hout, Outcome.ending])
    · next hout =>
      refine .inl ⟨rfl,
        ⟨h.lexer_eq, h.settings_eq, hon.on_reader.input_eq, h.cancelled_eq, ?_⟩, rfl⟩
      have hstays := hcont.staysInCall rfl hout
      exact .silent (.inr ⟨rfl, hstays⟩) h.slot_eq h.closed_eq h.failure_eq hstays.fallsSilent
  | cons event events ih =>
    cases event with
    | note notice =>
      -- A notice is no token, so the same is to come behind it.
      refine ih (h.note notice) ⟨hon.on_reader, fun r t hmem => ?_⟩ (hcont.congr rfl rfl rfl)
      exact hon.on_offer r t (List.mem_cons_of_mem _ hmem)
    | offer r t =>
      -- The producer waits with the token, and the rest of the call is still to come.
      refine .inl ⟨rfl, ⟨h.lexer_eq, h.settings_eq, ?_, h.cancelled_eq, ?_⟩, rfl⟩
      · exact (hon.on_offer r t List.mem_cons_self).1.input_eq
      · exact .offering rfl rfl h.closed_eq h.failure_eq hon hcont

/-! ## State calls -/

/-- From each call in the trail, the chain of calls has come to the state and
    the reader without a token. -/
def Leads (lexer : Lexer n) (settings : Settings) (input : ByteArray)
    (trail : List (State n × Place)) (st : Option (State n)) (r : Reader) : Prop :=
  ∀ x ∈ trail, ∃ j ≥ 1,
    (lexer.calls { settings } j (some x.1) { toPlace := x.2, input }).tokens = [] ∧
      (lexer.calls { settings } j (some x.1) { toPlace := x.2, input }).outcome = .done st ∧
      (lexer.calls { settings } j (some x.1) { toPlace := x.2, input }).reader = r

variable {trail : List (State n × Place)} {q : State n} {r : Reader}

/-- A call without a token leads on. -/
theorem Leads.cons {st : Option (State n)} (h : Leads lexer settings input trail (some q) r)
    (hon : r.On input) (ht : (lexer.call { settings } q r).tokens = [])
    (ho : (lexer.call { settings } q r).outcome = .done st) :
    Leads lexer settings input ((q, r.toPlace) :: trail) st
      (lexer.call { settings } q r).reader := by
  have hone : (lexer.calls { settings } 1 (some q) r).tokens = [] ∧
      (lexer.calls { settings } 1 (some q) r).outcome = .done st ∧
      (lexer.calls { settings } 1 (some q) r).reader = (lexer.call { settings } q r).reader := by
    rw [Lexer.calls_succ, Run.tokens_andThen_done ho, Run.outcome_andThen_done ho,
      Run.reader_andThen_done ho, ht]
    simp [Run.pure, Run.tokens]
  intro x hx
  rcases List.mem_cons.1 hx with rfl | hx
  · refine ⟨1, Nat.le_refl 1, ?_⟩
    rwa [hon.mk_toPlace]
  · obtain ⟨j, -, htokens, hout, hreader⟩ := h x hx
    refine ⟨j + 1, Nat.le_add_left 1 j, ?_⟩
    rw [Lexer.calls_add, Run.tokens_andThen_done hout, Run.outcome_andThen_done hout,
      Run.reader_andThen_done hout, htokens, hreader]
    exact hone

/-- State calls, one after the other, come to a rest. -/
theorem follows_drive {fuel : Nat} (h : s.Active lexer settings input)
    (hcont : lexer.Continues settings input s.taken.toList (.pure s.state s.reader))
    (hleads : Leads lexer settings input trail s.state s.reader) (hnodup : trail.Nodup)
    (hplaces : ∀ x ∈ trail, x.2 ∈ Place.upTo input.size)
    (hfuel : trail.length + fuel = callCount n input.size + 1) :
    (drive trail fuel s).Follows lexer settings input ∧ (drive trail fuel s).taken = s.taken := by
  induction fuel generalizing trail s with
  | zero =>
    -- The trail would be longer than there are different calls.
    have hle := length_le_of_nodup hnodup hplaces
    omega
  | succ fuel ih =>
    rw [drive]
    split
    · next hstate =>
      refine ⟨follows_finish h ?_, rfl⟩
      rw [hstate] at hcont
      exact hcont.endsWith rfl (by simp [h.failure_eq, Outcome.ending, Run.pure])
    · next q hstate =>
      rw [hstate] at hcont hleads
      rw [if_neg (by simp [h.cancelled_eq])]
      split
      · next hmem =>
        -- The call is in its own trail: it is in a loop.
        obtain ⟨j, hj, htokens, hout, hreader⟩ := hleads _ hmem
        rw [h.on_reader.mk_toPlace] at htokens hout hreader
        refine ⟨⟨h.lexer_eq, h.settings_eq, h.on_reader.input_eq, h.cancelled_eq, ?_⟩, rfl⟩
        exact .silent (.inl ⟨rfl, hcont.not_staysInCall_of_loop hj hout hreader⟩) h.slot_eq
          h.closed_eq h.failure_eq (hcont.fallsSilent_of_loop hj hout hreader htokens)
      · next hmem =>
        have hon := Lexer.on_call lexer { settings } q h.on_reader
        have hturn := follows_advance (lexer.call { settings } q s.reader)
          (lexer.call { settings } q s.reader).events h hon hcont.call
        simp only [h.lexer_eq, h.settings_eq]
        rcases hturn with ⟨hturn, hfollows, htaken⟩ |
          ⟨hturn, hactive, htaken, hreader, hout, htokens⟩
        · rw [if_neg (by simp [hturn])]
          exact ⟨hfollows, htaken⟩
        · rw [if_pos hturn, ← htaken]
          refine ih hactive ?_ ?_ (List.nodup_cons.2 ⟨hmem, hnodup⟩) ?_ ?_
          · rw [hreader, htaken]
            exact hcont.call.done htokens hout
          · rw [hreader]
            exact hleads.cons h.on_reader htokens hout
          · rintro x (_ | ⟨_, hx⟩)
            · exact h.on_reader.mem_upTo
            · exact hplaces x hx
          · rw [List.length_cons]
            omega

theorem follows_proceed (h : s.Active lexer settings input)
    (hcont : lexer.Continues settings input s.taken.toList (.pure s.state s.reader)) :
    s.proceed.Follows lexer settings input ∧ s.proceed.taken = s.taken := by
  refine follows_drive h hcont (fun x hx => absurd hx List.not_mem_nil) List.nodup_nil
    (fun x hx => absurd hx List.not_mem_nil) ?_
  rw [callBound, h.on_reader.input_eq, List.length_nil, Nat.zero_add]

/-! ## From rest to rest -/

/-- A scan that starts comes to its first rest. -/
theorem follows_launch (lexer : Lexer n) (settings : Settings) (background : Bool)
    (input : ByteArray) :
    ((new lexer settings).launch background input).Follows lexer settings input ∧
      ((new lexer settings).launch background input).taken = #[] :=
  follows_proceed ⟨rfl, rfl, Reader.on_mk input, rfl, rfl, rfl, rfl⟩
    (Lexer.continues_start lexer settings input)

/-- A producer whose token has been taken comes to its next rest. -/
theorem follows_resume {t : Token} {rest : Run (Option (State n))}
    (h : s.Active lexer settings input) (htask : s.task = .offering t rest) (hon : rest.On input)
    (hcont : lexer.Continues settings input s.taken.toList rest) :
    s.resume.Follows lexer settings input ∧ s.resume.taken = s.taken := by
  rw [resume, htask]
  simp only [goOn]
  have h' : ({ s with lastToken := some t } : Session n).Active lexer settings input :=
    ⟨h.lexer_eq, h.settings_eq, h.on_reader, h.slot_eq, h.closed_eq, h.cancelled_eq, h.failure_eq⟩
  rcases follows_advance rest rest.events h' hon hcont with ⟨hturn, hfollows, htaken⟩ |
    ⟨hturn, hactive, htaken, hreader, hout, htokens⟩
  · simp only [hturn]
    exact ⟨hfollows, htaken⟩
  · simp only [hturn, if_true]
    obtain ⟨hfollows, htaken'⟩ := follows_proceed hactive (by
      rw [hreader, htaken]
      exact hcont.done htokens hout)
    exact ⟨hfollows, htaken'.trans htaken⟩

end Session

end StateLexer
