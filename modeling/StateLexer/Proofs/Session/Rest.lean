import StateLexer.Proofs.Session.Misuse

/-!
# Sessions at rest

Whatever has been asked of a session that has been started, and whether it has been
cancelled or not, its reader is on the input, its channel has handed on as many tokens
as have been taken, and its producer stands in one of three ways (`Session.Standing`):
it waits with a token, in a call of the current state; or it is busy for ever; or the
scan is over, and no state is left. In the first and the last case it is at rest.

* `stands_drive`, `stands_resume`: the producer, from one rest to the next;
* `stands_receive`, `stands_cancel`, `kept_stands`: the consumer;
* `stands_after`: whatever has been asked of a session;
* `session_rests`: what this means for a session between any two requests.
-/

namespace StateLexer

variable {n : Nat} {lexer : Lexer n} {settings : Settings} {input : ByteArray}

/-- The channel has handed on the tokens that have been taken, and the producer remembers the
    last of them. -/
structure Channel.HandedOn (c : Channel Token) (lastToken : Option Token)
    (taken : Array Token) : Prop where
  sent_eq : c.sent = taken.size
  received_eq : c.received = taken.size
  lastToken_eq : lastToken = taken.back?

/-- The tokens that have been taken have been handed on. -/
abbrev Session.HandedOn (s : Session n) : Prop :=
  s.channel.HandedOn s.lastToken s.taken

/-- How the producer of a scan of the input stands. -/
inductive Lexer.Standing (lexer : Lexer n) (settings : Settings) (input : ByteArray)
    (state : Option (State n)) (task : Task n) (channel : Channel Token) (reader : Reader)
    (failure : Option Fault) : Prop
  /-- It waits with a token, the window of the reader, in a call of the current state. -/
  | waiting {q : State n} {r : Reader} {before : List Event} {rest : Run (Option (State n))}
      {kind : Kind} (on_call : r.On input) (state_eq : state = some q)
      (task_eq : task = .offering (reader.token kind) rest)
      (slot_eq : channel.slot = some (reader.token kind))
      (closed_eq : channel.closed = false) (cancelled_eq : channel.cancelled = false)
      (failure_eq : failure = none)
      (call_eq : lexer.call { settings } q r =
        { rest with events := before ++ .offer reader (reader.token kind) :: rest.events })
  /-- It will never have a token again, and never finish unless it is cancelled. -/
  | busy (task_eq : task = .looping ∨ task = .stuck) (slot_eq : channel.slot = none)
  | finished (task_eq : task = .finished) (slot_eq : channel.slot = none)
      (closed_eq : channel.closed = true) (state_eq : state = none)

namespace Session

/-- The session scans the input, and its producer stands. -/
structure Stands (lexer : Lexer n) (settings : Settings) (input : ByteArray) (s : Session n) :
    Prop where
  lexer_eq : s.lexer = lexer
  settings_eq : s.settings = settings
  on_reader : s.reader.On input
  handed_on : s.HandedOn
  standing : lexer.Standing settings input s.state s.task s.channel s.reader s.failure

variable {s : Session n} {q : State n} {r : Reader}

/-! ## The producer -/

theorem stands_finish (h : s.Active lexer settings input) (hcount : s.HandedOn)
    (failure : Option Fault) :
    ({ s with failure } : Session n).finish.Stands lexer settings input where
  lexer_eq := h.lexer_eq
  settings_eq := h.settings_eq
  on_reader := h.on_reader
  handed_on := ⟨hcount.sent_eq, hcount.received_eq, hcount.lastToken_eq⟩
  standing := .finished rfl h.slot_eq rfl rfl

theorem stands_haltWithin (h : s.Active lexer settings input) (hcount : s.HandedOn)
    (fault : Fault) : (s.haltWithin fault).Stands lexer settings input := by
  rw [haltWithin]
  split
  · exact stands_finish (h.note _) hcount _
  · exact stands_finish (s := s.note _) (h.note _) hcount _

/-- A call goes on to a rest, or to its end. -/
theorem stands_advance (call : Run (Option (State n))) (before events : List Event)
    (h : s.Active lexer settings input) (hcount : s.HandedOn) (hr : r.On input)
    (hstate : s.state = some q)
    (hcall : lexer.call { settings } q r = { call with events := before ++ events }) :
    ((advance call events s).1 = false ∧ (advance call events s).2.Stands lexer settings input) ∨
      ((advance call events s).1 = true ∧ (advance call events s).2.Active lexer settings input ∧
        (advance call events s).2.HandedOn) := by
  have hon := Lexer.on_call lexer { settings } q hr
  rw [hcall] at hon
  induction events generalizing s before with
  | nil =>
    -- All that the call has done is over, so its outcome decides.
    have h' : ({ s with reader := call.reader } : Session n).Active lexer settings input :=
      ⟨h.lexer_eq, h.settings_eq, hon.on_reader, h.slot_eq, h.closed_eq, h.cancelled_eq,
        h.failure_eq⟩
    rw [advance]
    split
    · refine .inr ⟨rfl, ?_, hcount⟩
      exact ⟨h.lexer_eq, h.settings_eq, hon.on_reader, h.slot_eq, h.closed_eq, h.cancelled_eq,
        h.failure_eq⟩
    · next fault _ => exact .inl ⟨rfl, stands_haltWithin h' hcount fault⟩
    · refine .inl ⟨rfl, h.lexer_eq, h.settings_eq, hon.on_reader, hcount, ?_⟩
      exact .busy (.inr rfl) h.slot_eq
  | cons event events ih =>
    cases event with
    | note notice =>
      rw [List.append_cons] at hcall hon
      exact ih _ (h.note notice) hcount hstate hcall hon
    | offer r' t =>
      -- The producer waits with the token, in the middle of the call.
      obtain ⟨hreader, kind, rfl⟩ := hon.on_offer r' t (by simp)
      refine .inl ⟨rfl, h.lexer_eq, h.settings_eq, hreader,
        ⟨?_, hcount.received_eq, hcount.lastToken_eq⟩, ?_⟩
      · simp [advance, Channel.offer, h.slot_eq, hcount.sent_eq]
      · exact .waiting hr hstate rfl rfl h.closed_eq h.cancelled_eq h.failure_eq hcall

/-- State calls, one after the other, come to a rest, or go on for ever. -/
theorem stands_drive (trail : List (State n × Place)) (fuel : Nat)
    (h : s.Active lexer settings input) (hcount : s.HandedOn) :
    (drive trail fuel s).Stands lexer settings input := by
  have hbusy (task : Task n) (htask : task = .looping ∨ task = .stuck) :
      ({ s with task } : Session n).Stands lexer settings input :=
    ⟨h.lexer_eq, h.settings_eq, h.on_reader, hcount, .busy htask h.slot_eq⟩
  induction fuel generalizing trail s with
  | zero => exact hbusy .looping (.inl rfl)
  | succ fuel ih =>
    rw [drive]
    split
    · exact stands_finish h hcount s.failure
    · next q hstate =>
      rw [if_neg (by simp [h.cancelled_eq])]
      split
      · exact hbusy .looping (.inl rfl)
      · simp only [h.lexer_eq, h.settings_eq]
        rcases stands_advance (lexer.call { settings } q s.reader) []
            (lexer.call { settings } q s.reader).events h hcount h.on_reader hstate rfl with
          ⟨hturn, hstands⟩ | ⟨hturn, hactive, hcount'⟩
        · rwa [if_neg (by simp [hturn])]
        · rw [if_pos hturn]
          refine ih _ hactive hcount' fun task htask => ?_
          exact ⟨hactive.lexer_eq, hactive.settings_eq, hactive.on_reader, hcount',
            .busy htask hactive.slot_eq⟩

/-- A producer whose token has been taken comes to its next rest, or goes on for ever. -/
theorem stands_resume (before : List Event) {t : Token} {rest : Run (Option (State n))}
    (h : s.Active lexer settings input)
    (hcount : ({ s with lastToken := some t } : Session n).HandedOn) (hr : r.On input)
    (hstate : s.state = some q) (htask : s.task = .offering t rest)
    (hcall : lexer.call { settings } q r = { rest with events := before ++ rest.events }) :
    s.resume.Stands lexer settings input := by
  rw [resume, htask]
  simp only [goOn]
  have h' : ({ s with lastToken := some t } : Session n).Active lexer settings input :=
    ⟨h.lexer_eq, h.settings_eq, h.on_reader, h.slot_eq, h.closed_eq, h.cancelled_eq, h.failure_eq⟩
  rcases stands_advance rest before rest.events h' hcount hr hstate hcall with
    ⟨hturn, hstands⟩ | ⟨hturn, hactive, hcount'⟩
  · simp only [hturn]
    exact hstands
  · simp only [hturn, if_true]
    exact stands_drive _ _ hactive hcount'

/-! ## The consumer -/

theorem stands_receive (h : s.Stands lexer settings input) :
    s.receive.2.Stands lexer settings input := by
  rw [receive]
  cases h.standing with
  | @waiting q r before rest kind on_call state_eq task_eq slot_eq closed_eq cancelled_eq failure_eq
      call_eq =>
    have htake : s.channel.take = { s.channel with
        slot := none, sent := s.channel.sent + 1, received := s.channel.received + 1 } := by
      simp [Channel.take, slot_eq]
    simp only [slot_eq]
    refine stands_resume (before ++ [.offer s.reader (s.reader.token kind)])
      ⟨h.lexer_eq, h.settings_eq, h.on_reader, by rw [htake], by rw [htake]; exact closed_eq,
        by rw [htake]; exact cancelled_eq, failure_eq⟩ ?_ on_call state_eq task_eq ?_
    · constructor
      · simp [htake, h.handed_on.sent_eq]
      · simp [htake, h.handed_on.received_eq]
      · simp
    · simpa using call_eq
  | busy task_eq slot_eq =>
    simp only [slot_eq]
    exact h
  | finished task_eq slot_eq closed_eq state_eq =>
    simp only [slot_eq]
    exact h

/-- Looking at a token changes nothing but the place that is remembered. -/
theorem Stands.look (h : s.Stands lexer settings input) (pos : Int) :
    ({ s with lastPos := pos } : Session n).Stands lexer settings input :=
  ⟨h.lexer_eq, h.settings_eq, h.on_reader, h.handed_on, h.standing⟩

/-- A notice in the journal changes nothing else. -/
theorem Stands.write (h : s.Stands lexer settings input) (side : Side) (notice : Notice) :
    (s.write side notice).Stands lexer settings input :=
  ⟨h.lexer_eq, h.settings_eq, h.on_reader, h.handed_on, h.standing⟩

/-- A producer that is cancelled has finished, unless it stays in one call for ever. -/
theorem stands_cancel (h : s.Stands lexer settings input) :
    s.cancel.Stands lexer settings input := by
  have hcount : ({ s with channel := s.channel.cancel } : Session n).HandedOn :=
    ⟨h.handed_on.sent_eq, h.handed_on.received_eq, h.handed_on.lastToken_eq⟩
  cases h.standing with
  | waiting on_call state_eq task_eq =>
    rw [cancel_of_offering task_eq]
    exact ⟨h.lexer_eq, h.settings_eq, h.on_reader,
      ⟨hcount.sent_eq, hcount.received_eq, hcount.lastToken_eq⟩, .finished rfl rfl rfl rfl⟩
  | busy task_eq slot_eq =>
    rcases task_eq with task_eq | task_eq
    · simp only [cancel, task_eq]
      exact ⟨h.lexer_eq, h.settings_eq, h.on_reader,
        ⟨hcount.sent_eq, hcount.received_eq, hcount.lastToken_eq⟩, .finished rfl rfl rfl rfl⟩
    · simp only [cancel, task_eq]
      exact ⟨h.lexer_eq, h.settings_eq, h.on_reader, hcount, .busy (.inr rfl) rfl⟩
  | finished task_eq slot_eq closed_eq state_eq =>
    simp only [cancel, task_eq]
    exact ⟨h.lexer_eq, h.settings_eq, h.on_reader, hcount, .finished rfl rfl closed_eq state_eq⟩

theorem Stands.isStarted (h : s.Stands lexer settings input) : s.isStarted = true := by
  rw [Session.isStarted]
  cases h.standing with
  | waiting on_call state_eq task_eq => rw [task_eq]
  | busy task_eq => rcases task_eq with task_eq | task_eq <;> rw [task_eq]
  | finished task_eq => rw [task_eq]

theorem kept_stands (lexer : Lexer n) (settings : Settings) (input : ByteArray) :
    Kept (Stands lexer settings input) where
  isStarted _ h := h.isStarted
  receive _ h := stands_receive h
  look _ pos h := h.look pos
  write _ notice h := h.write _ notice

/-! ## The beginning -/

/-- A scan that begins comes to its first rest, at once if it has been cancelled. -/
theorem stands_launch (lexer : Lexer n) (settings : Settings) (cancelled background : Bool)
    (input : ByteArray) :
    ((idle lexer settings cancelled).launch background input).Stands lexer settings input := by
  cases cancelled with
  | true => exact ⟨rfl, rfl, Reader.on_mk input, ⟨rfl, rfl, rfl⟩, .finished rfl rfl rfl rfl⟩
  | false =>
    exact stands_drive _ _ ⟨rfl, rfl, Reader.on_mk input, rfl, rfl, rfl, rfl⟩ ⟨rfl, rfl, rfl⟩

theorem stands_opening {opening : Request n} {cancelled : Bool}
    (h : opening.source? = some input) :
    ((idle lexer settings cancelled).perform opening).2.Stands lexer settings input := by
  cases opening with
  | start input' =>
    obtain rfl := Option.some.inj h
    exact stands_launch lexer settings cancelled true input'
  | run input' =>
    obtain rfl := Option.some.inj h
    exact (kept_stands lexer settings input').collect false (fun _ => false)
      ((idle lexer settings cancelled).launch false input').tokenBound #[]
      (stands_launch lexer settings cancelled false input')
  | _ => simp [Request.source?] at h

/-- Whatever has been asked of a session, it stands in the scan of the first input that
    it has been asked to scan. -/
theorem stands_after (lexer : Lexer n) (settings : Settings) {requests : List (Request n)}
    (h : requests.findSome? Request.source? = some input) :
    (after lexer settings requests).Stands lexer settings input := by
  obtain ⟨before, opening, behind, -, hopening, hsession⟩ := exists_opening lexer settings h
  rw [hsession]
  refine performAll_induction behind (fun request _ s hs => ?_) (stands_opening hopening)
  exact (kept_stands lexer settings input).perform request (fun _ _ => stands_cancel) hs

/-- Whatever has been asked of a session, it is idle, or it stands in a scan. -/
theorem idle_or_stands (lexer : Lexer n) (settings : Settings) (requests : List (Request n)) :
    after lexer settings requests = idle lexer settings (requests.any Request.cancels) ∨
      ∃ input, (after lexer settings requests).Stands lexer settings input := by
  cases hsource : requests.findSome? Request.source? with
  | none =>
    have hidle :=
      performAll_idle lexer settings requests false (List.findSome?_eq_none_iff.1 hsource)
    rw [Bool.false_or] at hidle
    exact .inl hidle
  | some input => exact .inr ⟨input, stands_after lexer settings hsource⟩

end Session

/-! ## All requests -/

namespace Session

/-- The producer is at rest: it waits with a token, or it has finished. -/
def isAtRest (s : Session n) : Bool :=
  match s.task with
  | .offering _ _ => true
  | .finished => true
  | _ => false

/-- A producer at rest that is still running waits. -/
theorem exists_offering {s : Session n} (hrest : s.isAtRest = true)
    (hrunning : s.isRunning = true) : ∃ t rest, s.task = .offering t rest := by
  unfold isAtRest at hrest
  split at hrest
  · exact ⟨_, _, ‹_›⟩
  · next htask => simp [isRunning, htask] at hrunning
  · simp at hrest

/-- The producer waits with the token, which is the window of the reader, in the middle of
    a call of the current state, and it is the next token that the consumer takes. -/
structure Waits (s : Session n) (t : Token) : Prop where
  closed_eq : s.channel.closed = false
  cancelled_eq : s.channel.cancelled = false
  emitting : ∃ q r before rest, s.state = some q ∧ s.task = .offering t rest ∧
    s.lexer.call { settings := s.settings } q r =
      { rest with events := before ++ .offer s.reader t :: rest.events }
  pos_eq : t.pos = s.reader.start
  text_eq : t.text = s.reader.pending
  receive_eq : s.receive.1 = .token t
  next_eq : ∀ limit, (s.perform (.next limit)).1 = .token t

/-- The scan is over, and no state is left. -/
structure IsOver (s : Session n) : Prop where
  closed_eq : s.channel.closed = true
  state_eq : s.state = none
  isRunning_eq : s.isRunning = false

/-- What holds of a session between two requests once it has been asked to scan the input:
    the window is on the input, the counters agree, and if the producer is at rest, then
    either it waits with a token, and nobody has cancelled it, or the scan is over. -/
structure Rests (input : ByteArray) (s : Session n) : Prop where
  isStarted_eq : s.isStarted = true
  input_eq : s.reader.input = input
  start_le_pos : s.reader.start ≤ s.reader.pos
  pos_le_size : s.reader.pos ≤ input.size
  sent_eq : s.channel.sent = s.taken.size
  received_eq : s.channel.received = s.taken.size
  lastToken_eq : s.lastToken = s.taken.back?
  waits_or_isOver : s.isAtRest = true →
    (∃ t, s.Waits t) ∧ ¬s.IsOver ∨ s.IsOver ∧ ¬∃ t, s.Waits t
  isOver_of_cancelled : s.isAtRest = true → s.channel.cancelled = true → s.IsOver

variable {s : Session n}

theorem IsOver.not_waits (h : s.IsOver) : ¬∃ t, s.Waits t := by
  rintro ⟨t, hwaits⟩
  simpa [h.closed_eq] using hwaits.closed_eq

/-- A session whose producer stands is between two requests. -/
theorem Stands.rests (h : s.Stands lexer settings input) : s.Rests input where
  isStarted_eq := h.isStarted
  input_eq := h.on_reader.input_eq
  start_le_pos := h.on_reader.start_le_pos
  pos_le_size := h.on_reader.pos_le_size
  sent_eq := h.handed_on.sent_eq
  received_eq := h.handed_on.received_eq
  lastToken_eq := h.handed_on.lastToken_eq
  waits_or_isOver hrest := by
    cases h.standing with
    | @waiting q r before rest kind on_call state_eq task_eq slot_eq closed_eq cancelled_eq
        failure_eq call_eq =>
      have hreceive : s.receive.1 = .token (s.reader.token kind) := by simp [receive, slot_eq]
      have hwaits : s.Waits (s.reader.token kind) := by
        refine ⟨closed_eq, cancelled_eq, ⟨q, r, before, rest, state_eq, task_eq, ?_⟩, rfl, rfl,
          hreceive, fun limit => ?_⟩
        · rw [h.lexer_eq, h.settings_eq]
          exact call_eq
        · rw [perform, next, if_neg (by simp [h.isStarted])]
          generalize s.receive = received at hreceive ⊢
          obtain ⟨receipt, s'⟩ := received
          obtain rfl : receipt = _ := hreceive
          rfl
      exact .inl ⟨⟨_, hwaits⟩, fun hover => hover.not_waits ⟨_, hwaits⟩⟩
    | busy task_eq => rcases task_eq with task_eq | task_eq <;> simp [isAtRest, task_eq] at hrest
    | finished task_eq slot_eq closed_eq state_eq =>
      have hover : s.IsOver := ⟨closed_eq, state_eq, by simp [isRunning, task_eq]⟩
      exact .inr ⟨hover, hover.not_waits⟩
  isOver_of_cancelled hrest hcancelled := by
    cases h.standing with
    | waiting _ _ _ _ _ cancelled_eq => simp [cancelled_eq] at hcancelled
    | busy task_eq => rcases task_eq with task_eq | task_eq <;> simp [isAtRest, task_eq] at hrest
    | finished task_eq slot_eq closed_eq state_eq =>
      exact ⟨closed_eq, state_eq, by simp [isRunning, task_eq]⟩

end Session

/-- Whatever has been asked of a new session, and an input with it, it rests; and a
    request is told that it is out of place exactly if it is, and then changes nothing. -/
theorem session_rests (lexer : Lexer n) (settings : Settings) (requests : List (Request n)) :
    (∀ input, requests.findSome? Request.source? = some input →
      (Session.after lexer settings requests).Rests input) ∧
      ∀ request,
        (((Session.after lexer settings requests).perform request).1.isMisuse =
            request.isMisplaced (Session.after lexer settings requests)) ∧
          (((Session.after lexer settings requests).perform request).1.isMisuse = true →
            ((Session.after lexer settings requests).perform request).2 =
              Session.after lexer settings requests) := by
  generalize hs : Session.after lexer settings requests = s
  refine ⟨fun input hsource => ?_, fun request => ?_⟩
  · rw [← hs]
    exact (Session.stands_after lexer settings hsource).rests
  · cases hplace : request.isMisplaced s with
    | true =>
      obtain ⟨hmisuse, hsame⟩ := Session.perform_of_isMisplaced hplace
      exact ⟨hmisuse, fun _ => hsame⟩
    | false =>
      have hmisuse := Session.isMisuse_perform hplace
      exact ⟨hmisuse, fun h => by simp [hmisuse] at h⟩

/-- A session of the standard lexer rests when it has been asked for a token, and when
    it has been cancelled behind it, and cannot be started again. -/
theorem session_rests_standard :
    ([.start "a b".toUTF8, .next none] : List (Request 0)).findSome? Request.source? =
        some "a b".toUTF8 ∧
      (Session.after .standard {} [.start "a b".toUTF8, .next none]).isAtRest = true ∧
      (Session.after .standard {} [.start "a b".toUTF8, .next none]).Rests "a b".toUTF8 ∧
      (Session.after .standard {} [.start "a b".toUTF8, .next none, .cancel]).isAtRest = true ∧
      (Session.after .standard {}
        [.start "a b".toUTF8, .next none, .cancel]).channel.cancelled = true ∧
      (Session.after .standard {} [.start "a b".toUTF8, .next none, .cancel]).IsOver ∧
      ((Session.after .standard {} [.start "a b".toUTF8, .next none, .cancel]).perform
        (.start "".toUTF8)).1.isMisuse = true ∧
      ((Session.after .standard {} [.start "a b".toUTF8, .next none, .cancel]).perform
        (.start "".toUTF8)).2 =
          Session.after .standard {} [.start "a b".toUTF8, .next none, .cancel] := by
  have hrest : (Session.after .standard {}
      [.start "a b".toUTF8, .next none, .cancel]).isAtRest = true := by decide +kernel
  have hcancelled : (Session.after .standard {}
      [.start "a b".toUTF8, .next none, .cancel]).channel.cancelled = true := by decide +kernel
  have hmisuse : ((Session.after .standard {} [.start "a b".toUTF8, .next none, .cancel]).perform
      (.start "".toUTF8)).1.isMisuse = true := by decide +kernel
  have hwaiting := (session_rests .standard {} [.start "a b".toUTF8, .next none]).1 _ rfl
  have hover := session_rests .standard {} [.start "a b".toUTF8, .next none, .cancel]
  exact ⟨rfl, by decide +kernel, hwaiting, hrest, hcancelled,
    (hover.1 _ rfl).isOver_of_cancelled hrest hcancelled, hmisuse, (hover.2 _).2 hmisuse⟩

end StateLexer
