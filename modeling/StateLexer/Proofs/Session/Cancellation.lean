import StateLexer.Proofs.Session.Rest

/-!
# Cancelled sessions

To cancel a session whose producer waits with a token drops that token, and changes
nothing that the producer or the consumer has done before (`Session.Drops`). The scan is
over then, without a failure, and the session is *hushed*: it yields no token any more,
whatever is asked of it, and every answer is known in advance (`performAll_hushed`).

A session that is cancelled before its scan begins is hushed as soon as it does
(`exists_launch_cancelled`), and no state is called: it makes no difference what the
states do.

* `cancel_drops`: both, for whatever has been asked of a session before.
-/

namespace StateLexer

variable {n : Nat} {lexer : Lexer n} {settings : Settings} {input : ByteArray}

/-- The answer of a session that yields no more tokens, and does not say that the scan
    has failed. -/
def Lexer.hushedAnswer (lexer : Lexer n) : Request n → Answer n
  | .start _ => .error .alreadyStarted
  | .run _ => .tokens { tokens := [], ending := .failed .alreadyStarted }
  | .next _ => .error .exhausted
  | .iterate limit =>
    .tokens { tokens := [], ending := if limit = some 0 then .more else .done }
  | .drain => .count 0
  | .cancel => .done
  | .join _ => .flag true
  | .close => .done
  | .enter => .done
  | .leave => .done
  | .abandon => .done
  | .resolve target => .state (target.resolve lexer.home)

namespace Session

/-- The scan is over, without a failure, and no token is left. -/
structure Hushed (lexer : Lexer n) (s : Session n) : Prop where
  lexer_eq : s.lexer = lexer
  task_eq : s.task = .finished
  slot_eq : s.channel.slot = none
  closed_eq : s.channel.closed = true
  failure_eq : s.failure = none

variable {s : Session n}

/-! ## Hushed sessions -/

theorem Hushed.isStarted (h : s.Hushed lexer) : s.isStarted = true := by
  rw [Session.isStarted, h.task_eq]

theorem Hushed.isRunning (h : s.Hushed lexer) : s.isRunning = false := by
  rw [Session.isRunning, h.task_eq, Bool.and_false]

theorem Hushed.write (h : s.Hushed lexer) (side : Side) (notice : Notice) :
    (s.write side notice).Hushed lexer :=
  ⟨h.lexer_eq, h.task_eq, h.slot_eq, h.closed_eq, h.failure_eq⟩

theorem Hushed.receive (h : s.Hushed lexer) : s.receive = (.ended, s) := by
  simp [Session.receive, h.slot_eq, h.closed_eq]

theorem tokenBound_ne_zero (s : Session n) : s.tokenBound ≠ 0 :=
  Nat.succ_ne_zero _

theorem Hushed.collect (h : s.Hushed lexer) (looks : Bool) (unwanted : Token → Bool) {limit : Nat}
    (hlimit : limit ≠ 0) :
    s.collect looks unwanted limit #[] = ({ tokens := #[], stop := .ended }, s) := by
  obtain ⟨limit, rfl⟩ := Nat.exists_eq_succ_of_ne_zero hlimit
  rw [Session.collect, h.receive]

theorem Hushed.drain (h : s.Hushed lexer) :
    s.drain = (.value 0, s.write .consumer (.drained 0)) := by
  rw [Session.drain, if_neg (by simp [h.isStarted]), h.collect _ _ s.tokenBound_ne_zero]
  simp [conclude, Session.write, h.failure_eq]

theorem Hushed.join (h : s.Hushed lexer) (limit : Option Seconds) :
    s.join limit = (.value true, s) := by
  rw [Session.join, if_pos (by simp [h.isRunning])]

theorem Hushed.close (h : s.Hushed lexer) :
    s.close = (.value (), s.write .consumer (.drained 0)) := by
  rw [Session.close, h.drain]
  simp only [(h.write _ _).join]

theorem Hushed.cancel (h : s.Hushed lexer) :
    s.cancel = { s with channel := s.channel.cancel } := by
  simp [Session.cancel, h.task_eq]

theorem Hushed.cancelled (h : s.Hushed lexer) :
    ({ s with channel := s.channel.cancel } : Session n).Hushed lexer :=
  ⟨h.lexer_eq, h.task_eq, rfl, h.closed_eq, h.failure_eq⟩

/-- A hushed session gives the answer that is known in advance, and stays hushed. -/
theorem Hushed.perform (h : s.Hushed lexer) (request : Request n) :
    (s.perform request).1 = lexer.hushedAnswer request ∧ (s.perform request).2.Hushed lexer ∧
      (s.perform request).2.taken = s.taken := by
  cases request with
  | start input =>
    rw [Session.perform, start, if_pos h.isStarted]
    exact ⟨rfl, h, rfl⟩
  | run input =>
    rw [Session.perform, run, if_pos h.isStarted]
    exact ⟨rfl, h, rfl⟩
  | next limit =>
    have hnext : s.next limit = (.error .exhausted, s) := by
      rw [next, if_neg (by simp [h.isStarted]), h.receive]
      simp [conclude, h.failure_eq]
    rw [Session.perform, hnext]
    exact ⟨rfl, h, rfl⟩
  | iterate limit =>
    rw [Session.perform, iterate]
    split
    · next hlimit => exact ⟨by simp [Lexer.hushedAnswer, hlimit], h, rfl⟩
    · next hlimit =>
      have hbound : limit.getD s.tokenBound ≠ 0 := by
        cases limit with
        | none => exact s.tokenBound_ne_zero
        | some m => simpa using hlimit
      rw [if_neg (by simp [h.isStarted]), h.collect _ _ hbound]
      refine ⟨?_, h, rfl⟩
      simp [Harvest.toIteration, Lexer.hushedAnswer, hlimit, h.failure_eq]
  | drain =>
    rw [Session.perform, h.drain]
    exact ⟨rfl, h.write _ _, rfl⟩
  | cancel =>
    rw [Session.perform, h.cancel]
    exact ⟨rfl, h.cancelled, rfl⟩
  | join limit =>
    rw [Session.perform, h.join]
    exact ⟨rfl, h, rfl⟩
  | close =>
    rw [Session.perform, h.close]
    exact ⟨rfl, h.write _ _, rfl⟩
  | enter =>
    rw [Session.perform, enter, if_pos h.isStarted]
    exact ⟨rfl, h, rfl⟩
  | leave =>
    rw [Session.perform, h.close]
    exact ⟨rfl, h.write _ _, rfl⟩
  | abandon =>
    rw [Session.perform, abandon, h.cancel, h.cancelled.join]
    exact ⟨rfl, h.cancelled, rfl⟩
  | resolve target =>
    rw [Session.perform, h.lexer_eq]
    exact ⟨rfl, h, rfl⟩

/-- A hushed session yields no token, whatever is asked of it. -/
theorem performAll_hushed (h : s.Hushed lexer) (requests : List (Request n)) :
    (s.performAll requests).1 = requests.map lexer.hushedAnswer ∧
      (s.performAll requests).2.taken = s.taken := by
  induction requests generalizing s with
  | nil => exact ⟨rfl, rfl⟩
  | cons request requests ih =>
    obtain ⟨hanswer, hhushed, htaken⟩ := h.perform request
    obtain ⟨hanswers, htaken'⟩ := ih hhushed
    refine ⟨?_, htaken'.trans htaken⟩
    rw [performAll, hanswer, hanswers, List.map_cons]

/-! ## A token that waits -/

/-- The second session is the first, with the token that waits dropped and the producer
    finished, and nothing else changed that either side has done. -/
structure Drops (s s' : Session n) : Prop where
  reader_eq : s'.reader = s.reader
  lastToken_eq : s'.lastToken = s.lastToken
  lastPos_eq : s'.lastPos = s.lastPos
  taken_eq : s'.taken = s.taken
  sent_eq : s'.channel.sent = s.channel.sent
  received_eq : s'.channel.received = s.channel.received
  slot_eq : s'.channel.slot = none
  cancelled_eq : s'.channel.cancelled = true
  closed_eq : s'.channel.closed = true
  state_eq : s'.state = none
  task_eq : s'.task = .finished
  isRunning_eq : s'.isRunning = false

/-- To cancel a session whose producer waits drops the token, and is no failure. -/
theorem drops_cancel {t : Token} {rest : Run (Option (State n))}
    (htask : s.task = .offering t rest) :
    s.Drops s.cancel ∧ s.cancel.failure = s.failure ∧ s.cancel.lexer = s.lexer := by
  rw [cancel_of_offering htask]
  refine ⟨⟨rfl, rfl, rfl, rfl, rfl, rfl, rfl, rfl, rfl, rfl, rfl, ?_⟩, rfl, rfl⟩
  exact Bool.and_false _

theorem hushed_cancel {t : Token} {rest : Run (Option (State n))}
    (h : s.Stands lexer settings input) (htask : s.task = .offering t rest) :
    s.cancel.Hushed lexer := by
  obtain ⟨hdrops, hfailure, hlexer⟩ := drops_cancel htask
  refine ⟨hlexer.trans h.lexer_eq, hdrops.task_eq, hdrops.slot_eq, hdrops.closed_eq,
    hfailure.trans ?_⟩
  cases h.standing with
  | waiting on_call state_eq task_eq slot_eq closed_eq cancelled_eq failure_eq => exact failure_eq
  | busy task_eq => rcases task_eq with task_eq | task_eq <;> simp [task_eq] at htask
  | finished task_eq => simp [task_eq] at htask

/-- Both ways to cancel a session whose producer waits are the same. -/
theorem perform_cancels {request : Request n} (h : s.cancel.Hushed lexer)
    (hrequest : request.cancels = true) :
    s.perform request = (.done, s.cancel) := by
  cases request with
  | cancel => rfl
  | abandon =>
    rw [Session.perform, abandon, h.join]
    rfl
  | _ => simp [Request.cancels] at hrequest

/-! ## Cancelled before the beginning -/

/-- The scan of the input is over where it has begun. -/
structure StillAt (input : ByteArray) (s : Session n) : Prop where
  reader_eq : s.reader = { input }
  taken_eq : s.taken = #[]
  sent_eq : s.channel.sent = 0
  received_eq : s.channel.received = 0
  closed_eq : s.channel.closed = true
  state_eq : s.state = none
  task_eq : s.task = .finished

/-- A scan that has been cancelled before it begins is over at once. -/
theorem hushed_launch (lexer : Lexer n) (settings : Settings) (background : Bool)
    (input : ByteArray) :
    ((idle lexer settings true).launch background input).Hushed lexer ∧
      ((idle lexer settings true).launch background input).StillAt input :=
  ⟨⟨rfl, rfl, rfl, rfl, rfl⟩, ⟨rfl, rfl, rfl, rfl, rfl, rfl, rfl⟩⟩

/-- A request that begins a scan which has been cancelled before launches it and takes no
    token, and what the states of the lexer do makes no difference. -/
theorem exists_launch_cancelled (lexer : Lexer n) (settings : Settings) {opening : Request n}
    (h : opening.source? = some input) :
    ∃ background answer,
      (answer = .done ∨ answer = .tokens { tokens := [], ending := .done }) ∧
        ∀ other : Lexer n,
          ({ idle lexer settings true with lexer := other } : Session n).perform opening =
            (answer,
              { (idle lexer settings true).launch background input with lexer := other }) := by
  cases opening with
  | start input' =>
    obtain rfl := Option.some.inj h
    exact ⟨true, .done, .inl rfl, fun other => rfl⟩
  | run input' =>
    obtain rfl := Option.some.inj h
    refine ⟨false, _, .inr rfl, fun other => ?_⟩
    have hhushed : ({ (idle lexer settings true).launch false input' with lexer := other } :
        Session n).Hushed other := ⟨rfl, rfl, rfl, rfl, rfl⟩
    have hrun : ({ idle lexer settings true with lexer := other } : Session n).run input' =
        (let s := { (idle lexer settings true).launch false input' with lexer := other }
         let collected := s.collect false (fun _ => false) s.tokenBound #[]
         (collected.1.toIteration none collected.2.failure .raised, collected.2)) := rfl
    rw [perform, hrun]
    simp only [hhushed.collect _ _ (tokenBound_ne_zero _)]
    rfl
  | _ => simp [Request.source?] at h

/-- Whatever has been asked of a session that has not been started, it is idle. -/
theorem eq_idle_of_not_isStarted (lexer : Lexer n) (settings : Settings)
    (requests : List (Request n)) (h : (after lexer settings requests).isStarted = false) :
    after lexer settings requests = idle lexer settings (requests.any Request.cancels) := by
  rcases idle_or_stands lexer settings requests with hidle | ⟨input, hstands⟩
  · exact hidle
  · have hstarted := hstands.isStarted
    simp [h] at hstarted

/-- A session whose producer waits scans an input. -/
theorem exists_stands_of_offering (lexer : Lexer n) (settings : Settings)
    (requests : List (Request n)) {t : Token} {rest : Run (Option (State n))}
    (h : (after lexer settings requests).task = .offering t rest) :
    ∃ input, (after lexer settings requests).Stands lexer settings input := by
  rcases idle_or_stands lexer settings requests with hidle | hstands
  · rw [hidle] at h
    simp [idle, new] at h
  · exact hstands

/-! ## All requests -/

/-- Whatever else is asked of the session, it yields no token: the answers are those that
    are known in advance. -/
def YieldsNothing (s : Session n) (lexer : Lexer n) : Prop :=
  ∀ requests, (s.performAll requests).1 = requests.map lexer.hushedAnswer ∧
    (s.performAll requests).2.taken = s.taken

end Session

/-- To cancel a session, whatever has been asked of it, drops the token that waits and
    nothing else, and if it has not been started, no state will be called. In either case
    it yields nothing from then on. -/
theorem cancel_drops (lexer : Lexer n) (settings : Settings) (requests : List (Request n)) :
    (∀ t rest request, (Session.after lexer settings requests).task = .offering t rest →
      request.cancels = true →
        ((Session.after lexer settings requests).perform request).1 = .done ∧
        (Session.after lexer settings requests).Drops
          ((Session.after lexer settings requests).perform request).2 ∧
        ((Session.after lexer settings requests).perform request).2.YieldsNothing lexer) ∧
      ((Session.after lexer settings requests).isStarted = false →
        (Session.after lexer settings requests).channel.cancelled = true →
        ∀ opening input, opening.source? = some input →
          (((Session.after lexer settings requests).perform opening).1 = .done ∨
            ((Session.after lexer settings requests).perform opening).1 =
              .tokens { tokens := [], ending := .done }) ∧
          ((Session.after lexer settings requests).perform opening).2.StillAt input ∧
          (∀ other : Lexer n,
            (({ Session.after lexer settings requests with lexer := other } :
              Session n).perform opening).2 =
              { ((Session.after lexer settings requests).perform opening).2 with
                lexer := other }) ∧
          ((Session.after lexer settings requests).perform opening).2.YieldsNothing lexer) := by
  refine ⟨fun t rest request htask hrequest => ?_,
    fun hidle hcancelled opening input hopening => ?_⟩
  · obtain ⟨input, hstands⟩ := Session.exists_stands_of_offering lexer settings requests htask
    have hhushed := Session.hushed_cancel hstands htask
    rw [Session.perform_cancels hhushed hrequest]
    exact ⟨rfl, (Session.drops_cancel htask).1,
      fun further => Session.performAll_hushed hhushed further⟩
  · have hsession := Session.eq_idle_of_not_isStarted lexer settings requests hidle
    rw [hsession] at hcancelled ⊢
    have hany : requests.any Request.cancels = true := hcancelled
    rw [hany]
    obtain ⟨background, answer, hanswer, hperform⟩ :=
      Session.exists_launch_cancelled lexer settings hopening
    obtain ⟨hhushed, hstill⟩ := Session.hushed_launch lexer settings background input
    have hown : (Session.idle lexer settings true).perform opening =
        (answer, (Session.idle lexer settings true).launch background input) := hperform lexer
    rw [hown]
    exact ⟨hanswer, hstill, fun other => congrArg Prod.snd (hperform other),
      fun further => Session.performAll_hushed hhushed further⟩

/-- A session of the standard lexer drops the token that waits, when it is cancelled
    behind the first one; and if it is cancelled before it is started, its scan is still
    where it begins. -/
theorem cancel_drops_standard :
    (∃ t rest, (Session.after .standard {} [.start "a b".toUTF8, .next none]).task =
        .offering t rest) ∧
      (Request.abandon : Request 0).cancels = true ∧
      (Session.after .standard {} [.start "a b".toUTF8, .next none]).Drops
        ((Session.after .standard {} [.start "a b".toUTF8, .next none]).perform .abandon).2 ∧
      (Session.after .standard {} [.cancel]).isStarted = false ∧
      (Session.after .standard {} [.cancel]).channel.cancelled = true ∧
      (Request.start "a b".toUTF8 : Request 0).source? = some "a b".toUTF8 ∧
      ((Session.after .standard {} [.cancel]).perform (.start "a b".toUTF8)).2.StillAt
        "a b".toUTF8 := by
  have hrest : (Session.after .standard {} [.start "a b".toUTF8, .next none]).isAtRest = true := by
    decide +kernel
  have hstate : (Session.after .standard {}
      [.start "a b".toUTF8, .next none]).isRunning = true := by decide +kernel
  obtain ⟨t, rest, htask⟩ := Session.exists_offering hrest hstate
  have hdrops := (cancel_drops .standard {} [.start "a b".toUTF8, .next none]).1 t rest .abandon
    htask rfl
  have hstill := (cancel_drops .standard {} [.cancel]).2 rfl rfl (.start "a b".toUTF8) _ rfl
  exact ⟨⟨t, rest, htask⟩, rfl, hdrops.2.1, rfl, rfl, rfl, hstill.2.1⟩

end StateLexer
