import StateLexer.Proofs.Session.Requests
import StateLexer.Proofs.Standard.Termination

/-!
# One notice for each error

The standard lexer tells in the journal of every span that is no token, before it emits the
span as an error: the notice quotes the offset and the text of the token (`Notice.Diagnoses`).
A state call writes no other notices, and none without the token behind it (`Reported`,
`Lexer.reports_call`), and the producer does not rest between the two. So wherever it rests
with a token, that token has been told of if it is an error (`Session.Recording`), and behind a
whole scan the notices are those of the errors, one for each and in order.

* `recording_advance`, `recording_drive`, `recording_receive`: the producer, from one rest to the
  next;
* `recording_scan`, `recording_run`, `recording_after`: the ways to scan that are not cancelled;
* `errors_diagnosed`: what the producer has told at the end of each of them.
-/

namespace StateLexer

variable {n : Nat} {α β σ : Type} {env : Env} {r : Reader} {input : ByteArray} {ts : List Token}
  {notice : Notice} {t : Token}

/-! ## Diagnoses -/

/-- The notice is about the span that the error token covers. -/
inductive Notice.Diagnoses : Notice → Token → Prop
  | malformed (offset : Nat) (flaw : Flaw) (text : String) :
    Diagnoses (.malformed offset flaw text) { kind := .error, pos := offset, text }
  | unrecognized (offset : Nat) (text : String) :
    Diagnoses (.unrecognized offset text) { kind := .error, pos := offset, text }

/-- The entry in the journal, as it is spelled: it comes from the part of the library that has
    found the error, and quotes the offset and the text of the token. -/
def Notice.Quotes (notice : Notice) (t : Token) : Prop :=
  (notice.source = "scanr.states.base" ∧ ∃ flaw : Flaw, notice.message =
      "invalid span at offset " ++ toString t.pos ++ " (" ++ flaw.message ++ "): " ++
        Text.quote t.text) ∨
    notice.source = "scanr.states.dispatch" ∧ notice.message =
      "unrecognized input at offset " ++ toString t.pos ++ ": " ++ Text.quote t.text

theorem Notice.Diagnoses.quotes (h : notice.Diagnoses t) : notice.Quotes t := by
  cases h with
  | malformed offset flaw text => exact .inl ⟨rfl, flaw, rfl⟩
  | unrecognized offset text => exact .inr ⟨rfl, rfl⟩

theorem Notice.Diagnoses.kind_eq (h : notice.Diagnoses t) : t.kind = .error := by
  cases h <;> rfl

/-- The error tokens among the tokens. -/
def errors (ts : List Token) : List Token :=
  ts.filter (·.kind = .error)

theorem errors_concat_of_ne (h : t.kind ≠ .error) : errors (ts ++ [t]) = errors ts := by
  simp [errors, h]

theorem errors_concat (h : t.kind = .error) : errors (ts ++ [t]) = errors ts ++ [t] := by
  simp [errors, h]

/-! ## Calls -/

/-- Every error token stands right behind the notice that diagnoses it, and there are no other
    notices. -/
inductive Reported : List Event → Prop
  | nil : Reported []
  | token {r : Reader} {t : Token} {events : List Event} (valid : t.kind ≠ .error)
      (rest : Reported events) : Reported (.offer r t :: events)
  | error {r : Reader} {notice : Notice} {t : Token} {events : List Event}
      (diagnoses : notice.Diagnoses t) (rest : Reported events) :
      Reported (.note notice :: .offer r t :: events)

/-- The run has a value, and reports its errors. -/
structure Run.Reports (run : Run α) : Prop where
  done : ∃ value, run.outcome = .done value
  reported : Reported run.events

namespace Run

theorem reports_pure (value : α) (r : Reader) : (pure value r).Reports :=
  ⟨⟨value, rfl⟩, .nil⟩

theorem reports_emit (hopen : env.refusal = none) {kind : Kind} (hkind : kind ≠ .error)
    (r : Reader) : (emit env kind r).Reports := by
  rw [emit, hopen]
  exact ⟨⟨(), rfl⟩, .token hkind .nil⟩

/-- What is emitted as an error behind its notice. -/
theorem reports_error (hopen : env.refusal = none) (h : notice.Diagnoses (r.token .error))
    (value : α) :
    ((note notice r).andThen fun _ r => (emit env .error r).andThen fun _ r =>
      pure value r).Reports := by
  simp only [note, andThen, emit, hopen]
  exact ⟨⟨value, rfl⟩, .error h .nil⟩

theorem Reports.map {run : Run α} (h : run.Reports) (f : α → β) :
    (run.andThen fun value r => pure (f value) r).Reports := by
  obtain ⟨⟨value, hdone⟩, hreported⟩ := h
  simp only [andThen, hdone, pure, List.append_nil]
  exact ⟨⟨f value, rfl⟩, hreported⟩

end Run

namespace TokenClass

theorem kind_ne_error (k : TokenClass) : k.kind ≠ .error := by
  cases k <;> decide

/-- The state for a class of tokens reports what is malformed. -/
theorem reports_call (hopen : env.refusal = none) (home : σ) (k : TokenClass) (r : Reader) :
    (k.recognizer.call env home {} r).Reports := by
  simp only [Recognizer.call, recognizer, Matcher.run_token, Matcher.ofReading]
  generalize k.read .plain env.settings r = reading
  obtain ⟨verdict, r'⟩ := reading
  cases verdict with
  | accepted =>
    rw [Run.pure_andThen, Recognizer.conclude_accepted]
    exact (Run.reports_emit hopen k.kind_ne_error _).map _
  | rejected =>
    rw [Run.pure_andThen, Recognizer.conclude_rejected]
    exact Run.reports_pure _ _
  | malformed flaw =>
    rw [Run.andThen_assoc]
    exact Run.reports_error hopen (.malformed r'.start flaw r'.pending) (some home)

end TokenClass

/-- Every state call of the standard lexer has a value, and reports its errors. -/
theorem Lexer.reports_call (hopen : env.refusal = none) (q : State 0) (r : Reader) :
    (Lexer.standard.call env q r).Reports := by
  cases q with
  | standard q =>
    cases q with
    | token k => exact k.reports_call hopen _ r
    | dispatch =>
      cases hahead : r.peek.1 with
      | none =>
        rw [call, dispatch_of_end hahead]
        exact (Run.reports_emit hopen (by decide) _).map _
      | some c =>
        rw [call, dispatch_of_rune hahead]
        exact Run.reports_pure _ _
    | unknown =>
      rw [call, unknown_of_accept rfl]
      let r' := (r.next.2.acceptUntilMatch beginsToken).2
      exact Run.reports_error hopen (.unrecognized r'.start r'.pending) _
  | custom i => exact i.elim0

/-! ## The producer -/

namespace Session

/-- What the producer has written in the journal. -/
def report (s : Session n) : List Notice :=
  s.notices (if s.background then .producer else .consumer)

theorem notices_write (s : Session n) (side side' : Side) (notice : Notice) :
    (s.write side notice).notices side' =
      s.notices side' ++ if side = side' then [notice] else [] := by
  simp only [notices, write, Array.toList_push, List.filterMap_append]
  split <;> simp [*]

@[simp] theorem report_note (s : Session n) (notice : Notice) :
    (s.note notice).report = s.report ++ [notice] := by
  have hbackground : (s.note notice).background = s.background := rfl
  rw [report, hbackground, note, notices_write, if_pos rfl, report]

/-- The scan of the input with the standard lexer has been reported up to the tokens `ts`, and
    the notices `ended` behind. -/
structure Records (background : Bool) (input : ByteArray) (s : Session 0) (ts : List Token)
    (ended : List Notice) : Prop where
  lexer_eq : s.lexer = .standard
  background_eq : s.background = background
  cancelled_eq : s.channel.cancelled = false
  sent_eq : s.channel.sent = s.taken.size
  report_eq : ∃ told, s.report = .started input.size :: (told ++ ended) ∧
    List.Forall₂ Notice.Diagnoses told (errors ts)

/-- How the producer of such a scan rests. -/
inductive Recording (background : Bool) (input : ByteArray) (s : Session 0) : Prop
  /-- The token that waits has been reported, if it is an error. -/
  | waiting {t : Token} {rest : Run (Option (State 0))} (task_eq : s.task = .offering t rest)
      (slot_eq : s.channel.slot = some t) (reports : rest.Reports)
      (records : s.Records background input (s.taken.toList ++ [t]) [])
  | busy (task_eq : s.task = .looping ∨ s.task = .stuck) (slot_eq : s.channel.slot = none)
      (records : s.Records background input s.taken.toList [])
  | finished (task_eq : s.task = .finished) (slot_eq : s.channel.slot = none)
      (records : s.Records background input s.taken.toList [.finished s.taken.size])

variable {s : Session 0} {background : Bool}

/-- A call comes to the next token, which has been reported if it is an error, or to its end,
    and then there was nothing to report. -/
theorem recording_advance (call : Run (Option (State 0))) {events : List Event}
    (h : s.Records background input s.taken.toList []) (hslot : s.channel.slot = none)
    (hdone : ∃ next, call.outcome = .done next) (hreported : Reported events) :
    ((advance call events s).1 = false ∧ (advance call events s).2.Recording background input) ∨
      (advance call events s).1 = true ∧ (advance call events s).2.channel.slot = none ∧
        (advance call events s).2.Records background input
          (advance call events s).2.taken.toList [] := by
  obtain ⟨told, hreport, htold⟩ := h.report_eq
  cases hreported with
  | nil =>
    -- The call has not offered a token, so it has not told of one either.
    obtain ⟨next, hnext⟩ := hdone
    simp only [advance, hnext]
    exact .inr ⟨trivial, hslot, h.lexer_eq, h.background_eq, h.cancelled_eq, h.sent_eq, h.report_eq⟩
  | @token r t events valid rest =>
    refine .inl ⟨rfl, .waiting rfl rfl ⟨hdone, rest⟩
      ⟨h.lexer_eq, h.background_eq, h.cancelled_eq, ?_, told, hreport, ?_⟩⟩
    · simp [advance, Channel.offer, hslot, h.sent_eq]
    · rwa [errors_concat_of_ne valid]
  | @error r notice t events diagnoses rest =>
    refine .inl ⟨rfl, .waiting rfl rfl ⟨hdone, rest⟩
      ⟨h.lexer_eq, h.background_eq, h.cancelled_eq, ?_, told ++ [notice], ?_, ?_⟩⟩
    · simp [advance, Channel.offer, note, write, hslot, h.sent_eq]
    · refine (report_note s notice).trans ?_
      simp [hreport]
    · rw [errors_concat diagnoses.kind_eq]
      exact List.rel_append htold (.cons diagnoses .nil)

/-- State calls, one after the other, come to a rest. -/
theorem recording_drive (trail : List (State 0 × Place)) (fuel : Nat)
    (h : s.Records background input s.taken.toList []) (hslot : s.channel.slot = none) :
    (drive trail fuel s).Recording background input := by
  have hlooping {s : Session 0} (h : s.Records background input s.taken.toList [])
      (hslot : s.channel.slot = none) :
      ({ s with task := .looping } : Session 0).Recording background input :=
    .busy (.inl rfl) hslot ⟨h.lexer_eq, h.background_eq, h.cancelled_eq, h.sent_eq, h.report_eq⟩
  induction fuel generalizing trail s with
  | zero => exact hlooping h hslot
  | succ fuel ih =>
    rw [drive]
    split
    · obtain ⟨told, hreport, htold⟩ := h.report_eq
      refine .finished rfl hslot ⟨h.lexer_eq, h.background_eq, h.cancelled_eq, h.sent_eq, told, ?_,
        htold⟩
      refine (report_note _ _).trans ?_
      change s.report ++ [.finished s.channel.sent] =
        .started input.size :: (told ++ [.finished s.taken.size])
      rw [hreport, h.sent_eq]
      simp
    · next q hstate =>
      rw [if_neg (by simp [h.cancelled_eq])]
      split
      · exact hlooping h hslot
      · have hopen : ({ settings := s.settings } : Env).refusal = none := rfl
        have hcall := Lexer.reports_call hopen q s.reader
        rw [← h.lexer_eq] at hcall
        rcases recording_advance _ h hslot hcall.done hcall.reported with
          ⟨hturn, hrecording⟩ | ⟨hturn, hslot', hrecords⟩
        · simp only [hturn]
          exact hrecording
        · simp only [hturn, if_true]
          exact ih _ hrecords hslot'

/-- A producer whose token has been taken comes to its next rest. -/
theorem recording_resume {t : Token} {rest : Run (Option (State 0))}
    (htask : s.task = .offering t rest)
    (hreports : rest.Reports) (h : s.Records background input s.taken.toList [])
    (hslot : s.channel.slot = none) : s.resume.Recording background input := by
  rw [resume, htask]
  simp only [goOn]
  have h' : ({ s with lastToken := some t } : Session 0).Records background input
      s.taken.toList [] :=
    ⟨h.lexer_eq, h.background_eq, h.cancelled_eq, h.sent_eq, h.report_eq⟩
  rcases recording_advance rest h' hslot hreports.done hreports.reported with
    ⟨hturn, hrecording⟩ | ⟨hturn, hslot', hrecords⟩
  · simp only [hturn]
    exact hrecording
  · simp only [hturn, if_true]
    exact recording_drive _ _ hrecords hslot'

theorem recording_launch (settings : Settings) (background : Bool) (input : ByteArray) :
    ((new .standard settings).launch background input).Recording background input := by
  refine recording_drive _ _ ⟨rfl, rfl, rfl, rfl, [], ?_, .nil⟩ rfl
  refine (report_note _ _).trans ?_
  rfl

/-! ## The consumer -/

theorem recording_receive (h : s.Recording background input) :
    s.receive.2.Recording background input := by
  rw [receive]
  cases h with
  | @waiting t rest task_eq slot_eq reports records =>
    simp only [slot_eq]
    have htake : s.channel.take = { s.channel with
        slot := none, sent := s.channel.sent + 1, received := s.channel.received + 1 } := by
      simp [Channel.take, slot_eq]
    refine recording_resume task_eq reports ⟨records.lexer_eq, records.background_eq, ?_, ?_, ?_⟩ ?_
    · rw [htake]
      exact records.cancelled_eq
    · simp [htake, records.sent_eq]
    · obtain ⟨told, hreport, htold⟩ := records.report_eq
      exact ⟨told, hreport, by simpa using htold⟩
    · rw [htake]
  | busy task_eq slot_eq records =>
    simp only [slot_eq]
    exact .busy task_eq slot_eq records
  | finished task_eq slot_eq records =>
    simp only [slot_eq]
    exact .finished task_eq slot_eq records

/-- What the producer has no part in makes no difference. -/
theorem Recording.congr {s' : Session 0} (h : s.Recording background input)
    (hlexer : s'.lexer = s.lexer) (hbackground : s'.background = s.background)
    (hchannel : s'.channel = s.channel) (htaken : s'.taken = s.taken) (htask : s'.task = s.task)
    (hreport : s'.report = s.report) : s'.Recording background input := by
  have hrecords {ts : List Token} {ended : List Notice}
      (h : s.Records background input ts ended) : s'.Records background input ts ended :=
    ⟨hlexer.trans h.lexer_eq, hbackground.trans h.background_eq, hchannel ▸ h.cancelled_eq,
      hchannel ▸ htaken ▸ h.sent_eq, hreport ▸ h.report_eq⟩
  cases h with
  | waiting task_eq slot_eq reports records =>
    exact .waiting (htask.trans task_eq) (hchannel ▸ slot_eq) reports (htaken ▸ hrecords records)
  | busy task_eq slot_eq records =>
    exact .busy (htask ▸ task_eq) (hchannel ▸ slot_eq) (htaken ▸ hrecords records)
  | finished task_eq slot_eq records =>
    exact .finished (htask.trans task_eq) (hchannel ▸ slot_eq) (htaken ▸ hrecords records)

theorem Recording.background_eq (h : s.Recording background input) : s.background = background := by
  cases h with
  | waiting _ _ _ records => exact records.background_eq
  | busy _ _ records => exact records.background_eq
  | finished _ _ records => exact records.background_eq

/-- Where the producer goes on by itself, the consumer does not write where it writes. -/
theorem kept_recording (input : ByteArray) : Kept (Recording true input) where
  isStarted s h := by
    rw [isStarted]
    cases h with
    | waiting task_eq => rw [task_eq]
    | busy task_eq => rcases task_eq with task_eq | task_eq <;> rw [task_eq]
    | finished task_eq => rw [task_eq]
  receive _ h := recording_receive h
  look _ _ h := h.congr rfl rfl rfl rfl rfl rfl
  write s notice h := by
    refine h.congr rfl rfl rfl rfl rfl ?_
    have hbackground : (s.write .consumer notice).background = true := h.background_eq
    rw [report, report, hbackground, h.background_eq, notices_write]
    simp

end Session

/-! ## Complete scans -/

/-- The notices of a complete scan of so many bytes, with the tokens `ts`: its beginning, one
    diagnosis for each error token, in order, and its end. -/
def Diagnosed (bytes : Nat) (ts : List Token) (notices : List Notice) : Prop :=
  ∃ told, notices = .started bytes :: (told ++ [.finished ts.length]) ∧
    List.Forall₂ Notice.Diagnoses told (errors ts) ∧ List.Forall₂ Notice.Quotes told (errors ts)

namespace Session

variable {s : Session 0} {background : Bool}

theorem Recording.diagnosed (h : s.Recording background input) (htask : s.task = .finished) :
    Diagnosed input.size s.taken.toList s.report := by
  cases h with
  | waiting task_eq => simp [htask] at task_eq
  | busy task_eq => simp [htask] at task_eq
  | finished task_eq slot_eq records =>
    obtain ⟨told, hreport, htold⟩ := records.report_eq
    refine ⟨told, ?_, htold, htold.imp fun _ _ h => h.quotes⟩
    rwa [Array.length_toList]

variable {settings : Settings}

/-- A session that is not running any more has taken all tokens. -/
theorem Follows.taken_of_not_isRunning (h : s.Follows .standard settings input)
    (hbackground : s.background = true) (hrunning : s.isRunning = false)
    (hend : Lexer.standard.EndsWith settings input ts none) : s.taken.toList = ts := by
  cases h.rest with
  | offering task_eq => simp [isRunning, hbackground, task_eq] at hrunning
  | silent _ _ _ _ silent => exact absurd hend silent.not_endsWith
  | finished _ _ _ ends => exact (ends.unique hend).1

/-- A scan all at once that has a value has taken all tokens. -/
theorem taken_scan {lexer : Lexer n} {strict : Bool} {file : Option String}
    (h : (lexer.scan settings strict file input).1 = .value ts) :
    lexer.EndsWith settings input ts none ∧
      (lexer.scan settings strict file input).2.taken.toList = ts := by
  have hscans := scans lexer settings strict file input
  generalize lexer.scan settings strict file input = scan at h hscans ⊢
  obtain ⟨reply, s⟩ := scan
  obtain rfl : reply = .value ts := h
  cases hscans with
  | clean taken_eq valid ends => exact ⟨ends, taken_eq⟩

/-- It leaves a session which has recorded it. -/
theorem recording_scan {strict : Bool} {file : Option String}
    (h : (Lexer.standard.scan settings strict file input).1 = .value ts) :
    (Lexer.standard.scan settings strict file input).2.Recording true input ∧
      (Lexer.standard.scan settings strict file input).2.Follows .standard settings input := by
  have hrecording := recording_launch settings true input
  have hfollows := (follows_launch Lexer.standard settings true input).1
  rw [Lexer.scan] at h ⊢
  simp only at h ⊢
  generalize (new .standard settings).launch true input = s at *
  have hcollect := (kept_recording input).collect true (fun t => strict && t.kind = .error)
    s.tokenBound #[] hrecording
  obtain ⟨-, -, -, -, hfollows', -⟩ := collected true (fun t => strict && t.kind = .error)
    s.tokenBound #[] hfollows
  generalize s.collect true (fun t => strict && t.kind = .error) s.tokenBound #[] = session at *
  obtain ⟨⟨tokens, stop⟩, s'⟩ := session
  cases stop with
  | ended =>
    cases hfailure : s'.failure with
    | none =>
      simp only
      exact ⟨(kept_recording input).close hcollect, (follows_close hfollows').1⟩
    | some fault => simp [hfailure] at h
  | unwanted t =>
    simp only at h
    split at h <;> simp at h
  | enough => simp at h
  | silence => simp at h

/-- So does a scan that the consumer runs. -/
theorem recording_run (settings : Settings) (input : ByteArray) :
    ((new .standard settings).run input).2.Recording false input ∧
      ((new .standard settings).run input).2.Follows .standard settings input := by
  have hrun : ((new .standard settings).run input).2 =
      (let s := (new .standard settings).launch false input
       (s.collect false (fun _ => false) s.tokenBound #[]).2) := rfl
  obtain ⟨-, -, -, -, hfollows, -⟩ := collected false (fun _ => false)
    ((new .standard settings).launch false input).tokenBound #[]
    (follows_launch Lexer.standard settings false input).1
  rw [hrun]
  refine ⟨?_, hfollows⟩
  exact collect_induction (fun _ h => recording_receive h)
    (fun _ _ h => h.congr rfl rfl rfl rfl rfl rfl) false (fun _ => false) _ #[]
    (recording_launch settings false input)

/-- A session that is started, and not cancelled, records its scan. -/
theorem recording_after (settings : Settings) (input : ByteArray) {before behind : List (Request 0)}
    (hbefore : ∀ request ∈ before, request.source? = none)
    (hcancels : ∀ request ∈ before ++ behind, request.cancels = false) :
    (after .standard settings (before ++ .start input :: behind)).Recording true input ∧
      (after .standard settings (before ++ .start input :: behind)).Follows .standard settings
        input := by
  have hidle := performAll_idle Lexer.standard settings before false hbefore
  rw [List.any_eq_false.2 fun request hrequest => by
    simp [hcancels request (List.mem_append_left _ hrequest)]] at hidle
  have hafter : after .standard settings (before ++ .start input :: behind) =
      (((new .standard settings).launch true input).performAll behind).2 := by
    rw [after, performAll_append]
    exact congrArg (fun s : Session 0 => (s.performAll (.start input :: behind)).2) hidle
  have hbehind : ∀ request ∈ behind, request.cancels = false := fun request hrequest =>
    hcancels request (List.mem_append_right _ hrequest)
  rw [hafter]
  refine ⟨performAll_induction behind (fun request hrequest s h => ?_)
    (recording_launch settings true input), follows_performAll behind hbehind
    (follows_launch Lexer.standard settings true input).1⟩
  exact (kept_recording input).perform request
    (fun hcancel => by simp [hbehind request hrequest] at hcancel) h

end Session

/-- All tokens of a scan that ends, if an iteration has no limit. -/
theorem Iteration.Tells.eq_of_endsWith {lexer : Lexer n} {settings : Settings}
    {report : Fault → ScanError} {i : Iteration} (h : i.Tells lexer settings input report none)
    (hend : lexer.EndsWith settings input ts none) : i = { tokens := ts, ending := .done } := by
  have hending := h.ending
  obtain ⟨tokens, ending⟩ := i
  cases ending with
  | done =>
    obtain ⟨rfl, -⟩ := Lexer.EndsWith.unique hending hend
    rfl
  | more => simp [IterationEnd.Tells] at hending
  | failed e =>
    obtain ⟨fault, -, hend'⟩ := hending
    simpa using (hend'.unique hend).2
  | never =>
    rcases hending with hsilent | ⟨-, hendless⟩
    · exact absurd hend hsilent.not_endsWith
    · exact absurd hend (hendless _ _)

/-- The journal of a complete scan of the standard lexer, whatever the settings and the bytes
    are: the producer tells of the beginning, then of each error token and of nothing else, in
    the order of the tokens, and then of the end. So it is for a scan all at once, if a strict one
    has a value, for one that the consumer runs, and for a session that has been started and not
    cancelled, once its producer has come to the end. -/
theorem errors_diagnosed (settings : Settings) (input : ByteArray) :
    ∃ ts,
      (∀ file, (Lexer.standard.scan settings false file input).1 = .value ts) ∧
      (∀ strict file ts', (Lexer.standard.scan settings strict file input).1 = .value ts' →
        ts' = ts ∧ Diagnosed input.size ts
          ((Lexer.standard.scan settings strict file input).2.notices .producer)) ∧
      ((Session.new .standard settings).run input).1 = { tokens := ts, ending := .done } ∧
      Diagnosed input.size ts
        (((Session.new .standard settings).run input).2.notices .consumer) ∧
      ∀ before behind : List (Request 0), (∀ request ∈ before, request.source? = none) →
        (∀ request ∈ before ++ behind, request.cancels = false) →
        let s := Session.after .standard settings (before ++ .start input :: behind)
        s.isRunning = false →
          s.taken.toList = ts ∧ Diagnosed input.size ts (s.notices .producer) := by
  have hending := unbroken_over settings input
  have hend : Lexer.standard.EndsWith settings input
      (Lexer.standard.unbroken settings input (2 * input.size + 1)).tokens none :=
    ⟨_, rfl, by rw [hending]; rfl⟩
  generalize (Lexer.standard.unbroken settings input (2 * input.size + 1)).tokens = ts at hend
  have hreport {s : Session 0} {background : Bool} (h : s.Recording background input)
      (hfollows : s.Follows .standard settings input) (htaken : s.taken.toList = ts) :
      Diagnosed input.size ts (s.notices (if background then .producer else .consumer)) := by
    have hdiagnosed := h.diagnosed (hfollows.task_eq (by rw [htaken]; exact hend))
    rwa [Session.report, h.background_eq, htaken] at hdiagnosed
  refine ⟨ts, fun file => scan_of_endsWith file hend, ?scan,
    (tells_run .standard settings input).1.eq_of_endsWith hend, ?run, ?session⟩
  case scan =>
    intro strict file ts' hvalue
    obtain ⟨hend', htaken⟩ := Session.taken_scan hvalue
    obtain ⟨rfl, -⟩ := hend'.unique hend
    obtain ⟨hrecording, hfollows⟩ := Session.recording_scan hvalue
    exact ⟨rfl, hreport hrecording hfollows htaken⟩
  case run =>
    obtain ⟨hrecording, hfollows⟩ := Session.recording_run settings input
    obtain ⟨htells, htaken⟩ := tells_run .standard settings input
    rw [htells.eq_of_endsWith hend] at htaken
    exact hreport hrecording hfollows htaken
  case session =>
    intro before behind hbefore hcancels s hrunning
    obtain ⟨hrecording, hfollows⟩ := Session.recording_after settings input hbefore hcancels
    have htaken := hfollows.taken_of_not_isRunning hrecording.background_eq hrunning hend
    exact ⟨htaken, hreport hrecording hfollows htaken⟩

/-- An address that is too long and a hyphen are told of, the space between them is not. -/
theorem errors_diagnosed_hyphen :
    let requests : List (Request 0) := [.start "1.2.3.4.5 -".toUTF8, .next none, .drain]
    let s := Session.after .standard {} requests
    (∀ request ∈ ([.next none, .drain] : List (Request 0)), request.cancels = false) ∧
      s.isRunning = false ∧ Diagnosed 11 s.taken.toList (s.notices .producer) ∧
      s.notices .producer = [.started 11, .malformed 0 .addressTooLong "1.2.3.4.5",
        .unrecognized 10 "-", .finished 4] := by
  intro requests s
  have hcancels : ∀ request ∈ ([.next none, .drain] : List (Request 0)),
      request.cancels = false := by simp [Request.cancels]
  have hrunning : s.isRunning = false := by decide +kernel
  obtain ⟨ts, -, -, -, -, hsessions⟩ := errors_diagnosed {} "1.2.3.4.5 -".toUTF8
  obtain ⟨htaken, hdiagnosed⟩ := hsessions [] [.next none, .drain]
    (fun _ h => absurd h List.not_mem_nil) hcancels hrunning
  rw [← htaken] at hdiagnosed
  exact ⟨hcancels, hrunning, hdiagnosed, by decide +kernel⟩

end StateLexer
