import StateLexer.Proofs.Session.Delivery

/-!
# What a session answers

The answers of a session that follows the unbroken scan of its input, in terms of
that scan alone (`Request.Told`): the tokens are those of the unbroken scan, in
order, a failure is reported behind the last of them, and a session that has
delivered them all tells so again and again. A session that is not cancelled keeps
following, in whatever order the requests come (`follows_performAll`).

* `next_of_emits`, `follows_iterate`, `follows_drain`, `follows_close`: the requests
  that take tokens;
* `Follows.abandon_eq_never_iff`: when it takes for ever to give up a session;
* `told_perform`: all requests of a session that follows.
-/

namespace StateLexer

variable {n : Nat} {lexer : Lexer n} {settings : Settings} {input : ByteArray}

theorem Lexer.FallsSilent.endless {ts : List Token} (h : lexer.FallsSilent settings input ts) :
    lexer.Endless settings input :=
  fun _ _ => h.not_endsWith

/-- The end of an iteration over up to `limit` tokens, after the first tokens `ts`
    of the unbroken scan of which `count` are its own, tells how that scan goes on. -/
def IterationEnd.Tells (lexer : Lexer n) (settings : Settings) (input : ByteArray)
    (report : Fault → ScanError) (limit : Option Nat) (count : Nat) (ts : List Token) :
    IterationEnd → Prop
  | done => lexer.EndsWith settings input ts none
  | more => limit = some count
  | failed e => ∃ fault, e = report fault ∧ lexer.EndsWith settings input ts (some fault)
  | never => lexer.FallsSilent settings input ts ∨
      limit = none ∧ lexer.Endless settings input

namespace Session

variable {s : Session n}

/-! ## Many tokens at once -/

/-- An iteration over a harvest tells how the unbroken scan goes on. -/
theorem tells_toIteration (report : Fault → ScanError) (limit : Option Nat) {harvest : Harvest}
    {new : List Token} {s' : Session n} (h : s'.Follows lexer settings input)
    (htokens : harvest.tokens.toList = new) (hbound : s'.tokenBound = s.tokenBound)
    (hcollected : Collected lexer settings input (fun _ => false) (limit.getD s.tokenBound) new s s'
      harvest.stop) :
    (harvest.toIteration limit s'.failure report).tokens = new ∧
      s'.taken.toList = s.taken.toList ++ new ∧
      (harvest.toIteration limit s'.failure report).ending.Tells lexer settings input report limit
        new.length s'.taken.toList := by
  refine ⟨htokens, ?_⟩
  obtain ⟨tokens, stop⟩ := harvest
  simp only at hcollected
  cases hcollected with
  | ended taken_eq ends =>
    refine ⟨taken_eq, ?_⟩
    simp only [Harvest.toIteration]
    split
    · next fault hfailure => exact ⟨fault, rfl, hfailure ▸ ends⟩
    · next hfailure => exact (hfailure ▸ ends : lexer.EndsWith settings input s'.taken.toList none)
  | enough taken_eq length_eq =>
    refine ⟨taken_eq, ?_⟩
    cases limit with
    | some limit => exact congrArg some length_eq.symm
    | none =>
      -- So many tokens are more than a scan has that ends.
      refine .inr ⟨rfl, h.endless ?_⟩
      rw [hbound, taken_eq, List.length_append, length_eq]
      exact Nat.le_add_left _ _
  | unwanted taken_eq unwanted_eq => simp at unwanted_eq
  | silence taken_eq silent => exact ⟨taken_eq, .inl silent⟩

theorem Follows.tokenBound_eq {s' : Session n} (h : s.Follows lexer settings input)
    (h' : s'.Follows lexer settings input) : s'.tokenBound = s.tokenBound := by
  rw [tokenBound, tokenBound, callBound, callBound, h.input_eq, h'.input_eq, h.lexer_eq,
    h'.lexer_eq]

theorem follows_iterate (limit : Option Nat) (h : s.Follows lexer settings input) :
    (s.iterate limit).2.Follows lexer settings input ∧
      (∀ m ∈ limit, (s.iterate limit).1.tokens.length ≤ m) ∧
      (s.iterate limit).2.taken.toList = s.taken.toList ++ (s.iterate limit).1.tokens ∧
      (s.iterate limit).1.ending.Tells lexer settings input .failed limit
        (s.iterate limit).1.tokens.length (s.iterate limit).2.taken.toList := by
  rw [iterate]
  split
  · next hlimit => exact ⟨h, fun m _ => Nat.zero_le m, (List.append_nil _).symm, hlimit⟩
  · rw [if_neg (by simp [h.isStarted])]
    obtain ⟨new, htokens, -, hlength, hfollows, hcollected⟩ :=
      collected true (fun _ => false) (limit.getD s.tokenBound) #[] h
    obtain ⟨hnew, htaken, htells⟩ := tells_toIteration .failed limit hfollows htokens
      (h.tokenBound_eq hfollows) hcollected
    refine ⟨hfollows, ?_, ?_, ?_⟩
    · rintro m rfl
      simp only [hnew]
      exact hlength
    · simp only [hnew]
      exact htaken
    · simp only [hnew]
      exact htells

/-- What the consumer is told who takes all the tokens that are left, after which
    `all` have been taken: `clean`, if there is no failure. -/
inductive Exhausts (lexer : Lexer n) (settings : Settings) (input : ByteArray) (all : List Token)
    {α : Type} (clean : α) : Reply α → Prop
  | clean (ends : lexer.EndsWith settings input all none) :
      Exhausts lexer settings input all clean (.value clean)
  | failed {fault : Fault} (ends : lexer.EndsWith settings input all (some fault)) :
      Exhausts lexer settings input all clean (.error (.failed fault))
  | never (endless : lexer.Endless settings input) : Exhausts lexer settings input all clean .never

theorem follows_drain (h : s.Follows lexer settings input) :
    s.drain.2.Follows lexer settings input ∧
      ∃ new, s.drain.2.taken.toList = s.taken.toList ++ new ∧
        Exhausts lexer settings input s.drain.2.taken.toList new.length s.drain.1 := by
  rw [drain]
  rw [if_neg (by simp [h.isStarted])]
  obtain ⟨new, htokens, -, -, hfollows, hcollected⟩ :=
    collected false (fun _ => false) s.tokenBound #[] h
  generalize hsession : s.collect false (fun _ => false) s.tokenBound #[] = session at *
  obtain ⟨⟨tokens, stop⟩, s'⟩ := session
  have hnew : tokens.toList = new := htokens
  simp only at hfollows hcollected
  cases hcollected with
  | ended taken_eq ends =>
    refine ⟨hfollows.write _ _, new, taken_eq, ?_⟩
    rw [← hnew, Array.length_toList]
    simp only [conclude, Session.write]
    split
    · next fault hfailure => exact .failed (hfailure ▸ ends)
    · next hfailure => exact .clean (hfailure ▸ ends)
  | enough taken_eq length_eq =>
    refine ⟨hfollows, new, taken_eq, .never (hfollows.endless ?_)⟩
    rw [h.tokenBound_eq hfollows, taken_eq, List.length_append, length_eq]
    exact Nat.le_add_left _ _
  | unwanted taken_eq unwanted_eq => simp at unwanted_eq
  | silence taken_eq silent => exact ⟨hfollows, new, taken_eq, .never silent.endless⟩

/-- The producer of a scan whose tokens have all been taken is finished. -/
theorem Follows.task_eq {failure : Option Fault} (h : s.Follows lexer settings input)
    (hend : lexer.EndsWith settings input s.taken.toList failure) : s.task = .finished := by
  cases h.rest with
  | offering task_eq slot_eq closed_eq failure_eq on_input continues =>
    have hemits := hend.emits_iff.1 continues.emits
    simp at hemits
  | silent task_eq slot_eq closed_eq failure_eq silent => exact absurd hend silent.not_endsWith
  | finished task_eq => exact task_eq

theorem Follows.not_isRunning {failure : Option Fault} (h : s.Follows lexer settings input)
    (hend : lexer.EndsWith settings input s.taken.toList failure) : s.isRunning = false := by
  simp [isRunning, h.task_eq hend]

theorem follows_close (h : s.Follows lexer settings input) :
    s.close.2.Follows lexer settings input ∧
      ∃ new, s.close.2.taken.toList = s.taken.toList ++ new ∧
        Exhausts lexer settings input s.close.2.taken.toList () s.close.1 := by
  obtain ⟨hfollows, new, htaken, hexhausts⟩ := follows_drain h
  rw [close]
  generalize s.drain = session at *
  obtain ⟨reply, s'⟩ := session
  simp only at hfollows htaken hexhausts
  cases hexhausts with
  | clean ends =>
    simp only [join, hfollows.not_isRunning ends]
    exact ⟨hfollows, new, htaken, .clean ends⟩
  | failed ends => exact ⟨hfollows, new, htaken, .failed ends⟩
  | never endless => exact ⟨hfollows, new, htaken, .never endless⟩

/-- Nothing is left to take of a scan whose tokens have all been taken. -/
theorem taken_close_of_endsWith {failure : Option Fault} (h : s.Follows lexer settings input)
    (hend : lexer.EndsWith settings input s.taken.toList failure) :
    s.close.2.taken = s.taken := by
  obtain ⟨hfollows, new, htaken, -⟩ := follows_close h
  have hlength := hfollows.length_taken_le hend
  rw [htaken, List.length_append] at hlength
  have hnew : new = [] := List.length_eq_zero_iff.1 (by omega)
  rw [hnew, List.append_nil] at htaken
  exact Array.toList_inj.1 htaken

/-! ## The next token -/

theorem next_of_emits {t : Token} (limit : Option Seconds) (h : s.Follows lexer settings input)
    (hemits : lexer.Emits settings input s.taken.size t) :
    (s.next limit).1 = .value t ∧ (s.next limit).2.Follows lexer settings input ∧
      (s.next limit).2.taken = s.taken.push t := by
  have hreceived := received h
  rw [next]
  rw [if_neg (by simp [h.isStarted])]
  generalize s.receive = session at *
  cases hreceived with
  | token emits follows taken_eq =>
    obtain rfl := hemits.unique emits
    exact ⟨rfl, follows.look _, taken_eq⟩
  | ended ends =>
    have hi := ends.emits_iff.1 hemits
    simp at hi
  | silence silent =>
    have hi := silent.emits_iff.1 hemits
    simp at hi

/-- A scan whose tokens have all been taken tells so, and stays as it is. -/
theorem next_of_endsWith {failure : Option Fault} (limit : Option Seconds)
    (h : s.Follows lexer settings input)
    (hend : lexer.EndsWith settings input s.taken.toList failure) :
    s.next limit = (.error (failure.elim .exhausted .failed), s) := by
  have hreceived := received h
  rw [next]
  rw [if_neg (by simp [h.isStarted])]
  generalize s.receive = session at *
  cases hreceived with
  | token emits follows taken_eq =>
    have hi := hend.emits_iff.1 emits
    simp at hi
  | ended ends =>
    simp only [← (ends.unique hend).2, conclude]
    cases s.failure <;> rfl
  | silence silent => exact absurd hend silent.not_endsWith

theorem next_of_fallsSilent (limit : Option Seconds) (h : s.Follows lexer settings input)
    (hsilent : lexer.FallsSilent settings input s.taken.toList) :
    s.next limit = (limit.elim .never fun limit => .error (.timedOut limit), s) := by
  have hreceived := received h
  rw [next]
  rw [if_neg (by simp [h.isStarted])]
  generalize s.receive = session at *
  cases hreceived with
  | token emits follows taken_eq =>
    have hi := hsilent.emits_iff.1 emits
    simp at hi
  | ended ends => exact absurd ends hsilent.not_endsWith
  | silence silent => cases limit <;> rfl

/-- There is a next token, or none since the scan is over, or none for ever. -/
theorem Follows.trichotomy (h : s.Follows lexer settings input) :
    (∃ t, lexer.Emits settings input s.taken.size t) ∨
      (∃ failure, lexer.EndsWith settings input s.taken.toList failure) ∨
      lexer.FallsSilent settings input s.taken.toList := by
  have hreceived := received h
  generalize s.receive = session at *
  cases hreceived with
  | token emits => exact .inl ⟨_, emits⟩
  | ended ends => exact .inr (.inl ⟨_, ends⟩)
  | silence silent => exact .inr (.inr silent)

end Session

/-! ## All requests -/

/-- What the consumer is told by the answer to a request for which the tokens `new`
    have been taken, behind the tokens `past`. -/
def Request.Told (lexer : Lexer n) (settings : Settings) (input : ByteArray)
    (past new : List Token) (answer : Answer n) : Request n → Prop
  | start _ => new = [] ∧ answer = .error .alreadyStarted
  | run _ => new = [] ∧ answer = .tokens { tokens := [], ending := .failed .alreadyStarted }
  | next limit =>
    (∃ t, new = [t] ∧ answer = .token t) ∨
      new = [] ∧ (∃ failure, lexer.EndsWith settings input past failure ∧
        answer = .error (failure.elim .exhausted .failed)) ∨
      new = [] ∧ lexer.FallsSilent settings input past ∧
        answer = limit.elim .never fun limit => .error (.timedOut limit)
  | iterate limit => ∃ ending, answer = .tokens { tokens := new, ending } ∧
      (∀ m ∈ limit, new.length ≤ m) ∧
      ending.Tells lexer settings input .failed limit new.length (past ++ new)
  | drain => ∃ reply, answer = reply.toAnswer .count ∧
      Session.Exhausts lexer settings input (past ++ new) new.length reply
  | close => ∃ reply, answer = reply.toAnswer (fun _ => .done) ∧
      Session.Exhausts lexer settings input (past ++ new) () reply
  | leave => ∃ reply, answer = reply.toAnswer (fun _ => .done) ∧
      Session.Exhausts lexer settings input (past ++ new) () reply
  | enter => new = [] ∧ answer = .done
  | resolve target => new = [] ∧ answer = .state (target.resolve lexer.home)
  | join _ => new = []
  | cancel => new = []
  | abandon => new = []

namespace Session

variable {s : Session n}

theorem taken_join (s : Session n) (limit : Option Seconds) :
    (s.join limit).2.taken = s.taken :=
  congrArg (·.2.2.1) (untouched_join s limit)

theorem taken_cancel (s : Session n) : s.cancel.taken = s.taken :=
  congrArg (·.2.2.1) (untouched_cancel s)

theorem taken_abandon (s : Session n) : s.abandon.2.taken = s.taken := by
  have htaken : (s.cancel.join none).2.taken = s.taken := by rw [taken_join, taken_cancel]
  rw [abandon]
  split
  · next heq => rwa [heq] at htaken
  · next heq => rwa [heq] at htaken

theorem Follows.join (h : s.Follows lexer settings input) (limit : Option Seconds) :
    (s.join limit).2.Follows lexer settings input := by
  rw [Session.join]
  split
  · exact h
  · split
    · exact h
    · exact h.write _ _

/-- To cancel a session leaves its producer running only in a call that it stays in. -/
theorem isRunning_cancel_iff (s : Session n) :
    s.cancel.isRunning = true ↔ s.background = true ∧ s.task = .stuck := by
  cases htask : s.task with
  | offering token rest =>
    rw [cancel_of_offering htask, haltWithin]
    simp [Fault.isCancellation, finish, note, write, isRunning]
  | looping => simp [cancel, haltBetween, finish, note, write, isRunning, htask]
  | _ => simp [cancel, isRunning, htask]

/-- A session that follows is in a call that the scan stays in, if there is one. -/
theorem Follows.task_eq_stuck_iff (h : s.Follows lexer settings input) :
    s.task = .stuck ↔ lexer.StaysInCall settings input s.taken.toList := by
  cases h.rest with
  | offering task_eq slot_eq closed_eq failure_eq on_input continues =>
    refine ⟨fun hstuck => by simp [task_eq] at hstuck, fun hstays => ?_⟩
    -- The token that waits is one more than there are.
    have hnext := hstays.fallsSilent.emits_iff.1 continues.emits
    simp at hnext
  | silent task_eq =>
    rcases task_eq with ⟨task_eq, hleaves⟩ | ⟨task_eq, hstays⟩
    · simp [task_eq, hleaves]
    · simp [task_eq, hstays]
  | finished task_eq slot_eq closed_eq ends =>
    refine ⟨fun hstuck => by simp [task_eq] at hstuck, fun hstays => ?_⟩
    exact absurd ends hstays.fallsSilent.not_endsWith

/-- A consumer that gives up waits for ever if the producer, which goes on by itself, stays in
    a call and nothing limits the time. -/
theorem Follows.abandon_eq_never_iff (h : s.Follows lexer settings input)
    (hbackground : s.background = true) :
    s.abandon.1 = .never ↔
      settings.joinTimeout = none ∧ lexer.StaysInCall settings input s.taken.toList := by
  have hsettings : s.cancel.settings = settings :=
    (congrArg Prod.fst (untouched_cancel s)).trans h.settings_eq
  have hrunning := s.isRunning_cancel_iff
  simp only [hbackground, true_and, h.task_eq_stuck_iff] at hrunning
  rw [← hrunning, abandon, Session.join, hsettings]
  cases s.cancel.isRunning with
  | false => simp
  | true => cases settings.joinTimeout <;> simp

/-- Every request of a session that follows tells about the unbroken scan. -/
theorem told_perform (request : Request n) (h : s.Follows lexer settings input) :
    ∃ new, (s.perform request).2.taken.toList = s.taken.toList ++ new ∧
      request.Told lexer settings input s.taken.toList new (s.perform request).1 := by
  cases request with
  | start input' =>
    refine ⟨[], ?_⟩
    simp [perform, start, h.isStarted, Request.Told, Reply.toAnswer]
  | run input' =>
    refine ⟨[], ?_⟩
    simp [perform, run, h.isStarted, Request.Told]
  | next limit =>
    rcases h.trichotomy with ⟨t, hemits⟩ | ⟨failure, hend⟩ | hsilent
    · obtain ⟨hanswer, -, htaken⟩ := next_of_emits limit h hemits
      refine ⟨[t], ?_, .inl ⟨t, rfl, ?_⟩⟩
      · simp [perform, htaken]
      · simp [perform, hanswer, Reply.toAnswer]
    · refine ⟨[], ?_, .inr (.inl ⟨rfl, failure, hend, ?_⟩)⟩
      · simp [perform, next_of_endsWith limit h hend]
      · simp [perform, next_of_endsWith limit h hend, Reply.toAnswer]
    · refine ⟨[], ?_, .inr (.inr ⟨rfl, hsilent, ?_⟩)⟩
      · simp [perform, next_of_fallsSilent limit h hsilent]
      · simp only [perform, next_of_fallsSilent limit h hsilent]
        cases limit <;> rfl
  | iterate limit =>
    obtain ⟨-, hlength, htaken, htells⟩ := follows_iterate limit h
    exact ⟨_, htaken, _, rfl, hlength, htaken ▸ htells⟩
  | drain =>
    obtain ⟨-, new, htaken, hexhausts⟩ := follows_drain h
    exact ⟨new, htaken, _, rfl, htaken ▸ hexhausts⟩
  | close =>
    obtain ⟨-, new, htaken, hexhausts⟩ := follows_close h
    exact ⟨new, htaken, _, rfl, htaken ▸ hexhausts⟩
  | leave =>
    obtain ⟨-, new, htaken, hexhausts⟩ := follows_close h
    exact ⟨new, htaken, _, rfl, htaken ▸ hexhausts⟩
  | enter =>
    refine ⟨[], ?_⟩
    simp [perform, enter, h.isStarted, Request.Told, Reply.toAnswer]
  | resolve target =>
    refine ⟨[], ?_⟩
    simp [perform, Request.Told, h.lexer_eq]
  | join limit => exact ⟨[], by simp [perform, taken_join], rfl⟩
  | cancel => exact ⟨[], by simp [perform, taken_cancel], rfl⟩
  | abandon => exact ⟨[], by simp [perform, taken_abandon], rfl⟩

theorem follows_perform (request : Request n) (hrequest : request.cancels = false)
    (h : s.Follows lexer settings input) :
    (s.perform request).2.Follows lexer settings input := by
  cases request with
  | start input' => simpa [perform, start, h.isStarted] using h
  | run input' => simpa [perform, run, h.isStarted] using h
  | next limit =>
    rcases h.trichotomy with ⟨t, hemits⟩ | ⟨failure, hend⟩ | hsilent
    · exact (next_of_emits limit h hemits).2.1
    · simpa [perform, next_of_endsWith limit h hend] using h
    · simpa [perform, next_of_fallsSilent limit h hsilent] using h
  | iterate limit => exact (follows_iterate limit h).1
  | drain => exact (follows_drain h).1
  | close => exact (follows_close h).1
  | leave => exact (follows_close h).1
  | enter => exact h
  | resolve target => exact h
  | join limit => exact h.join limit
  | cancel => simp [Request.cancels] at hrequest
  | abandon => simp [Request.cancels] at hrequest

/-- A session that is not cancelled keeps following, whatever is asked of it. -/
theorem follows_performAll (requests : List (Request n))
    (hrequests : ∀ request ∈ requests, request.cancels = false)
    (h : s.Follows lexer settings input) :
    (s.performAll requests).2.Follows lexer settings input := by
  induction requests generalizing s with
  | nil => exact h
  | cons request requests ih =>
    have hfirst := follows_perform request (hrequests request List.mem_cons_self) h
    exact ih (fun other hother => hrequests other (List.mem_cons_of_mem _ hother)) hfirst

end Session

end StateLexer
