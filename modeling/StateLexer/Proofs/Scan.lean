import StateLexer.Proofs.Session.Answers

/-!
# One scan, however it is consumed

An input can be scanned all at once (`Lexer.scan`), bit by bit (`TokenStream`), by a
session that is asked for this and that, or by the consumer itself (`Session.run`).
Each of them is a session that follows the unbroken scan of the input, and so all
of them yield the tokens of that scan, and end as it does.

* `scans`, `tells_take`, `tells_run`: the ways to scan without requests;
* `delivery_unbroken`: all of them together, with the requests of a session.
-/

namespace StateLexer

variable {n : Nat} {lexer : Lexer n} {settings : Settings} {input : ByteArray}

/-! ## The ways to scan -/

/-- An iteration, made when no tokens have been taken yet, tells of the unbroken
    scan: its tokens are the first of that scan, and its end is why there are no
    more of them. -/
structure Iteration.Tells (lexer : Lexer n) (settings : Settings) (input : ByteArray)
    (report : Fault → ScanError) (limit : Option Nat) (i : Iteration) : Prop where
  emits : ∀ k t, i.tokens[k]? = some t → lexer.Emits settings input k t
  length_le : ∀ m ∈ limit, i.tokens.length ≤ m
  ending : i.ending.Tells lexer settings input report limit i.tokens.length i.tokens

/-- What a scan all at once tells, and the session that it leaves: the end of the
    unbroken scan behind its tokens `ts`, none of which is an error token if the scan
    is strict, or else the first of them that is. It tells nothing of a scan without
    an end, nor, where the time to wait for the producer has no limit, of one that
    stays in a call behind its first error token; of any other it does. -/
inductive Scans (lexer : Lexer n) (settings : Settings) (strict : Bool) (file : Option String)
    (input : ByteArray) : Reply (List Token) × Session n → Prop
  | clean {ts : List Token} {s : Session n} (taken_eq : s.taken.toList = ts)
      (valid : strict = true → ∀ t ∈ ts, t.kind ≠ .error)
      (ends : lexer.EndsWith settings input ts none) :
      Scans lexer settings strict file input (.value ts, s)
  | failed {ts : List Token} {fault : Fault} {s : Session n} (taken_eq : s.taken.toList = ts)
      (valid : strict = true → ∀ t ∈ ts, t.kind ≠ .error)
      (ends : lexer.EndsWith settings input ts (some fault)) :
      Scans lexer settings strict file input (.error (.failed fault), s)
  | invalid {ts : List Token} {t : Token} {s : Session n} (taken_eq : s.taken.toList = ts ++ [t])
      (valid : ∀ t ∈ ts, t.kind ≠ .error) (strict_eq : strict = true) (kind_eq : t.kind = .error)
      (emits : ∀ i x, (ts ++ [t])[i]? = some x → lexer.Emits settings input i x)
      (leaves : settings.joinTimeout = none → ¬lexer.StaysInCall settings input (ts ++ [t])) :
      Scans lexer settings strict file input
        (.error (.invalidToken (.ofToken input file t)), s)
  | never {s : Session n} (endless : lexer.Endless settings input)
      (valid : strict = true → ∀ k t, lexer.Emits settings input k t → t.kind ≠ .error) :
      Scans lexer settings strict file input (.never, s)
  | waits {ts : List Token} {t : Token} {s : Session n}
      (valid : ∀ t ∈ ts, t.kind ≠ .error) (strict_eq : strict = true) (kind_eq : t.kind = .error)
      (limit_eq : settings.joinTimeout = none)
      (stays : lexer.StaysInCall settings input (ts ++ [t])) :
      Scans lexer settings strict file input (.never, s)

theorem scans (lexer : Lexer n) (settings : Settings) (strict : Bool) (file : Option String)
    (input : ByteArray) :
    Scans lexer settings strict file input (lexer.scan settings strict file input) := by
  obtain ⟨h, htaken⟩ := Session.follows_launch lexer settings true input
  have hbackground : ((Session.new lexer settings).launch true input).background = true :=
    congrArg (·.2.1) (Session.untouched_launch (Session.new lexer settings) true input)
  rw [Lexer.scan]
  simp only
  generalize (Session.new lexer settings).launch true input = s at *
  rw [← s.background_collect true (fun t => strict && t.kind = .error) s.tokenBound #[]]
    at hbackground
  obtain ⟨ts, htokens, hwanted, -, hfollows, hcollected⟩ :=
    Session.collected true (fun t => strict && t.kind = .error) s.tokenBound #[] h
  generalize s.collect true (fun t => strict && t.kind = .error) s.tokenBound #[] = session at *
  obtain ⟨⟨tokens, stop⟩, s'⟩ := session
  have hts : tokens.toList = ts := htokens
  have hvalid (hstrict : strict = true) : ∀ t ∈ ts, t.kind ≠ .error := fun t ht => by
    simpa [hstrict] using hwanted t ht
  simp only at hfollows hcollected
  cases hcollected with
  | ended taken_eq ends =>
    rw [htaken] at taken_eq
    have hall : s'.taken.toList = ts := taken_eq
    simp only
    split
    · next fault hfailure =>
      rw [hall, hfailure] at ends
      -- A session that is left by an error takes no more tokens.
      exact .failed (by rw [Session.taken_abandon, hall]) hvalid ends
    · next hfailure =>
      rw [hfailure] at ends
      have hclose := Session.taken_close_of_endsWith hfollows ends
      rw [hall] at ends
      rw [hts]
      exact .clean (by rw [hclose, hall]) hvalid ends
  | enough taken_eq length_eq =>
    have hlen : s'.tokenBound ≤ s'.taken.toList.length := by
      rw [h.tokenBound_eq hfollows, taken_eq, List.length_append, length_eq]
      exact Nat.le_add_left _ _
    rw [htaken] at taken_eq
    have hall : s'.taken.toList = ts := taken_eq
    exact .never (hfollows.endless hlen) fun hstrict k t hemits =>
      hfollows.forall_emits hlen (hall.symm ▸ hvalid hstrict) hemits
  | @unwanted t taken_eq unwanted_eq =>
    obtain ⟨hstrict, hkind⟩ := Bool.and_eq_true_iff.1 unwanted_eq
    rw [htaken] at taken_eq
    have hall : s'.taken.toList = ts ++ [t] := taken_eq
    have hkind : t.kind = .error := by simpa using hkind
    have hgiven := congrArg Array.toList (Session.taken_abandon s')
    have hnever := hfollows.abandon_eq_never_iff hbackground
    rw [hall] at hgiven hnever
    simp only
    split
    · next heq =>
      obtain ⟨hlimit, hstays⟩ := hnever.1 (by rw [heq])
      exact .waits (hvalid hstrict) hstrict hkind hlimit hstays
    · next hanswered heq =>
      rw [heq] at hgiven hnever
      exact .invalid hgiven (hvalid hstrict) hstrict hkind
        (fun i x hi => hfollows.emits (hall ▸ hi))
        fun hlimit hstays => hanswered (hnever.2 ⟨hlimit, hstays⟩)
  | silence taken_eq silent =>
    rw [htaken] at taken_eq
    have hall : s'.taken.toList = ts := taken_eq
    refine .never silent.endless fun hstrict k t hemits => hvalid hstrict t ?_
    exact hall ▸ List.mem_of_getElem? (silent.emits_iff.1 hemits)

/-- A scan that is not strict yields all tokens, or the failure behind them. -/
theorem exhausts_scan (lexer : Lexer n) (settings : Settings) (file : Option String)
    (input : ByteArray) :
    Session.Exhausts lexer settings input (lexer.scan settings false file input).2.taken.toList
      (lexer.scan settings false file input).2.taken.toList
      (lexer.scan settings false file input).1 := by
  have hscans := scans lexer settings false file input
  generalize lexer.scan settings false file input = scan at *
  cases hscans with
  | clean taken_eq valid ends =>
    rw [← taken_eq] at ends ⊢
    exact .clean ends
  | failed taken_eq valid ends =>
    rw [← taken_eq] at ends
    exact .failed ends
  | invalid taken_eq valid strict_eq => simp at strict_eq
  | never endless => exact .never endless
  | waits valid strict_eq => simp at strict_eq

/-- If the unbroken scan ends without a failure, its tokens are the answer. -/
theorem scan_of_endsWith {ts : List Token} (file : Option String)
    (h : lexer.EndsWith settings input ts none) :
    (lexer.scan settings false file input).1 = .value ts := by
  have hexhausts := exhausts_scan lexer settings file input
  generalize (lexer.scan settings false file input).1 = reply at *
  cases hexhausts with
  | clean ends => rw [(ends.unique h).1]
  | failed ends => simpa using (ends.unique h).2
  | never endless => exact absurd h (endless _ _)

/-- A scan bit by bit is an iteration over a session of its own. -/
theorem take_unopened (lexer : Lexer n) (settings : Settings) (limit : Option Nat)
    (input : ByteArray) :
    ((TokenStream.unopened lexer input).take settings limit).1 =
      (((Session.new lexer settings).launch true input).iterate limit).1 := by
  rw [TokenStream.take]
  split
  · next hlimit => rw [Session.iterate, if_pos hlimit]
  · simp only [TokenStream.after]
    split <;> rfl

/-- A scan bit by bit yields the first tokens, up to the limit if there is one. -/
theorem tells_take (lexer : Lexer n) (settings : Settings) (limit : Option Nat)
    (input : ByteArray) :
    ((TokenStream.unopened lexer input).take settings limit).1.Tells lexer settings input
      .failed limit := by
  obtain ⟨h, htaken⟩ := Session.follows_launch lexer settings true input
  obtain ⟨hfollows, hlength, htokens, htells⟩ := Session.follows_iterate limit h
  rw [htaken, List.nil_append] at htokens
  rw [htokens] at htells
  rw [take_unopened]
  refine ⟨fun k t hk => hfollows.emits ?_, hlength, htells⟩
  rwa [htokens]

/-- A limit on the tokens is the only reason why there are fewer than all. -/
theorem Iteration.Tells.getElem?_iff {report : Fault → ScanError} {m : Nat} {i : Iteration}
    (h : i.Tells lexer settings input report (some m)) (k : Nat) (t : Token) :
    i.tokens[k]? = some t ↔ k < m ∧ lexer.Emits settings input k t := by
  have hle := h.length_le m rfl
  refine ⟨fun hk => ⟨?_, h.emits k t hk⟩, fun ⟨hlt, hemits⟩ => ?_⟩
  · obtain ⟨hlt, -⟩ := List.getElem?_eq_some_iff.1 hk
    omega
  · have hending := h.ending
    generalize i.ending = ending at hending
    cases ending with
    | done => exact Lexer.EndsWith.emits_iff hending |>.1 hemits
    | more =>
      have hlength : m = i.tokens.length := Option.some.inj hending
      have hk := List.getElem?_eq_getElem (l := i.tokens) (hlength ▸ hlt)
      rw [hk, (h.emits k _ hk).unique hemits]
    | failed e =>
      obtain ⟨fault, -, hend⟩ := hending
      exact hend.emits_iff.1 hemits
    | never =>
      rcases hending with hsilent | ⟨hnone, -⟩
      · exact hsilent.emits_iff.1 hemits
      · simp at hnone

/-- A scan that the consumer runs itself yields all tokens, and a failure behind them
    as it is. -/
theorem tells_run (lexer : Lexer n) (settings : Settings) (input : ByteArray) :
    ((Session.new lexer settings).run input).1.Tells lexer settings input .raised none ∧
      ((Session.new lexer settings).run input).2.taken.toList =
        ((Session.new lexer settings).run input).1.tokens := by
  obtain ⟨h, htaken⟩ := Session.follows_launch lexer settings false input
  have hrun : (Session.new lexer settings).run input =
      (let s := (Session.new lexer settings).launch false input
       let collected := s.collect false (fun _ => false) s.tokenBound #[]
       (collected.1.toIteration none collected.2.failure .raised, collected.2)) := rfl
  rw [hrun]
  generalize (Session.new lexer settings).launch false input = s at *
  obtain ⟨new, htokens, -, -, hfollows, hcollected⟩ :=
    Session.collected false (fun _ => false) s.tokenBound #[] h
  obtain ⟨hnew, htaken', htells⟩ := Session.tells_toIteration .raised none hfollows htokens
    (h.tokenBound_eq hfollows) hcollected
  rw [htaken, List.nil_append] at htaken'
  rw [htaken'] at htells
  refine ⟨⟨fun k t hk => hfollows.emits ?_, fun m hm => ?_, ?_⟩, ?_⟩
  · rw [hnew] at hk
    rwa [htaken']
  · simp at hm
  · rwa [hnew]
  · rw [hnew]
    exact htaken'

/-- An iteration without a limit fails if, and only if, the unbroken scan does. -/
theorem IterationEnd.Tells.failed_iff {report : Fault → ScanError} {count : Nat}
    {ts : List Token} {ending : IterationEnd} (hinj : ∀ f f', report f = report f' → f = f')
    (h : ending.Tells lexer settings input report none count ts) (fault : Fault) :
    ending = .failed (report fault) ↔ ∃ ts, lexer.EndsWith settings input ts (some fault) := by
  constructor
  · rintro rfl
    obtain ⟨fault', hreport, hend⟩ := h
    exact ⟨ts, hinj _ _ hreport ▸ hend⟩
  · rintro ⟨ts', hend⟩
    cases ending with
    | done => simpa using (Lexer.EndsWith.unique h hend).2
    | more => simp [IterationEnd.Tells] at h
    | failed e =>
      obtain ⟨fault', rfl, hend'⟩ := h
      rw [Option.some.inj (hend'.unique hend).2]
    | never =>
      rcases h with hsilent | ⟨-, hendless⟩
      · exact absurd hend hsilent.not_endsWith
      · exact absurd hend (hendless _ _)

/-- Taking all tokens fails if, and only if, the unbroken scan does. -/
theorem Session.Exhausts.failed_iff {α : Type} {clean : α} {all : List Token} {reply : Reply α}
    (h : Session.Exhausts lexer settings input all clean reply) (fault : Fault) :
    reply = .error (.failed fault) ↔ ∃ ts, lexer.EndsWith settings input ts (some fault) := by
  cases h with
  | clean ends =>
    refine ⟨fun heq => by simp at heq, fun ⟨ts, hend⟩ => ?_⟩
    simpa using (ends.unique hend).2
  | @failed fault' ends =>
    refine ⟨fun heq => ⟨all, ?_⟩, fun ⟨ts, hend⟩ => ?_⟩
    · simp only [Reply.error.injEq, ScanError.failed.injEq] at heq
      rwa [← heq]
    · rw [Option.some.inj (ends.unique hend).2]
  | never endless => exact ⟨fun heq => by simp at heq, fun ⟨ts, hend⟩ => absurd hend (endless _ _)⟩

/-- A scan that the consumer runs itself fails as one does that is drained. -/
theorem run_failed_iff (lexer : Lexer n) (settings : Settings) (input : ByteArray)
    (fault : Fault) :
    ((Session.new lexer settings).run input).1.ending = .failed (.raised fault) ↔
      ((Session.new lexer settings).start input).2.drain.1 = .error (.failed fault) := by
  obtain ⟨-, new, -, hdrain⟩ :=
    Session.follows_drain (Session.follows_launch lexer settings true input).1
  have hstart : ((Session.new lexer settings).start input).2 =
      (Session.new lexer settings).launch true input := rfl
  have hinj (f f' : Fault) (h : ScanError.raised f = .raised f') : f = f' := by
    simpa using h
  rw [hstart, hdrain.failed_iff]
  exact (tells_run lexer settings input).1.ending.failed_iff hinj fault

/-! ## All of them -/

/-- What a session does is told by the unbroken scan: what it has taken so far, what
    it answers to any request, and what there is to take next. -/
structure Session.Delivers (lexer : Lexer n) (settings : Settings) (input : ByteArray)
    (s : Session n) : Prop where
  emits : ∀ k t, s.taken[k]? = some t → lexer.Emits settings input k t
  told : ∀ request, ∃ new, (s.perform request).2.taken.toList = s.taken.toList ++ new ∧
    request.Told lexer settings input s.taken.toList new (s.perform request).1
  next_token : ∀ limit t, lexer.Emits settings input s.taken.size t →
    (s.perform (.next limit)).1 = .token t ∧
      (s.perform (.next limit)).2.taken = s.taken.push t
  next_ended : ∀ limit failure, lexer.EndsWith settings input s.taken.toList failure →
    s.perform (.next limit) = (.error (failure.elim .exhausted .failed), s)

theorem Session.Follows.delivers {s : Session n} (h : s.Follows lexer settings input) :
    s.Delivers lexer settings input where
  emits k t hk := h.emits (by rwa [Array.getElem?_toList])
  told request := Session.told_perform request h
  next_token limit t hemits := by
    obtain ⟨hanswer, -, htaken⟩ := Session.next_of_emits limit h hemits
    exact ⟨by simp [Session.perform, hanswer, Reply.toAnswer], htaken⟩
  next_ended limit failure hend := by
    simp [Session.perform, Session.next_of_endsWith limit h hend, Reply.toAnswer]

/-- The tokens of a scan do not depend on how they are consumed. Whatever has been
    asked of a session that has started, short of cancelling it, goes on to deliver
    the unbroken scan; and so do a scan all at once, one bit by bit, and one that
    the consumer runs itself, which fails exactly when draining a session does. -/
theorem delivery_unbroken (lexer : Lexer n) (settings : Settings) (input : ByteArray) :
    ((Session.new lexer settings).start input).1 = .value () ∧
      (∀ requests : List (Request n), (∀ request ∈ requests, request.cancels = false) →
        Session.Delivers lexer settings input
          (((Session.new lexer settings).start input).2.performAll requests).2) ∧
      (∀ file, Session.Exhausts lexer settings input
        (lexer.scan settings false file input).2.taken.toList
        (lexer.scan settings false file input).2.taken.toList
        (lexer.scan settings false file input).1) ∧
      (∀ limit, ((TokenStream.unopened lexer input).take settings limit).1.Tells lexer settings
        input .failed limit) ∧
      (∀ m k t, ((TokenStream.unopened lexer input).take settings (some m)).1.tokens[k]? = some t ↔
        k < m ∧ lexer.Emits settings input k t) ∧
      ((Session.new lexer settings).run input).1.Tells lexer settings input .raised none ∧
      ((Session.new lexer settings).run input).2.taken.toList =
        ((Session.new lexer settings).run input).1.tokens ∧
      ∀ fault, ((Session.new lexer settings).run input).1.ending = .failed (.raised fault) ↔
        ((Session.new lexer settings).start input).2.drain.1 = .error (.failed fault) := by
  obtain ⟨hrun, htaken⟩ := tells_run lexer settings input
  refine ⟨rfl, fun requests hrequests => ?_, fun file => exhausts_scan lexer settings file input,
    fun limit => tells_take lexer settings limit input,
    fun m k t => (tells_take lexer settings (some m) input).getElem?_iff k t, hrun, htaken,
    run_failed_iff lexer settings input⟩
  have hstart := (Session.follows_launch lexer settings true input).1
  exact (Session.follows_performAll requests hrequests hstart).delivers

/-- A session of the standard lexer that has been asked for a token, and then for the
    rest, delivers. -/
theorem delivers_standard_next_drain :
    (∀ request ∈ ([.next none, .drain] : List (Request 0)), request.cancels = false) ∧
      Session.Delivers Lexer.standard {} "a b".toUTF8
        (((Session.new Lexer.standard {}).start "a b".toUTF8).2.performAll
          [.next none, .drain]).2 :=
  ⟨by decide, (delivery_unbroken Lexer.standard {} "a b".toUTF8).2.1 _ (by decide)⟩

end StateLexer
