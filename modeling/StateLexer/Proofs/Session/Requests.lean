import StateLexer.Proofs.Session.Answers

/-!
# What is asked of a session

All requests to a session that has been started are made of a few moves: to take a
token, to look at it, to write in the journal, and to cancel. What these keep, every
request keeps (`Kept.perform`).

A session is *idle* until it gets the first request that names an input
(`Request.source?`). Until then nothing that is asked of it changes it, except that
it can be cancelled (`performAll_idle`). So whatever is asked of a new session, its
scan begins in an idle one (`exists_opening`), and if it is not cancelled, it follows
the unbroken scan of that input (`follows_after`).
-/

namespace StateLexer

variable {n : Nat} {lexer : Lexer n} {settings : Settings} {input : ByteArray}

/-- The input whose scan the request begins, if it does. -/
def Request.source? : Request n → Option ByteArray
  | start input => some input
  | run input => some input
  | _ => none

namespace Session

/-! ## Several requests -/

/-- A new session after the requests. -/
abbrev after (lexer : Lexer n) (settings : Settings) (requests : List (Request n)) : Session n :=
  ((new lexer settings).performAll requests).2

/-- Requests can be cut at any place. -/
theorem performAll_append (s : Session n) (first second : List (Request n)) :
    s.performAll (first ++ second) =
      ((s.performAll first).1 ++ ((s.performAll first).2.performAll second).1,
        ((s.performAll first).2.performAll second).2) := by
  induction first generalizing s with
  | nil => rfl
  | cons request first ih => simp [performAll, ih]

/-- What a request keeps, several of them keep. -/
theorem performAll_induction {P : Session n → Prop} (requests : List (Request n))
    (hperform : ∀ request ∈ requests, ∀ s, P s → P (s.perform request).2) {s : Session n}
    (h : P s) : P (s.performAll requests).2 := by
  induction requests generalizing s with
  | nil => exact h
  | cons request requests ih =>
    have hfirst := hperform request List.mem_cons_self s h
    exact ih (fun other hother => hperform other (List.mem_cons_of_mem _ hother)) hfirst

/-! ## What requests are made of -/

/-- The moves that requests to a session that has been started are made of, but for
    `cancel`, keep `P`. -/
structure Kept (P : Session n → Prop) : Prop where
  isStarted : ∀ s, P s → s.isStarted = true
  receive : ∀ s, P s → P s.receive.2
  look : ∀ s pos, P s → P { s with lastPos := pos }
  write : ∀ s notice, P s → P (s.write .consumer notice)

variable {P : Session n → Prop} {s : Session n}

theorem Kept.collect (hP : Kept P) (looks : Bool) (unwanted : Token → Bool) (limit : Nat)
    (tokens : Array Token) (h : P s) : P (s.collect looks unwanted limit tokens).2 :=
  collect_induction hP.receive hP.look looks unwanted limit tokens h

theorem Kept.next (hP : Kept P) (limit : Option Seconds) (h : P s) : P (s.next limit).2 := by
  have hreceive := hP.receive s h
  rw [Session.next, if_neg (by simp [hP.isStarted s h])]
  generalize s.receive = received at hreceive ⊢
  obtain ⟨receipt, s'⟩ := received
  cases receipt with
  | token t => exact hP.look s' _ hreceive
  | ended => exact hreceive
  | silence => cases limit <;> exact hreceive

theorem Kept.iterate (hP : Kept P) (limit : Option Nat) (h : P s) : P (s.iterate limit).2 := by
  rw [Session.iterate]
  split
  · exact h
  · rw [if_neg (by simp [hP.isStarted s h])]
    exact hP.collect _ _ _ _ h

theorem Kept.drain (hP : Kept P) (h : P s) : P s.drain.2 := by
  have hcollect := hP.collect false (fun _ => false) s.tokenBound #[] h
  rw [Session.drain, if_neg (by simp [hP.isStarted s h])]
  generalize s.collect false (fun _ => false) s.tokenBound #[] = session at hcollect ⊢
  obtain ⟨⟨tokens, stop⟩, s'⟩ := session
  cases stop with
  | ended => exact hP.write s' _ hcollect
  | _ => exact hcollect

theorem Kept.join (hP : Kept P) (limit : Option Seconds) (h : P s) : P (s.join limit).2 := by
  rw [Session.join]
  split
  · exact h
  · split
    · exact h
    · exact hP.write s _ h

theorem Kept.close (hP : Kept P) (h : P s) : P s.close.2 := by
  have hdrain := hP.drain h
  rw [Session.close]
  generalize s.drain = session at hdrain ⊢
  obtain ⟨reply, s'⟩ := session
  cases reply with
  | value k =>
    have hjoin := hP.join none hdrain
    simp only at hjoin ⊢
    generalize s'.join none = session' at hjoin ⊢
    obtain ⟨reply', s''⟩ := session'
    cases reply' <;> exact hjoin
  | error e => exact hdrain
  | never => exact hdrain

/-- What the moves keep, every request keeps. -/
theorem Kept.perform (hP : Kept P) (request : Request n)
    (hcancel : request.cancels = true → ∀ s, P s → P s.cancel) (h : P s) :
    P (s.perform request).2 := by
  have hstarted := hP.isStarted s h
  cases request with
  | start input => simpa [Session.perform, start, hstarted] using h
  | run input => simpa [Session.perform, run, hstarted] using h
  | next limit => exact hP.next limit h
  | iterate limit => exact hP.iterate limit h
  | drain => exact hP.drain h
  | cancel => exact hcancel rfl s h
  | join limit => exact hP.join limit h
  | close => exact hP.close h
  | enter => exact h
  | leave => exact hP.close h
  | abandon =>
    have hjoin := hP.join none (hcancel rfl s h)
    simp only [Session.perform, abandon]
    generalize s.cancel.join none = session at hjoin ⊢
    obtain ⟨reply, s'⟩ := session
    cases reply <;> exact hjoin
  | resolve target => exact h

/-! ## Idle sessions -/

/-- A session that has not been started, and may have been cancelled. -/
def idle (lexer : Lexer n) (settings : Settings) (cancelled : Bool) : Session n :=
  { new lexer settings with channel := { cancelled } }

theorem perform_idle {cancelled : Bool} {request : Request n} (h : request.source? = none) :
    ((idle lexer settings cancelled).perform request).2 =
      idle lexer settings (cancelled || request.cancels) := by
  cases request with
  | start input => simp [Request.source?] at h
  | run input => simp [Request.source?] at h
  | cancel =>
    simp only [Request.cancels, Bool.or_true]
    rfl
  | abandon =>
    simp only [Request.cancels, Bool.or_true]
    rfl
  | iterate limit =>
    simp only [Request.cancels, Bool.or_false, perform, iterate]
    split <;> rfl
  | _ =>
    simp only [Request.cancels, Bool.or_false]
    rfl

/-- Before an input is named, a session stays idle. -/
theorem performAll_idle (lexer : Lexer n) (settings : Settings) (requests : List (Request n))
    (cancelled : Bool) (h : ∀ request ∈ requests, request.source? = none) :
    ((idle lexer settings cancelled).performAll requests).2 =
      idle lexer settings (cancelled || requests.any Request.cancels) := by
  induction requests generalizing cancelled with
  | nil => simp [performAll]
  | cons request requests ih =>
    simp only [performAll, perform_idle (h request List.mem_cons_self)]
    rw [ih _ fun other hother => h other (List.mem_cons_of_mem _ hother), List.any_cons,
      Bool.or_assoc]

/-- The scan of a session begins, in an idle one, with the first request that names
    an input. -/
theorem exists_opening (lexer : Lexer n) (settings : Settings) {requests : List (Request n)}
    (h : requests.findSome? Request.source? = some input) :
    ∃ before opening behind, requests = before ++ opening :: behind ∧
      opening.source? = some input ∧
      after lexer settings requests =
        (((idle lexer settings (before.any Request.cancels)).perform opening).2.performAll
          behind).2 := by
  obtain ⟨before, opening, behind, rfl, hopening, hbefore⟩ := List.findSome?_eq_some_iff.1 h
  refine ⟨before, opening, behind, rfl, hopening, ?_⟩
  rw [after, performAll_append]
  have hidle := performAll_idle lexer settings before false hbefore
  rw [Bool.false_or] at hidle
  rw [← hidle]
  rfl

/-- The scan that a request begins follows the unbroken scan. -/
theorem follows_opening {opening : Request n} (h : opening.source? = some input) :
    ((new lexer settings).perform opening).2.Follows lexer settings input := by
  cases opening with
  | start input' =>
    obtain rfl := Option.some.inj h
    exact (follows_launch lexer settings true input').1
  | run input' =>
    obtain rfl := Option.some.inj h
    obtain ⟨-, -, -, -, hfollows, -⟩ := collected false (fun _ => false)
      ((new lexer settings).launch false input').tokenBound #[]
      (follows_launch lexer settings false input').1
    exact hfollows
  | _ => simp [Request.source?] at h

/-- A session that is not cancelled follows the unbroken scan of the first input that
    it is asked to scan. -/
theorem follows_after (lexer : Lexer n) (settings : Settings) {requests : List (Request n)}
    (hsource : requests.findSome? Request.source? = some input)
    (hrequests : ∀ request ∈ requests, request.cancels = false) :
    (after lexer settings requests).Follows lexer settings input := by
  obtain ⟨before, opening, behind, rfl, hopening, hsession⟩ := exists_opening lexer settings hsource
  have hbefore : before.any Request.cancels = false :=
    List.any_eq_false.2 fun request hrequest => by
      simp [hrequests request (List.mem_append_left _ hrequest)]
  rw [hsession, hbefore]
  refine follows_performAll behind (fun request hrequest => ?_) (follows_opening hopening)
  exact hrequests request (List.mem_append_right _ (List.mem_cons_of_mem _ hrequest))

end Session

end StateLexer
