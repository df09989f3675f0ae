import StateLexer.Proofs.Session.Requests

/-!
# Requests out of place

A request can come too late, if it begins a scan where there is one, or too early, if
it is about a scan where there is none (`Request.isMisplaced`). Then it is told so, and
changes nothing (`perform_of_isMisplaced`), and otherwise it is not (`isMisuse_perform`).
-/

namespace StateLexer

variable {n : Nat}

/-- The request came too early or too late. -/
def ScanError.isMisuse : ScanError → Bool
  | alreadyStarted => true
  | notStarted => true
  | _ => false

/-- The reply says that the request came too early or too late. -/
def Reply.isMisuse {α : Type} : Reply α → Bool
  | error e => e.isMisuse
  | _ => false

/-- The answer says that the request came too early or too late. -/
def Answer.isMisuse : Answer n → Bool
  | error e => e.isMisuse
  | tokens { ending := .failed e, .. } => e.isMisuse
  | _ => false

/-- The request is about a scan that has been started. -/
def Request.needsScan : Request n → Bool
  | next _ => true
  | iterate limit => limit ≠ some 0
  | drain => true
  | close => true
  | enter => true
  | leave => true
  | _ => false

/-- The request is out of place in the session: it begins a scan where there is one, or is
    about one where there is none. -/
def Request.isMisplaced (request : Request n) (s : Session n) : Bool :=
  if s.isStarted then request.source?.isSome else request.needsScan

theorem Reply.isMisuse_toAnswer {α : Type} {f : α → Answer n} (hf : ∀ a, (f a).isMisuse = false)
    (reply : Reply α) : (reply.toAnswer f).isMisuse = reply.isMisuse := by
  cases reply with
  | value a => exact hf a
  | error e => rfl
  | never => rfl

theorem Harvest.isMisuse_toIteration {report : Fault → ScanError}
    (hreport : ∀ fault, (report fault).isMisuse = false) (h : Harvest) (limit : Option Nat)
    (failure : Option Fault) :
    (Answer.tokens (h.toIteration limit failure report) : Answer n).isMisuse = false := by
  obtain ⟨tokens, stop⟩ := h
  cases stop with
  | ended =>
    cases failure with
    | none => rfl
    | some fault => exact hreport fault
  | enough => cases limit <;> rfl
  | unwanted t => rfl
  | silence => rfl

namespace Session

variable {s : Session n}

theorem isMisuse_conclude {α : Type} (s : Session n) {clean : Reply α}
    (h : clean.isMisuse = false) : (s.conclude clean).isMisuse = false := by
  rw [conclude]
  split
  · rfl
  · exact h

/-- A request that is out of place is told so, and changes nothing. -/
theorem perform_of_isMisplaced {request : Request n} (h : request.isMisplaced s = true) :
    (s.perform request).1.isMisuse = true ∧ (s.perform request).2 = s := by
  rw [Request.isMisplaced] at h
  split at h
  · next hstarted =>
    cases request with
    | start input =>
      rw [perform, start, if_pos hstarted]
      exact ⟨rfl, rfl⟩
    | run input =>
      rw [perform, run, if_pos hstarted]
      exact ⟨rfl, rfl⟩
    | _ => simp [Request.source?] at h
  · next hstarted =>
    have hidle : (!s.isStarted) = true := by simpa using hstarted
    cases request with
    | next limit =>
      rw [perform, next, if_pos hidle]
      exact ⟨rfl, rfl⟩
    | iterate limit =>
      rw [perform, iterate, if_neg (by simpa [Request.needsScan] using h), if_pos hidle]
      exact ⟨rfl, rfl⟩
    | drain =>
      rw [perform, drain, if_pos hidle]
      exact ⟨rfl, rfl⟩
    | close =>
      rw [perform, close, drain, if_pos hidle]
      exact ⟨rfl, rfl⟩
    | leave =>
      rw [perform, close, drain, if_pos hidle]
      exact ⟨rfl, rfl⟩
    | enter =>
      rw [perform, enter, if_neg hstarted]
      exact ⟨rfl, rfl⟩
    | _ => simp [Request.needsScan] at h

theorem isMisuse_next (limit : Option Seconds) (h : s.isStarted = true) :
    (s.next limit).1.isMisuse = false := by
  rw [next, if_neg (by simp [h])]
  split
  · rfl
  · exact isMisuse_conclude _ rfl
  · cases limit <;> rfl

theorem isMisuse_iterate (limit : Option Nat) (h : s.isStarted = true ∨ limit = some 0) :
    (Answer.tokens (s.iterate limit).1 : Answer n).isMisuse = false := by
  rw [iterate]
  split
  · rfl
  · next hlimit =>
    rw [if_neg (by simp [h.resolve_right hlimit])]
    exact Harvest.isMisuse_toIteration (fun _ => rfl) _ _ _

theorem isMisuse_run (input : ByteArray) (h : s.isStarted = false) :
    (Answer.tokens (s.run input).1 : Answer n).isMisuse = false := by
  rw [run, if_neg (by simp [h])]
  exact Harvest.isMisuse_toIteration (fun _ => rfl) _ _ _

theorem isMisuse_drain (h : s.isStarted = true) : s.drain.1.isMisuse = false := by
  rw [drain, if_neg (by simp [h])]
  split
  · exact isMisuse_conclude _ rfl
  · rfl

theorem isMisuse_close (h : s.isStarted = true) : s.close.1.isMisuse = false := by
  have hdrain := isMisuse_drain h
  rw [close]
  generalize s.drain = session at hdrain ⊢
  obtain ⟨reply, s'⟩ := session
  cases reply with
  | value k =>
    simp only
    split <;> rfl
  | error e => exact hdrain
  | never => rfl

theorem isMisuse_join (s : Session n) (limit : Option Seconds) :
    (s.join limit).1.isMisuse = false := by
  rw [join]
  split
  · rfl
  · split <;> rfl

theorem isMisuse_abandon (s : Session n) : s.abandon.1.isMisuse = false := by
  rw [abandon]
  split <;> rfl

/-- A request is told that it is out of place only if it is. -/
theorem isMisuse_perform {request : Request n} (h : request.isMisplaced s = false) :
    (s.perform request).1.isMisuse = false := by
  have htoAnswer {α : Type} {f : α → Answer n} (hf : ∀ a, (f a).isMisuse = false)
      {reply : Reply α} (hreply : reply.isMisuse = false) : (reply.toAnswer f).isMisuse = false :=
    (Reply.isMisuse_toAnswer hf reply).trans hreply
  cases hstarted : s.isStarted with
  | true =>
    rw [Request.isMisplaced, if_pos hstarted] at h
    cases request with
    | start input => simp [Request.source?] at h
    | run input => simp [Request.source?] at h
    | next limit => exact htoAnswer (fun _ => rfl) (isMisuse_next limit hstarted)
    | iterate limit => exact isMisuse_iterate limit (.inl hstarted)
    | drain => exact htoAnswer (fun _ => rfl) (isMisuse_drain hstarted)
    | cancel => rfl
    | join limit => exact htoAnswer (fun _ => rfl) (isMisuse_join s limit)
    | close => exact htoAnswer (fun _ => rfl) (isMisuse_close hstarted)
    | enter =>
      rw [perform, enter, if_pos hstarted]
      rfl
    | leave => exact htoAnswer (fun _ => rfl) (isMisuse_close hstarted)
    | abandon => exact htoAnswer (fun _ => rfl) (isMisuse_abandon s)
    | resolve target => rfl
  | false =>
    rw [Request.isMisplaced, if_neg (by simp [hstarted])] at h
    cases request with
    | start input =>
      rw [perform, start, if_neg (by simp [hstarted])]
      rfl
    | run input => exact isMisuse_run input hstarted
    | iterate limit => exact isMisuse_iterate limit (.inr (by simpa [Request.needsScan] using h))
    | cancel => rfl
    | join limit => exact htoAnswer (fun _ => rfl) (isMisuse_join s limit)
    | abandon => exact htoAnswer (fun _ => rfl) (isMisuse_abandon s)
    | resolve target => rfl
    | _ => simp [Request.needsScan] at h

end Session

end StateLexer
