import StateLexer.Proofs.Channel.Rest
import StateLexer.Proofs.Channel.Monitor

/-!
# Nobody is missed at a channel

Where all rest, a token that waits and somebody who waits for one do not miss each other:
at most one sender is blocked, and it is the one whose token waits; receivers are blocked
only where there is no token, but may be one later on. For nobody is left who could go on,
whoever has been woken by whom (`NoneMissed`).

To close a channel does no harm to the token that waits: until somebody receives it, nothing
but a cancellation gets it out of the way (`Runs.waits_behind_close`).
-/

namespace StateLexer.Rendezvous

variable {v v' : Rendezvous} {log between : List Entry} {e : Entry} {parcel : Parcel} {i : Nat}

section Performs

variable {ticket : Nat} {request : Request} {ended : List (Nat × Departure)}

/-- Who receives gets the token that waits. -/
theorem Performs.handed_over (hp : v.Performs ticket request v' ended)
    (hslot : v.channel.slot = some parcel) (hreceives : request.receives = true) :
    (ticket, .received parcel) ∈ ended := by
  cases hp with
  | take _ hslot' hended =>
    obtain rfl := Option.some.inj (hslot.symm.trans hslot')
    exact hended.mem_iff.2 List.mem_cons_self
  | exhausted _ hnone | queue hnone | timeOut hnone => exact absurd (hslot.symm.trans hnone) nofun
  | refuse | wait | displace | meet | close | cancel => exact absurd hreceives nofun

/-- At a closed channel, a token goes on waiting, unless it is received or dropped. -/
theorem Performs.waits (hp : v.Performs ticket request v' ended)
    (hslot : v.channel.slot = some parcel) (hclosed : v.channel.closed = true)
    (hreceives : request.receives = false) :
    v'.channel.slot = some parcel ∨
      request = .cancel ∧ (parcel.1, .refused .cancelled) ∈ ended := by
  have hrefusal : v.channel.refusal ≠ none := fun hnone =>
    absurd (hclosed.symm.trans (Channel.refusal_eq_none_iff.1 hnone).2) nofun
  cases hp with
  | refuse | close => exact .inl hslot
  | wait hnone | displace hnone | meet hnone => exact absurd hnone hrefusal
  | take hreceives' | exhausted hreceives' => exact absurd (hreceives.symm.trans hreceives') nofun
  | queue | timeOut => exact absurd hreceives nofun
  | cancel => exact .inr ⟨rfl, by simp [hslot]⟩

/-- Nobody learns that there is nothing to receive any more, unless it is so. -/
theorem Performs.nothing_left (hp : v.Performs ticket request v' ended) (hv : v.Settled)
    (hexhausted : (i, .exhausted) ∈ ended) : v'.channel.closed = true ∧ v'.channel.slot = none := by
  cases hp with
  | exhausted _ hslot hclosed => exact ⟨hclosed, hslot⟩
  | close =>
    obtain ⟨receiver, hreceiver, -⟩ : ∃ receiver ∈ v.receivers, _ :=
      List.mem_map.1 ((List.mem_cons.1 hexhausted).resolve_left (by simp))
    exact ⟨rfl, hv.slot_eq_none_of_receiver hreceiver⟩
  | meet _ _ _ hended | take _ _ hended =>
    have := hended.mem_iff.1 hexhausted
    simp at this
  | refuse | wait | displace | queue | timeOut | cancel => simp at hexhausted

/-- Who has waited in vain has changed nothing. -/
theorem Performs.in_vain (hp : v.Performs ticket request v' ended)
    (htimedOut : (i, .timedOut) ∈ ended) :
    v' = v ∧ request = .receiveWithin ∧ ended = [(ticket, .timedOut)] := by
  cases hp with
  | timeOut => exact ⟨rfl, rfl, rfl⟩
  | meet _ _ _ hended | take _ _ hended =>
    have := hended.mem_iff.1 htimedOut
    simp at this
  | refuse | wait | displace | exhausted | queue | close | cancel => simp at htimedOut

end Performs

/-- A token that waits when the channel is closed waits on as long as nobody receives it, or
    it has been dropped by a cancellation. -/
theorem Runs.waits_behind_close (h : Runs (log ++ e :: between) v) (hclose : e.request = .close)
    (hslot : e.before.channel.slot = some parcel)
    (hnone : ∀ b ∈ between, b.request.receives = false) :
    v.channel.slot = some parcel ∨
      ∃ b ∈ between, b.request = .cancel ∧ (parcel.1, .refused .cancelled) ∈ b.ended := by
  induction between using List.reverseRecOn generalizing v with
  | nil =>
    obtain ⟨v', -, -, -, -, rfl⟩ := h.of_snoc
    left
    rw [Entry.after, hclose]
    exact hslot
  | append_singleton between b ih =>
    rw [← List.cons_append, ← List.append_assoc] at h
    have hp := h.performs_of_mem (e := b) (by simp)
    obtain ⟨v', hruns, hchannel, -, -, rfl⟩ := h.of_snoc
    rcases ih hruns fun b' hb' => hnone b' (List.mem_append_left _ hb') with hwaits | hdropped
    · have hclosed : b.before.channel.closed = true := by
        rw [hchannel, hruns.closed_iff]
        simp [← hclose]
      exact (hp.waits (hchannel ▸ hwaits) hclosed (hnone b (by simp))).imp_right
        fun hdropped => ⟨b, by simp, hdropped⟩
    · obtain ⟨b', hb', hdropped⟩ := hdropped
      exact .inr ⟨b', List.mem_append_left _ hb', hdropped⟩

/-! ## All of it -/

/-- What holds where all rest. -/
structure NoneMissed (log : List Entry) (v : Rendezvous) : Prop where
  /-- A sender is blocked if and only if its token waits. -/
  blocked_send_iff : ∀ i token,
    Blocked log i (.send token) ↔ v.channel.slot = some (i, token)
  one_blocked_send : ∀ i j token token', Blocked log i (.send token) →
    Blocked log j (.send token') → i = j
  not_cancelled : ∀ i token, Blocked log i (.send token) → v.channel.cancelled = false
  blocked_receive : ∀ i, Blocked log i .receive →
    v.channel.slot = none ∧ v.channel.closed = false
  never_both : ∀ i j token, Blocked log i (.send token) → ¬Blocked log j .receive
  /-- Nobody else is ever blocked. -/
  blocked : ∀ i request, Blocked log i request →
    request = .receive ∨ ∃ token, request = .send token
  /-- The channel never opens again. -/
  stays_closed : ∀ e ∈ log, e.before.channel.closed = true → v.channel.closed = true
  stays_cancelled : ∀ e ∈ log, e.before.channel.cancelled = true → v.channel.cancelled = true
  behind_close : .close ∈ log.map Entry.request →
    v.channel.closed = true ∧ ∀ i, ¬Blocked log i .receive
  behind_cancel : .cancel ∈ log.map Entry.request →
    v.channel.cancelled = true ∧ ∀ i token, ¬Blocked log i (.send token)
  /-- A token that waits when the channel is closed is handed to the next who receives,
      unless a cancellation in between has dropped it. -/
  handed_over : ∀ before e between e' after parcel,
    log = before ++ e :: (between ++ e' :: after) →
    e.request = .close → e.before.channel.slot = some parcel →
    (∀ b ∈ between, b.request.receives = false) → e'.request.receives = true →
    (e'.ticket, .received parcel) ∈ e'.ended ∨
      ∃ b ∈ between, b.request = .cancel ∧ (parcel.1, .refused .cancelled) ∈ b.ended
  /-- Whoever gets nothing does so at a channel that is closed and empty. -/
  exhausted : ∀ e ∈ log, ∀ i, (i, .exhausted) ∈ e.ended →
    e.after.channel.closed = true ∧ e.after.channel.slot = none
  /-- Who has waited in vain has changed nothing. -/
  timedOut : ∀ e ∈ log, ∀ i, (i, .timedOut) ∈ e.ended →
    e.after = e.before ∧ e.request = .receiveWithin ∧ e.ended = [(e.ticket, .timedOut)]

theorem Runs.noneMissed (h : Runs log v) : NoneMissed log v := by
  have hsends (i : Nat) (token : Token) (hi : Blocked log i (.send token)) :
      v.channel.slot = some (i, token) := h.blocked_send_iff.1 hi
  have hreceives (i : Nat) (hi : Blocked log i .receive) :
      v.channel.slot = none ∧ v.channel.closed = false := by
    have hmem := h.blocked_receive_iff.1 hi
    exact ⟨h.settled.slot_eq_none_of_receiver hmem, h.settled.closed_eq_false hmem⟩
  have hwanted (i : Nat) (token : Token) (hi : Blocked log i (.send token)) :
      v.channel.cancelled = false := h.settled.not_cancelled (by simp [hsends i token hi])
  refine {
    blocked_send_iff := fun _ _ => h.blocked_send_iff
    one_blocked_send := fun i j token token' hi hj => ?_
    not_cancelled := hwanted
    blocked_receive := hreceives
    never_both := fun i j token hi hj => ?_
    blocked := fun i request hi => ?_
    stays_closed := fun e he hclosed => ?_
    stays_cancelled := fun e he hcancelled => ?_
    behind_close := fun hclose => ⟨h.closed_iff.2 hclose, fun i hi => ?_⟩
    behind_cancel := fun hcancel => ⟨h.cancelled_iff.2 hcancel, fun i token hi => ?_⟩
    handed_over := fun before e between e' after parcel hlog hclose hslot hnone hreceive => ?_
    exhausted := fun e he i hexhausted => ?_
    timedOut := fun e he i htimedOut => ?_ }
  · exact congrArg Prod.fst (Option.some.inj ((hsends i token hi).symm.trans (hsends j token' hj)))
  · exact absurd ((hsends i token hi).symm.trans (hreceives j hj).1) nofun
  · rcases h.blocked_iff.1 hi with ⟨token, hrequest, -⟩ | ⟨hrequest, -⟩
    · exact .inr ⟨token, hrequest⟩
    · exact .inl hrequest
  · obtain ⟨log', v', hbegins, hruns, hchannel, -⟩ := h.of_mem he
    rw [hchannel, hruns.closed_iff] at hclosed
    exact h.closed_iff.2 ((hbegins.map _).subset (by simp [hclosed]))
  · obtain ⟨log', v', hbegins, hruns, hchannel, -⟩ := h.of_mem he
    rw [hchannel, hruns.cancelled_iff] at hcancelled
    exact h.cancelled_iff.2 ((hbegins.map _).subset (by simp [hcancelled]))
  · exact absurd ((hreceives i hi).2.symm.trans (h.closed_iff.2 hclose)) nofun
  · exact absurd ((hwanted i token hi).symm.trans (h.cancelled_iff.2 hcancel)) nofun
  · have hp := h.performs_of_mem (e := e') (by simp [hlog])
    -- The token has waited up to the place where the log is cut, in front of who receives.
    rw [hlog, ← List.cons_append, ← List.append_assoc, List.append_cons] at h
    obtain ⟨v', hruns⟩ := h.of_append
    obtain ⟨v', hruns, hchannel, -⟩ := hruns.of_snoc
    exact (hruns.waits_behind_close hclose hslot hnone).imp_left
      fun hwaits => hp.handed_over (hchannel ▸ hwaits) hreceive
  · obtain ⟨log', v', -, hruns, hchannel, hperm, -⟩ := h.of_mem he
    exact (h.performs_of_mem he).nothing_left (hruns.settled.of_perm hchannel hperm) hexhausted
  · exact (h.performs_of_mem he).in_vain htimedOut

/-- Behind any requests, nobody is missed where all rest, and however the threads that make
    them take turns, they come to rest like this. -/
theorem none_missed :
    (∀ log v, Runs log v → NoneMissed log v) ∧
      (∀ requests, ∃ m, Monitor.Comes requests m) ∧
      ∀ requests m, Monitor.Comes requests m →
        ∃ log v, Runs log v ∧ log.map Entry.request = requests ∧ m.Recorded log v :=
  ⟨fun _ _ h => h.noneMissed, Monitor.exists_comes, fun _ _ hcomes => hcomes.recorded⟩

/-- A sender is blocked before and behind the closing of the channel, until its token is
    received, and the next who receives learns that there is nothing any more. -/
theorem none_missed_behind_close :
    let token : Token := ⟨.space, 0, " "⟩
    ∃ log v, Runs log v ∧
      log.map Entry.request = [.send token, .close, .receiveWithin, .receiveWithin] ∧
      NoneMissed log v ∧
      (log.map fun e => e.before.channel.slot) = [none, some (0, token), some (0, token), none] ∧
      departures log = [(1, .done), (2, .received (0, token)), (0, .sent), (3, .exhausted)] := by
  intro token
  have hruns := (((Runs.nil.snoc (.send token) (.refl _)).snoc .close (.refl _)).snoc
    .receiveWithin (.refl _)).snoc .receiveWithin (.refl _)
  exact ⟨_, _, hruns, rfl, none_missed.1 _ _ hruns, by decide, by decide⟩

/-- Without that exception it would be wrong: a cancellation behind the closing drops the
    token that has waited, and the next who receives gets nothing. -/
theorem not_handed_over_behind_cancel :
    let token : Token := ⟨.space, 0, " "⟩
    ∃ log v, Runs log v ∧
      log.map Entry.request = [.send token, .close, .cancel, .receiveWithin] ∧
      departures log = [(1, .done), (2, .done), (0, .refused .cancelled), (3, .exhausted)] ∧
      ¬∀ before e between e' after parcel, log = before ++ e :: (between ++ e' :: after) →
        e.request = .close → e.before.channel.slot = some parcel →
        (∀ b ∈ between, b.request.receives = false) → e'.request.receives = true →
        (e'.ticket, .received parcel) ∈ e'.ended := by
  intro token
  have hruns := (((Runs.nil.snoc (.send token) (.refl _)).snoc .close (.refl _)).snoc
    .cancel (.refl _)).snoc .receiveWithin (.refl _)
  refine ⟨_, _, hruns, rfl, by decide, fun hhanded => ?_⟩
  have hreceived := hhanded [_] _ [_] _ [] (0, token) rfl rfl rfl (by simp [Request.receives]) rfl
  exact absurd hreceived (by decide)

end StateLexer.Rendezvous
