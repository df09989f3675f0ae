import StateLexer.Channel.Monitor
import StateLexer.Proofs.Channel.History

/-!
# What the threads come to

However the threads at a channel take turns, a request ends as if it were performed at
once: where they rest, there is a run of the requests whose log tells who is gone, and how,
and who is blocked (`Monitor.Comes.recorded`). On the way there

* first only the thread that asks can go on;
* if it sends a token that others wait for, these race for it (`Monitor.Racing`);
* then it is decided where each thread is bound for, and whichever goes on comes nearer to
  it (`Monitor.Toward`).
-/

namespace StateLexer

open Rendezvous (Blocked Entry Runs departures)

variable {log : List Entry} {v v' : Rendezvous} {ds ended : List (Nat × Departure)} {i : Nat}
  {token : Token} {stage stage' : Stage} {request : Rendezvous.Request}

namespace Monitor

variable {m m' : Monitor}

/-! ## Threads -/

/-- Something holds of each thread and its stage. -/
def Each (P : Nat → Stage → Prop) (threads : List Stage) : Prop :=
  ∀ i stage, threads[i]? = some stage → P i stage

section Each

variable {P Q : Nat → Stage → Prop} {threads : List Stage}

theorem Each.imp (h : Each P threads) (hPQ : ∀ i stage, P i stage → Q i stage) :
    Each Q threads :=
  fun i stage hi => hPQ i stage (h i stage hi)

theorem Each.append_singleton (h : Each P threads) (hlast : P threads.length stage) :
    Each P (threads ++ [stage]) := by
  intro i s hi
  rw [List.getElem?_append] at hi
  split at hi
  · exact h i s hi
  · next hlt =>
    obtain ⟨hzero, rfl⟩ := List.getElem?_eq_some_iff.1 hi
    have hlast' : i = threads.length := by
      rw [List.length_singleton] at hzero
      omega
    subst hlast'
    simpa using hlast

theorem Each.map {f : Stage → Stage} (h : Each (fun i s => P i (f s)) threads) :
    Each P (threads.map f) := by
  intro i s hi
  rw [List.getElem?_map, Option.map_eq_some_iff] at hi
  obtain ⟨s, hs, rfl⟩ := hi
  exact h i s hs

/-- One thread gets to another stage, and the others do not. -/
theorem Each.set (h : Each (fun j s => j ≠ i → P j s) threads) (hi : P i stage) :
    Each P (threads.set i stage) := by
  intro j s hj
  rw [List.getElem?_set] at hj
  split at hj
  · next heq =>
    subst heq
    split at hj
    · exact Option.some.inj hj ▸ hi
    · exact absurd hj nofun
  · next hne => exact h j s hj (Ne.symm hne)

theorem Each.put (h : Each P threads) (hi : P i stage) : Each P (threads.set i stage) :=
  Each.set (h.imp fun _ _ hp _ => hp) hi

end Each

/-! ## Monitors at rest -/

/-- The stage of a thread that rests is the one that the log says. -/
inductive Shown (ds : List (Nat × Departure)) (v : Rendezvous) (i : Nat) : Stage → Prop
  | gone {d : Departure} (hd : (i, d) ∈ ds) : Shown ds v i (.gone d)
  | sending {token : Token} (hslot : v.channel.slot = some (i, token)) :
    Shown ds v i (.sending token false)
  | receiving (hi : i ∈ v.receivers) : Shown ds v i (.receiving false false)

/-- The monitor is as the log says: who has departed is gone, and the others are asleep. -/
structure Shows (m : Monitor) (log : List Entry) (v : Rendezvous) : Prop where
  channel_eq : m.channel = v.channel
  length_eq : m.threads.length = log.length
  shown : Each (Shown (departures log) v) m.threads

theorem Shows.exists_shown (hs : m.Shows log v) (hi : i < log.length) :
    ∃ stage, m.threads[i]? = some stage ∧ Shown (departures log) v i stage := by
  rw [← hs.length_eq] at hi
  exact ⟨_, List.getElem?_eq_getElem hi, hs.shown i _ (List.getElem?_eq_getElem hi)⟩

/-- Who has departed is gone. -/
theorem Shows.gone (hs : m.Shows log v) (hruns : Runs log v) {d : Departure}
    (hd : (i, d) ∈ departures log) : m.threads[i]? = some (.gone d) := by
  obtain ⟨stage, hi, hshown⟩ := hs.exists_shown (hruns.lt_of_departures hd)
  rw [hi]
  cases hshown with
  | gone hd' => rw [hruns.departs_once hd hd']
  | @sending token hslot =>
    exact absurd hd (hruns.not_departed (Rendezvous.mem_waiting.2 (.inl ⟨token, hslot⟩)))
  | receiving hmem => exact absurd hd (hruns.not_departed (Rendezvous.mem_waiting.2 (.inr hmem)))

/-- The sender that waits is asleep. -/
theorem Shows.sending (hs : m.Shows log v) (hruns : Runs log v)
    (hslot : v.channel.slot = some (i, token)) : m.threads[i]? = some (.sending token false) := by
  obtain ⟨stage, hi, hshown⟩ :=
    hs.exists_shown (Rendezvous.lt_of_asked (hruns.asked_of_slot hslot))
  rw [hi]
  cases hshown with
  | gone hd =>
    exact absurd hd (hruns.not_departed (Rendezvous.mem_waiting.2 (.inl ⟨token, hslot⟩)))
  | sending hslot' =>
    obtain ⟨-, rfl⟩ := Prod.mk.inj (Option.some.inj (hslot.symm.trans hslot'))
    rfl
  | receiving hmem =>
    exact absurd (hslot.symm.trans (hruns.settled.slot_eq_none_of_receiver hmem)) nofun

/-- The receivers that wait are asleep. -/
theorem Shows.receiving (hs : m.Shows log v) (hruns : Runs log v) (hmem : i ∈ v.receivers) :
    m.threads[i]? = some (.receiving false false) := by
  obtain ⟨stage, hi, hshown⟩ :=
    hs.exists_shown (Rendezvous.lt_of_asked (hruns.asked_of_receiver hmem))
  rw [hi]
  cases hshown with
  | gone hd => exact absurd hd (hruns.not_departed (Rendezvous.mem_waiting.2 (.inr hmem)))
  | sending hslot =>
    exact absurd (hslot.symm.trans (hruns.settled.slot_eq_none_of_receiver hmem)) nofun
  | receiving => rfl

/-- Where the threads are and what they have come to is in the log: who has departed is gone,
    and who is blocked is asleep. -/
structure Recorded (m : Monitor) (log : List Entry) (v : Rendezvous) : Prop where
  channel_eq : m.channel = v.channel
  gone_iff : ∀ i d, m.threads[i]? = some (.gone d) ↔ (i, d) ∈ departures log
  sending_iff : ∀ i token,
    m.threads[i]? = some (.sending token false) ↔ Blocked log i (.send token)
  receiving_iff : ∀ i, m.threads[i]? = some (.receiving false false) ↔ Blocked log i .receive

theorem Shows.recorded (hs : m.Shows log v) (hruns : Runs log v) : m.Recorded log v := by
  refine ⟨hs.channel_eq, fun i d => ⟨fun hi => ?_, hs.gone hruns⟩, fun i token => ?_, fun i => ?_⟩
  · cases hs.shown i _ hi with
    | gone hd => exact hd
  · rw [hruns.blocked_send_iff]
    refine ⟨fun hi => ?_, hs.sending hruns⟩
    cases hs.shown i _ hi with
    | sending hslot => exact hslot
  · rw [hruns.blocked_receive_iff]
    refine ⟨fun hi => ?_, hs.receiving hruns⟩
    cases hs.shown i _ hi with
    | receiving hmem => exact hmem

/-! ## Bound for rest -/

/-- The thread is at the stage that the log says, or comes to it without touching the
    channel. -/
inductive Bound (ds : List (Nat × Departure)) (v : Rendezvous) (i : Nat) : Stage → Prop
  | gone {d : Departure} (hd : (i, d) ∈ ds) : Bound ds v i (.gone d)
  | sending {token : Token} {awake : Bool} (hslot : v.channel.slot = some (i, token)) :
    Bound ds v i (.sending token awake)
  | receiving {awake : Bool} (hi : i ∈ v.receivers) : Bound ds v i (.receiving false awake)
  | exhausted (hd : (i, .exhausted) ∈ ds) (hslot : v.channel.slot = none)
    (hclosed : v.channel.closed = true) : Bound ds v i (.receiving false true)
  | waits (hd : (i, .timedOut) ∈ ds) (hslot : v.channel.slot = none)
    (hclosed : v.channel.closed = false) {awake : Bool} : Bound ds v i (.receiving true awake)
  | late (hd : (i, .timedOut) ∈ ds) (hslot : v.channel.slot = none)
    (hclosed : v.channel.closed = false) : Bound ds v i .late

theorem Bound.shown (h : Bound ds v i stage) (hrests : stage.rests = true) :
    Shown ds v i stage := by
  cases h with
  | gone hd => exact .gone hd
  | @sending token awake hslot =>
    cases awake with
    | false => exact .sending hslot
    | true => exact absurd hrests nofun
  | @receiving awake hi =>
    cases awake with
    | false => exact .receiving hi
    | true => exact absurd hrests nofun
  | exhausted => exact absurd hrests nofun
  | waits => exact absurd hrests nofun
  | late => exact absurd hrests nofun

/-- Both channels let the same threads go on. -/
structure Agrees (c c' : Channel Parcel) : Prop where
  slot_eq : c.slot = c'.slot
  closed_eq : c.closed = c'.closed
  cancelled_eq : c.cancelled = c'.cancelled

theorem look_of_closed (hslot : m.channel.slot = none) (hclosed : m.channel.closed = true) :
    m.look i stage = m.put i (.gone .exhausted) := by
  simp [look, hslot, hclosed]

theorem look_of_open (hslot : m.channel.slot = none) (hclosed : m.channel.closed = false) :
    m.look i stage = m.put i stage := by
  simp [look, hslot, hclosed]

/-- A thread that goes on is still bound for the same. -/
theorem Bound.go (hb : Bound ds v i stage) (hv : v.Settled) (hc : Agrees m.channel v.channel)
    (hready : stage.isReady = true) :
    ∃ stage', m.go i stage = m.put i stage' ∧ Bound ds v i stage' := by
  obtain ⟨hslot, hclosed, hcancelled⟩ := hc
  cases hb with
  | gone => exact absurd hready nofun
  | @sending token awake hwaits =>
    have hwanted : m.channel.cancelled = false :=
      hcancelled.trans (hv.not_cancelled (by simp [hwaits]))
    refine ⟨.sending token false, ?_, .sending hwaits⟩
    rw [Monitor.go, if_pos (hslot.trans hwaits), if_neg (by simp [hwanted])]
  | receiving hi =>
    exact ⟨_, look_of_open (hslot.trans (hv.slot_eq_none_of_receiver hi))
      (hclosed.trans (hv.closed_eq_false hi)), .receiving hi⟩
  | exhausted hd hnil hexhausted =>
    exact ⟨_, look_of_closed (hslot.trans hnil) (hclosed.trans hexhausted), .gone hd⟩
  | waits hd hnil hopen =>
    exact ⟨_, look_of_open (hslot.trans hnil) (hclosed.trans hopen), .waits hd hnil hopen⟩
  | late hd hnil hopen =>
    exact ⟨_, look_of_open (hslot.trans hnil) (hclosed.trans hopen), .gone hd⟩

/-- A thread whose time is up is still bound for the same. -/
theorem Bound.expire {awake : Bool} (hb : Bound ds v i (.receiving true awake)) :
    Bound ds v i .late := by
  cases hb with
  | waits hd hslot hclosed => exact .late hd hslot hclosed

/-- It is decided how all threads come to rest. The channel may still wait for a sender to
    depart, whose token has been taken or displaced, or which is to drop its token. -/
inductive Toward (ds : List (Nat × Departure)) (v : Rendezvous) (m : Monitor) : Prop
  | settled (hchannel : m.channel = v.channel) (hbound : Each (Bound ds v) m.threads)
  | sends {i : Nat} {token : Token} (hi : m.threads[i]? = some (.sending token true))
    (hd : (i, .sent) ∈ ds) (hslot : m.channel.slot ≠ some (i, token))
    (hchannel : v.channel = { m.channel with sent := m.channel.sent + 1 })
    (hbound : Each (fun j stage => j ≠ i → Bound ds v j stage) m.threads)
  | drops {i : Nat} {token : Token} (hi : m.threads[i]? = some (.sending token true))
    (hd : (i, .refused .cancelled) ∈ ds) (hslot : m.channel.slot = some (i, token))
    (hcancelled : m.channel.cancelled = true)
    (hchannel : v.channel = { m.channel with slot := none })
    (hgone : Each (fun j stage => j ≠ i → ∃ d, stage = .gone d ∧ (j, d) ∈ ds)
      m.threads)

theorem threads_put_of_ne {j : Nat} (hne : i ≠ j) : (m.put i stage).threads[j]? = m.threads[j]? :=
  List.getElem?_set_ne hne

/-- Whichever thread goes on, all come to rest as has been decided. -/
theorem Toward.go (ht : Toward ds v m) (hv : v.Settled) (hi : m.threads[i]? = some stage)
    (hready : stage.isReady = true) : Toward ds v (m.go i stage) := by
  cases ht with
  | settled hchannel hbound =>
    obtain ⟨stage', hgo, hb⟩ := (hbound i stage hi).go hv
      ⟨congrArg _ hchannel, congrArg _ hchannel, congrArg _ hchannel⟩ hready
    rw [hgo]
    exact .settled hchannel (hbound.put hb)
  | @sends k token hk hd hslot hchannel hbound =>
    by_cases hik : i = k
    · subst hik
      obtain rfl := Option.some.inj (hi.symm.trans hk)
      rw [Monitor.go, if_neg hslot]
      exact .settled hchannel.symm (hbound.set (.gone hd))
    · -- The sender does not mind: what it waits for does not come from the others.
      have hagrees : Agrees m.channel v.channel := by rw [hchannel]; exact ⟨rfl, rfl, rfl⟩
      obtain ⟨stage', hgo, hb⟩ := (hbound i stage hi hik).go hv hagrees hready
      rw [hgo]
      exact .sends ((threads_put_of_ne hik).trans hk) hd hslot hchannel (hbound.put fun _ => hb)
  | @drops k token hk hd hslot hcancelled hchannel hgone =>
    by_cases hik : i = k
    · subst hik
      obtain rfl := Option.some.inj (hi.symm.trans hk)
      rw [Monitor.go, if_pos hslot, if_pos hcancelled]
      refine .settled hchannel.symm (Each.set (hgone.imp fun j s hj hne => ?_) (.gone hd))
      obtain ⟨d, rfl, hd⟩ := hj hne
      exact .gone hd
    · -- Nobody else is left.
      obtain ⟨d, rfl, -⟩ := hgone i stage hi hik
      exact absurd hready nofun

theorem Toward.expire {awake : Bool} (ht : Toward ds v m)
    (hi : m.threads[i]? = some (.receiving true awake)) : Toward ds v (m.put i .late) := by
  cases ht with
  | settled hchannel hbound => exact .settled hchannel (hbound.put (hbound i _ hi).expire)
  | @sends k token hk hd hslot hchannel hbound =>
    have hik : i ≠ k := by
      rintro rfl
      exact absurd (hi.symm.trans hk) (by simp)
    exact .sends ((threads_put_of_ne hik).trans hk) hd hslot hchannel
      (hbound.put fun _ => (hbound i _ hi hik).expire)
  | @drops k token hk hd hslot hcancelled hchannel hgone =>
    have hik : i ≠ k := by
      rintro rfl
      exact absurd (hi.symm.trans hk) (by simp)
    obtain ⟨d, heq, -⟩ := hgone i _ hi hik
    exact absurd heq nofun

/-- When all rest, they are where the log says. -/
theorem Toward.shows (ht : Toward (departures log) v m) (hlength : m.threads.length = log.length)
    (hrests : m.Rests) : m.Shows log v := by
  cases ht with
  | settled hchannel hbound =>
    exact ⟨hchannel, hlength, fun i s hi =>
      (hbound i s hi).shown (hrests s (List.mem_of_getElem? hi))⟩
  | sends hi => exact absurd (hrests _ (List.mem_of_getElem? hi)) nofun
  | drops hi => exact absurd (hrests _ (List.mem_of_getElem? hi)) nofun

/-! ## A race -/

/-- The stage of a thread in a race for the token that the last thread sends. -/
inductive Runner (ds : List (Nat × Departure)) (v : Rendezvous) (i : Nat) : Stage → Prop
  | gone {d : Departure} (hd : (i, d) ∈ ds) : Runner ds v i (.gone d)
  | receiver (hi : i ∈ v.receivers) : Runner ds v i (.receiving false true)

/-- A token is there, and all who have been waiting for one race for it. -/
structure Racing (log : List Entry) (v : Rendezvous) (token : Token) (m : Monitor) : Prop where
  refusal_eq : v.channel.refusal = none
  slot_eq : v.channel.slot = none
  channel_eq : m.channel = { v.channel with slot := some (log.length, token) }
  sender : m.threads[log.length]? = some (.sending token false)
  runner : Each (fun i stage => i ≠ log.length → Runner (departures log) v i stage) m.threads
  receiver : ∃ i : Nat, m.threads[i]? = some (.receiving false true)

theorem look_of_slot {parcel : Parcel} (hslot : m.channel.slot = some parcel) :
    m.look i stage =
      { channel := { m.channel with slot := none, received := m.channel.received + 1 }
        threads := (m.threads.map Stage.wake).set i (.gone (.received parcel)) } := by
  simp [look, hslot, wakeAll, put]

/-- One thread wins the race, and the others go on waiting. -/
theorem Racing.go (hr : Racing log v token m) (hi : m.threads[i]? = some stage)
    (hready : stage.isReady = true) :
    ∃ receivers, receivers.Perm v.receivers ∧ ∀ v' ended,
      ({ v with receivers } : Rendezvous).Performs log.length (.send token) v' ended →
        Toward (departures log ++ ended) v' (m.go i stage) := by
  have hne : i ≠ log.length := by
    rintro rfl
    obtain rfl := Option.some.inj (hi.symm.trans hr.sender)
    exact absurd hready nofun
  cases hr.runner i stage hi hne with
  | gone => exact absurd hready nofun
  | receiver hmem =>
    -- The winner counts as the first in the queue, so the send is performed as a meeting.
    refine ⟨i :: v.receivers.erase i, (List.perm_cons_erase hmem).symm, fun v' ended hp => ?_⟩
    obtain ⟨hrefusal, hslot, hchannel, hsender, hrunner, -⟩ := hr
    have hgo : m.go i (.receiving false true) = _ := look_of_slot (by rw [hchannel])
    rw [hgo]
    cases hp with
    | refuse hrefused => exact absurd (hrefusal.symm.trans hrefused) nofun
    | wait _ _ hnil => exact absurd hnil nofun
    | displace _ hfull => exact absurd (hslot.symm.trans hfull) nofun
    | take hrequest => exact absurd hrequest nofun
    | exhausted hrequest => exact absurd hrequest nofun
    | meet _ _ hreceivers hended =>
      obtain ⟨rfl, rfl⟩ := List.cons.inj hreceivers
      have hsender' : ((m.threads.map Stage.wake).set i
          (.gone (.received (log.length, token))))[log.length]? = some (.sending token true) := by
        rw [List.getElem?_set_ne hne, List.getElem?_map, hsender]
        rfl
      refine .sends hsender' ?_ ?_ ?_ ?_
      · exact List.mem_append_right _ (hended.mem_iff.2 (by simp))
      · exact nofun
      · simp [hchannel, ← hslot]
      · refine Each.set (Each.map (hrunner.imp fun j s hj hji hjn => ?_)) fun _ => ?_
        · cases hj hjn with
          | gone hd => exact .gone (List.mem_append_left _ hd)
          | receiver hmem => exact .receiving ((List.mem_erase_of_ne hji).2 hmem)
        · exact .gone (List.mem_append_right _ (hended.mem_iff.2 (by simp)))

/-! ## The thread that asks -/

/-- All are woken when another thread has come. -/
theorem Shows.each_wake (hs : m.Shows log v) {P : Nat → Stage → Prop}
    (hgone : ∀ i d, (i, d) ∈ departures log → P i (.gone d))
    (hsending : ∀ i token, v.channel.slot = some (i, token) → P i (.sending token true))
    (hreceiving : ∀ i ∈ v.receivers, P i (.receiving false true)) (hlast : P log.length stage) :
    Each P (m.threads.map Stage.wake ++ [stage]) := by
  refine (Each.map fun i s hi => ?_).append_singleton ?_
  · cases hs.shown i s hi with
    | gone hd => exact hgone i _ hd
    | sending hslot => exact hsending i _ hslot
    | receiving hmem => exact hreceiving i hmem
  · rw [List.length_map, hs.length_eq]
    exact hlast

theorem getElem?_wake (hi : m.threads[i]? = some stage) :
    (m.threads.map Stage.wake ++ [stage'])[i]? = some stage.wake := by
  rw [List.getElem?_append_left, List.getElem?_map, hi]
  · rfl
  · rw [List.length_map]
    exact (List.getElem?_eq_some_iff.1 hi).1

/-- All are woken where a token waits: its sender, and nobody else who is still there. -/
theorem Shows.each_wake_of_slot (hs : m.Shows log v) (hruns : Runs log v)
    (hslot : v.channel.slot = some (i, token)) {P : Nat → Stage → Prop}
    (hgone : ∀ j d, (j, d) ∈ departures log → P j (.gone d)) (hlast : P log.length stage) :
    Each (fun j s => j ≠ i → P j s) (m.threads.map Stage.wake ++ [stage]) := by
  refine hs.each_wake (fun j d hd _ => hgone j d hd) (fun j token' hslot' hne => ?_)
    (fun j hmem => ?_) fun _ => hlast
  · exact absurd (congrArg Prod.fst (Option.some.inj (hslot'.symm.trans hslot))) hne
  · exact absurd (hslot.symm.trans (hruns.settled.slot_eq_none_of_receiver hmem)) nofun

/-! ### What it finds -/

theorem put_accept (hlength : m.threads.length = log.length) :
    (m.accept request).put log.length stage = { m with threads := m.threads ++ [stage] } := by
  simp [put, accept, ← hlength]

theorem wakeAll_put_accept (hlength : m.threads.length = log.length) (channel : Channel Parcel) :
    ({ m.accept request with channel } : Monitor).wakeAll.put log.length stage =
      { channel, threads := m.threads.map Stage.wake ++ [stage] } := by
  simp [put, accept, wakeAll, ← hlength]

/-- All is decided, if the thread that asks is, and wakes no others. -/
theorem Shows.toward_put (hs : m.Shows log v) (hchannel : v'.channel = v.channel)
    (hreceivers : ∀ i ∈ v.receivers, i ∈ v'.receivers)
    (hlast : Bound (departures log ++ ended) v' log.length stage) :
    Toward (departures log ++ ended) v' ((m.accept request).put log.length stage) := by
  rw [put_accept hs.length_eq]
  refine .settled (hs.channel_eq.trans hchannel.symm)
    ((hs.shown.imp fun i s hi => ?_).append_singleton (hs.length_eq ▸ hlast))
  cases hi with
  | gone hd => exact .gone (List.mem_append_left _ hd)
  | sending hslot => exact .sending (hchannel ▸ hslot)
  | receiving hi => exact .receiving (hreceivers i hi)

/-- All is decided where the token of another sender is displaced or taken. -/
theorem Shows.toward_sends (hs : m.Shows log v) (hruns : Runs log v)
    (hslot : v.channel.slot = some (i, token)) {channel : Channel Parcel}
    (hchannel : v'.channel = { channel with sent := channel.sent + 1 })
    (hslot' : channel.slot ≠ some (i, token)) (hd : (i, .sent) ∈ ended)
    (hlast : Bound (departures log ++ ended) v' log.length stage) :
    Toward (departures log ++ ended) v'
      { channel, threads := m.threads.map Stage.wake ++ [stage] } :=
  .sends (getElem?_wake (hs.sending hruns hslot)) (List.mem_append_right _ hd) hslot' hchannel
    (hs.each_wake_of_slot hruns hslot (fun _ _ hd => .gone (List.mem_append_left _ hd)) hlast)

/-- Where others have been waiting for the token that is sent, they race for it. -/
theorem Shows.racing (hs : m.Shows log v) (hruns : Runs log v)
    (hrefusal : v.channel.refusal = none) (hslot : v.channel.slot = none)
    (hi : i ∈ v.receivers) (token : Token) :
    Racing log v token
      { channel := { v.channel with slot := some (log.length, token) }
        threads := m.threads.map Stage.wake ++ [.sending token false] } := by
  refine ⟨hrefusal, hslot, rfl, by simp [← hs.length_eq], ?_, i, ?_⟩
  · exact hs.each_wake (fun i d hd _ => .gone hd) (by simp [hslot]) (fun i hi _ => .receiver hi)
      fun hne => absurd rfl hne
  · exact getElem?_wake (hs.receiving hruns hi)

theorem Shows.toward_close (hs : m.Shows log v) (hruns : Runs log v)
    (hd : (log.length, .done) ∈ ended) (hexhausted : ∀ i ∈ v.receivers, (i, .exhausted) ∈ ended) :
    Toward (departures log ++ ended) { channel := v.channel.close, receivers := [] }
      { channel := v.channel.close, threads := m.threads.map Stage.wake ++ [.gone .done] } := by
  refine .settled rfl (hs.each_wake (fun i d hd => .gone (List.mem_append_left _ hd))
    (fun i token hslot => .sending hslot) (fun i hi => ?_) (.gone (List.mem_append_right _ hd)))
  exact .exhausted (List.mem_append_right _ (hexhausted i hi))
    (hruns.settled.slot_eq_none_of_receiver hi) rfl

theorem Shows.toward_cancel (hs : m.Shows log v) (hruns : Runs log v)
    (hd : (log.length, .done) ∈ ended)
    (hdropped : ∀ parcel ∈ v.channel.slot, (parcel.1, .refused .cancelled) ∈ ended) :
    Toward (departures log ++ ended) { v with channel := v.channel.cancel }
      { channel := { v.channel with cancelled := true }
        threads := m.threads.map Stage.wake ++ [.gone .done] } := by
  cases hslot : v.channel.slot with
  | none =>
    refine .settled (by simp [Channel.cancel, hslot]) ?_
    exact hs.each_wake (fun i d hd => .gone (List.mem_append_left _ hd)) (by simp [hslot])
      (fun i hi => .receiving hi) (.gone (List.mem_append_right _ hd))
  | some parcel =>
    obtain ⟨sender, token⟩ := parcel
    refine .drops (getElem?_wake (hs.sending hruns hslot))
      (List.mem_append_right _ (hdropped _ hslot)) hslot rfl rfl ?_
    exact hs.each_wake_of_slot hruns hslot
      (fun j d hd => ⟨d, rfl, List.mem_append_left _ hd⟩) ⟨.done, rfl, List.mem_append_right _ hd⟩

/-- Once the thread that asks has gone on, all is decided, unless there is a race. -/
theorem Shows.go_accept (hs : m.Shows log v) (hruns : Runs log v)
    (hp : v.Performs log.length request v' ended) :
    Toward (departures log ++ ended) v' ((m.accept request).go log.length (.coming request)) ∨
      ∃ token, request = .send token ∧
        Racing log v token ((m.accept request).go log.length (.coming request)) := by
  have hchannel : (m.accept request).channel = v.channel := hs.channel_eq
  cases hp with
  | @refuse token why hrefusal =>
    have hgo : (m.accept (.send token)).go log.length (.coming (.send token)) =
        (m.accept (.send token)).put log.length (.gone (.refused why)) := by
      simp [Monitor.go, hchannel, hrefusal]
    rw [hgo]
    exact .inl (hs.toward_put rfl (fun _ hi => hi) (.gone (by simp)))
  | wait hrefusal hslot hnil =>
    simp only [Monitor.go, hchannel, hrefusal, wakeAll_put_accept hs.length_eq]
    exact .inl (.settled rfl (hs.each_wake (fun i d hd => .gone (List.mem_append_left _ hd))
      (by simp [hslot]) (by simp [hnil]) (.sending rfl)))
  | @displace token parcel hrefusal hslot =>
    obtain ⟨sender, waits⟩ := parcel
    have hfresh : log.length ≠ sender :=
      Nat.ne_of_gt (Rendezvous.lt_of_asked (hruns.asked_of_slot hslot))
    simp only [Monitor.go, hchannel, hrefusal, wakeAll_put_accept hs.length_eq]
    refine .inl (hs.toward_sends hruns hslot rfl ?_ (by simp) (.sending rfl))
    simp [hfresh]
  | @meet token receiver receivers ended hrefusal hslot hreceivers =>
    simp only [Monitor.go, hchannel, hrefusal, wakeAll_put_accept hs.length_eq]
    have hmem : receiver ∈ v.receivers := by simp [hreceivers]
    exact .inr ⟨token, rfl, hs.racing hruns hrefusal hslot hmem token⟩
  | @take request parcel ended hrequest hslot hended =>
    obtain ⟨sender, token⟩ := parcel
    have hgo : (m.accept request).go log.length (.coming request) =
        { channel := { v.channel with slot := none, received := v.channel.received + 1 }
          threads := m.threads.map Stage.wake ++ [.gone (.received (sender, token))] } := by
      cases request with
      | receive | receiveWithin =>
        simp only [Monitor.go, look, hchannel, hslot, wakeAll_put_accept hs.length_eq]
      | send | close | cancel => exact absurd hrequest nofun
    rw [hgo]
    exact .inl (hs.toward_sends hruns hslot rfl nofun (hended.mem_iff.2 (by simp))
      (.gone (List.mem_append_right _ (hended.mem_iff.2 (by simp)))))
  | @exhausted request hrequest hslot hclosed =>
    have hgo : (m.accept request).go log.length (.coming request) =
        (m.accept request).put log.length (.gone .exhausted) := by
      cases request with
      | receive | receiveWithin =>
        exact look_of_closed (hchannel ▸ hslot) (hchannel ▸ hclosed)
      | send | close | cancel => exact absurd hrequest nofun
    rw [hgo]
    exact .inl (hs.toward_put rfl (fun _ hi => hi) (.gone (by simp)))
  | queue hslot hopen =>
    have hgo : (m.accept .receive).go log.length (.coming .receive) = _ :=
      look_of_open (hchannel ▸ hslot) (hchannel ▸ hopen)
    rw [hgo]
    exact .inl (hs.toward_put rfl (fun _ hi => List.mem_append_left _ hi) (.receiving (by simp)))
  | timeOut hslot hopen =>
    have hgo : (m.accept .receiveWithin).go log.length (.coming .receiveWithin) = _ :=
      look_of_open (hchannel ▸ hslot) (hchannel ▸ hopen)
    rw [hgo]
    exact .inl (hs.toward_put rfl (fun _ hi => hi) (.waits (by simp) hslot hopen))
  | close =>
    simp only [Monitor.go, hchannel, wakeAll_put_accept hs.length_eq]
    exact .inl (hs.toward_close hruns (by simp) (by simp))
  | cancel =>
    simp only [Monitor.go, hchannel, wakeAll_put_accept hs.length_eq]
    exact .inl (hs.toward_cancel hruns (by simp) fun parcel hslot => by
      simp [Option.mem_def.1 hslot])

/-! ## All the way -/

/-- Where the threads are on their way from one rest to the next. -/
inductive OnWay (log : List Entry) (v : Rendezvous) (m₀ : Monitor) (request : Rendezvous.Request) :
    Monitor → Prop
  | comes : OnWay log v m₀ request (m₀.accept request)
  | races {token : Token} {m : Monitor} (hrequest : request = .send token)
    (hr : Racing log v token m) : OnWay log v m₀ request m
  | decided {receivers : List Nat} {m : Monitor} (hperm : receivers.Perm v.receivers)
    (ht : Toward
      (departures log ++ Entry.ended ⟨{ v with receivers }, log.length, request⟩)
      (Entry.after ⟨{ v with receivers }, log.length, request⟩) m) : OnWay log v m₀ request m

theorem Shown.rests (hs : Shown ds v i stage) : stage.rests = true := by
  cases hs <;> rfl

theorem isReady_eq_false_of_rests (h : stage.rests = true) : stage.isReady = false := by
  cases stage <;> simp_all [Stage.rests, Stage.isReady]

/-- Whichever thread goes on, they stay on their way. -/
theorem OnWay.step {m₀ : Monitor} (hw : OnWay log v m₀ request m) (hs : m₀.Shows log v)
    (hruns : Runs log v) (hstep : Step m m') : OnWay log v m₀ request m' := by
  cases hw with
  | comes =>
    -- All others are asleep, so it is the one that asks whose turn it is.
    have heach : Each (fun i s => s.rests = true ∨ (i = log.length ∧ s = .coming request))
        (m₀.accept request).threads :=
      (hs.shown.imp fun _ _ hi => .inl hi.rests).append_singleton (.inr ⟨hs.length_eq, rfl⟩)
    cases hstep with
    | go hstage hready =>
      rcases heach _ _ hstage with hrests | ⟨rfl, rfl⟩
      · rw [isReady_eq_false_of_rests hrests] at hready
        exact absurd hready Bool.false_ne_true
      · rcases hs.go_accept hruns (hruns.performs request (.refl _)) with ht | ⟨token, hrequest, hr⟩
        · exact .decided (.refl _) ht
        · exact .races hrequest hr
    | expire hstage =>
      rcases heach _ _ hstage with hrests | ⟨-, heq⟩
      · exact absurd hrests nofun
      · exact absurd heq nofun
  | races hrequest hr =>
    subst hrequest
    cases hstep with
    | go hstage hready =>
      obtain ⟨receivers, hperm, ht⟩ := hr.go hstage hready
      exact .decided hperm (ht _ _ (hruns.performs _ hperm))
    | @expire i awake hstage =>
      have hne : i ≠ log.length := by
        rintro rfl
        exact absurd (hstage.symm.trans hr.sender) (by simp)
      exact absurd (hr.runner i _ hstage hne) nofun
  | decided hperm ht =>
    cases hstep with
    | go hstage hready =>
      exact .decided hperm (ht.go (hruns.snoc request hperm).settled hstage hready)
    | expire hstage => exact .decided hperm (ht.expire hstage)

@[simp] theorem length_put (m : Monitor) (i : Nat) (stage : Stage) :
    (m.put i stage).threads.length = m.threads.length :=
  List.length_set

@[simp] theorem length_wakeAll (m : Monitor) : m.wakeAll.threads.length = m.threads.length :=
  List.length_map _

theorem length_look (m : Monitor) (i : Nat) (otherwise : Stage) :
    (m.look i otherwise).threads.length = m.threads.length := by
  rw [look]
  split <;> simp

theorem length_go (m : Monitor) (i : Nat) (stage : Stage) :
    (m.go i stage).threads.length = m.threads.length := by
  cases stage with
  | coming request =>
    cases request with
    | send => rw [Monitor.go]; split <;> simp
    | receive | receiveWithin => exact length_look _ _ _
    | close | cancel => simp [Monitor.go]
  | sending =>
    rw [Monitor.go]
    split
    · split <;> simp
    · simp
  | receiving | late => exact length_look _ _ _
  | gone => simp [Monitor.go]

/-- No thread gets lost. -/
theorem Step.length_eq (hstep : Step m m') : m'.threads.length = m.threads.length := by
  cases hstep with
  | go => exact length_go _ _ _
  | expire => exact length_put _ _ _

/-- When the threads rest again, the monitor is as the log says. -/
theorem OnWay.shows {m₀ : Monitor} (hw : OnWay log v m₀ request m)
    (hlength : m.threads.length = log.length + 1) (hrests : m.Rests) :
    ∃ receivers : List Nat, receivers.Perm v.receivers ∧
      m.Shows (log ++ [⟨{ v with receivers }, log.length, request⟩])
        (Entry.after ⟨{ v with receivers }, log.length, request⟩) := by
  cases hw with
  | comes => exact absurd (hrests (.coming request) (by simp [accept])) nofun
  | races hrequest hr =>
    obtain ⟨i, hi⟩ := hr.receiver
    exact absurd (hrests _ (List.mem_of_getElem? hi)) nofun
  | @decided receivers _ hperm ht =>
    have ht' : Toward (departures (log ++ [⟨{ v with receivers }, log.length, request⟩]))
        (Entry.after ⟨{ v with receivers }, log.length, request⟩) m := by
      rwa [Rendezvous.departures_append, Rendezvous.departures_singleton]
    exact ⟨receivers, hperm, ht'.shows (by simp [hlength]) hrests⟩

theorem Comes.shown {requests : List Rendezvous.Request} (hcomes : Comes requests m) :
    ∃ log v, Runs log v ∧ log.map Entry.request = requests ∧ m.Shows log v := by
  induction hcomes with
  | nil => exact ⟨[], {}, .nil, rfl, rfl, rfl, fun i s hi => absurd hi nofun⟩
  | @snoc requests m m' hcomes request hsteps hrests ih =>
    obtain ⟨log, v, hruns, hlog, hs⟩ := ih
    have hway : OnWay log v m request m' ∧ m'.threads.length = log.length + 1 := by
      clear hrests
      induction hsteps with
      | refl => exact ⟨.comes, by simp [accept, hs.length_eq]⟩
      | tail hsteps hstep ih => exact ⟨ih.1.step hs hruns hstep, hstep.length_eq.trans ih.2⟩
    obtain ⟨receivers, hperm, hs'⟩ := hway.1.shows hway.2 hrests
    exact ⟨_, _, hruns.snoc request hperm, by simp [hlog], hs'⟩

/-- However the threads take turns, a log of the requests tells where they rest. -/
theorem Comes.recorded {requests : List Rendezvous.Request} (hcomes : Comes requests m) :
    ∃ log v, Runs log v ∧ log.map Entry.request = requests ∧ m.Recorded log v := by
  obtain ⟨log, v, hruns, hlog, hs⟩ := hcomes.shown
  exact ⟨log, v, hruns, hlog, hs.recorded hruns⟩

end Monitor

end StateLexer
