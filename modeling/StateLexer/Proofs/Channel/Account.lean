import StateLexer.Proofs.Channel.Monitor
import StateLexer.Proofs.Channel.Rest
import StateLexer.Proofs.Channel.Trade

/-!
# The account of a channel

Every token that is sent meets with one fate. Those who have asked something of the channel
know it: the sender by the way it departs, and whoever receives the token by getting it
(`HasFate`). It can be found out from the books, too (`fateOf`), and is the same
(`Runs.hasFate_fateOf`, `Runs.fateOf_of_hasFate`).

So the tokens that are delivered or displaced can be counted, and the channel has done so
(`Account`). If senders are orderly, and none of them sends a token while another is blocked,
none is displaced: what is accepted is received, but for one token at most.
-/

namespace StateLexer.Rendezvous

/-! ## Fates -/

/-- What has become of a token that has been sent. -/
def fateOf (log : List Entry) (x : Parcel) : Fate :=
  match (moved log).lookup x with
  | some fate => fate
  | none =>
    match log[x.1]?.bind (·.before.channel.refusal) with
    | some why => .refused why
    | none => .waiting

/-- The token meets with the fate, as those see it who have asked something of the channel. -/
def HasFate (log : List Entry) (v : Rendezvous) (x : Parcel) : Fate → Prop
  | .refused why => ∃ e ∈ log, e.ticket = x.1 ∧ e.before.channel.refusal = some why ∧
    e.after = e.before ∧ e.ended = [(x.1, .refused why)]
  | .delivered receiver => (x.1, .sent) ∈ departures log ∧
    (receiver, .received x) ∈ departures log
  | .displaced => (∃ e ∈ log, x.1 < e.ticket ∧ e.request.token? ≠ none ∧
    (x.1, .sent) ∈ e.ended) ∧ x ∉ receipts log
  | .dropped => (∃ e ∈ log, x.1 < e.ticket ∧ e.request = .cancel ∧
    (x.1, .refused .cancelled) ∈ e.ended) ∧ x ∉ receipts log
  | .waiting => v.channel.slot = some x ∧ Blocked log x.1 (.send x.2)

section Fates

variable {v v' : Rendezvous} {log log' : List Entry} {e : Entry} {x y : Parcel} {fate fate' : Fate}
  {receiver : Nat} {why : Refusal}

theorem Runs.fateOf_of_moved (h : Runs log v) (hx : (x, fate) ∈ moved log) :
    fateOf log x = fate := by
  cases hlookup : (moved log).lookup x with
  | some fate' =>
    obtain ⟨front, back, hmoved, -⟩ := List.lookup_eq_some_iff.1 hlookup
    rw [fateOf, hlookup]
    exact h.moved_unique (by simp [hmoved]) hx
  | none => exact absurd (List.lookup_eq_none_iff.1 hlookup _ hx) (by simp)

theorem fateOf_of_not_moved (hx : ∀ fate, (x, fate) ∉ moved log) :
    fateOf log x = match log[x.1]?.bind (·.before.channel.refusal) with
      | some why => .refused why
      | none => .waiting := by
  have hlookup : (moved log).lookup x = none := by
    refine List.lookup_eq_none_iff.2 fun m hm => ?_
    rw [bne_iff_ne]
    rintro rfl
    exact hx m.2 hm
  rw [fateOf, hlookup]

theorem Runs.fateOf_of_refused (h : Runs log v) (he : e ∈ log) (hticket : e.ticket = x.1)
    (hrefused : e.before.channel.refusal = some why) : fateOf log x = .refused why := by
  rw [fateOf_of_not_moved fun _ => h.not_moved_of_refused he hticket (by simp [hrefused]),
    ← hticket, h.getElem?_ticket he]
  simp [hrefused]

theorem Runs.fateOf_of_slot (h : Runs log v) (hslot : v.channel.slot = some x) :
    fateOf log x = .waiting := by
  have haccepted : x ∈ accepted log := by simp [h.accepted_eq, hslot]
  obtain ⟨e, he, hopen, hticket, -⟩ := mem_accepted.1 haccepted
  rw [fateOf_of_not_moved fun _ => h.not_moved_of_slot hslot, ← hticket, h.getElem?_ticket he]
  simp [hopen]

/-- A token that is sent is moved, or waits, or has been refused. -/
theorem Runs.moved_or (h : Runs log v) (hx : x ∈ sends log) :
    (∃ fate, (x, fate) ∈ moved log) ∨ v.channel.slot = some x ∨
      ∃ e ∈ log, ∃ why, e.ticket = x.1 ∧ e.request = .send x.2 ∧
        e.before.channel.refusal = some why := by
  obtain ⟨e, he, hticket, hrequest⟩ := mem_sends.1 hx
  cases hrefusal : e.before.channel.refusal with
  | some why => exact .inr (.inr ⟨e, he, why, hticket, hrequest, hrefusal⟩)
  | none =>
    have haccepted : x ∈ accepted log := mem_accepted.2 ⟨e, he, hrefusal, hticket, hrequest⟩
    rw [h.accepted_eq, List.mem_append] at haccepted
    rcases haccepted with hmoved | hslot
    · obtain ⟨⟨x, fate⟩, hm, rfl⟩ := List.mem_map.1 hmoved
      exact .inl ⟨fate, hm⟩
    · exact .inr (.inl (by simpa using hslot))

theorem mem_departures {d : Nat × Departure} : d ∈ departures log ↔ ∃ e ∈ log, d ∈ e.ended :=
  List.mem_flatMap

theorem mem_moved {m : Parcel × Fate} :
    m ∈ moved log ↔ ∃ e ∈ log, m ∈ e.before.moves e.ticket e.request :=
  List.mem_flatMap

theorem Runs.mem_received (h : Runs log v) :
    (receiver, .received x) ∈ departures log ↔ (x, .delivered receiver) ∈ moved log := by
  rw [mem_departures, mem_moved]
  exact exists_congr fun e => and_congr_right fun he => (h.trades he).mem_received

theorem Runs.mem_receipts (h : Runs log v) :
    x ∈ receipts log ↔ ∃ receiver, (x, .delivered receiver) ∈ moved log := by
  rw [h.receipts_eq, List.mem_map]
  constructor
  · rintro ⟨⟨x, fate⟩, hm, rfl⟩
    obtain ⟨hm, hdelivered⟩ := List.mem_filter.1 hm
    cases fate with
    | delivered receiver => exact ⟨receiver, hm⟩
    | refused | displaced | dropped | waiting => exact absurd hdelivered nofun
  · rintro ⟨receiver, hm⟩
    exact ⟨_, List.mem_filter.2 ⟨hm, rfl⟩, rfl⟩

theorem Runs.not_received (h : Runs log v) (hx : (x, fate) ∈ moved log)
    (hnot : fate.isDelivered = false) : x ∉ receipts log := by
  rw [h.mem_receipts]
  rintro ⟨receiver, hx'⟩
  obtain rfl := h.moved_unique hx hx'
  exact absurd hnot nofun

theorem Runs.lt_of_slot (h : Runs log v) (he : e ∈ log) (hslot : e.before.channel.slot = some x) :
    x.1 < e.ticket := by
  obtain ⟨log', v', -, hruns, hchannel, -, hticket⟩ := h.of_mem he
  obtain ⟨i, token⟩ := x
  rw [hchannel] at hslot
  rw [hticket]
  exact lt_of_asked (hruns.asked_of_slot hslot)

/-- What a token that is moved meets with. -/
theorem Runs.hasFate_of_moved (h : Runs log v) (hx : (x, fate) ∈ moved log) :
    HasFate log v x fate := by
  obtain ⟨e, he, hm⟩ := mem_moved.1 hx
  have ht := h.trades he
  have hsent (hnot : fate ≠ .dropped) : (x.1, .sent) ∈ e.ended :=
    ht.mem_sent.2 ⟨_, hm, rfl, hnot⟩
  rcases ht.moved_to hm with rfl | rfl | ⟨receiver, rfl⟩
  · obtain ⟨hslot, hrequest⟩ := ht.of_displaced hm
    exact ⟨⟨e, he, h.lt_of_slot he hslot, hrequest, hsent nofun⟩, h.not_received hx rfl⟩
  · obtain ⟨hslot, hrequest, hd⟩ := ht.of_dropped hm
    exact ⟨⟨e, he, h.lt_of_slot he hslot, hrequest, hd⟩, h.not_received hx rfl⟩
  · exact ⟨mem_departures.2 ⟨e, he, hsent nofun⟩, h.mem_received.2 hx⟩

theorem hasFate_of_refused (he : e ∈ log) (hticket : e.ticket = x.1)
    (hrequest : e.request = .send x.2) (hrefused : e.before.channel.refusal = some why) :
    HasFate log v x (.refused why) := by
  refine ⟨e, he, hticket, hrefused, ?_, ?_⟩
  · simp [Entry.after, hrequest, perform, send, hrefused]
  · simp [Entry.ended, hrequest, perform, send, hrefused, Ended.departures, Finish.departure,
      hticket]

/-- Every token that is sent meets with a fate. -/
theorem Runs.hasFate_fateOf (h : Runs log v) (hx : x ∈ sends log) :
    HasFate log v x (fateOf log x) := by
  rcases h.moved_or hx with ⟨fate, hm⟩ | hslot | ⟨e, he, why, hticket, hrequest, hrefused⟩
  · rw [h.fateOf_of_moved hm]
    exact h.hasFate_of_moved hm
  · rw [h.fateOf_of_slot hslot]
    exact ⟨hslot, h.blocked_send_iff.2 hslot⟩
  · rw [h.fateOf_of_refused he hticket hrefused]
    exact hasFate_of_refused he hticket hrequest hrefused

/-- It meets with no other. -/
theorem Runs.fateOf_of_hasFate (h : Runs log v) (hx : x ∈ sends log)
    (hfate : HasFate log v x fate) : fateOf log x = fate := by
  -- Of all that is sent, a ticket shows which token it is.
  have hsame {m : Parcel × Fate} {e : Entry} (he : e ∈ log)
      (hm : m ∈ e.before.moves e.ticket e.request) (hticket : m.1.1 = x.1) :
      (x, m.2) ∈ moved log := by
    have hmoved : (m.1, m.2) ∈ moved log := mem_moved.2 ⟨e, he, hm⟩
    rwa [h.send_unique (h.sends_of_moved hmoved) hx hticket] at hmoved
  cases fate with
  | refused why =>
    obtain ⟨e, he, hticket, hrefused, -⟩ := hfate
    exact h.fateOf_of_refused he hticket hrefused
  | delivered receiver => exact h.fateOf_of_moved (h.mem_received.1 hfate.2)
  | displaced =>
    obtain ⟨⟨e, he, -, -, hsent⟩, hnot⟩ := hfate
    have ht := h.trades he
    obtain ⟨⟨y, fate⟩, hm, hticket, hne⟩ := ht.mem_sent.1 hsent
    have hmoved := hsame he hm hticket
    rcases ht.moved_to hm with rfl | rfl | ⟨receiver, rfl⟩
    · exact h.fateOf_of_moved hmoved
    · exact absurd rfl hne
    · exact absurd (h.mem_receipts.2 ⟨receiver, hmoved⟩) hnot
  | dropped =>
    obtain ⟨⟨e, he, -, hcancel, hd⟩, -⟩ := hfate
    obtain ⟨⟨y, fate⟩, hm, hticket, rfl⟩ := (h.trades he).dropped_of_released hcancel hd
    exact h.fateOf_of_moved (hsame he hm hticket)
  | waiting => exact h.fateOf_of_slot hfate.1

/-! ## Counts -/

theorem Runs.moved_to (h : Runs log v) (hx : (x, fate) ∈ moved log) :
    fate = .displaced ∨ fate = .dropped ∨ ∃ receiver, fate = .delivered receiver := by
  obtain ⟨e, he, hm⟩ := mem_moved.1 hx
  exact (h.trades he).moved_to hm

theorem Runs.not_refused (h : Runs log v) (hx : x ∈ accepted log) :
    (fateOf log x).isRefused = false := by
  rw [h.accepted_eq, List.mem_append] at hx
  rcases hx with hmoved | hslot
  · obtain ⟨⟨x, fate⟩, hm, rfl⟩ := List.mem_map.1 hmoved
    rw [h.fateOf_of_moved hm]
    rcases h.moved_to hm with rfl | rfl | ⟨receiver, rfl⟩ <;> rfl
  · rw [h.fateOf_of_slot (by simpa using hslot)]
    rfl

/-- What has not been refused has been accepted. -/
theorem Runs.filter_sends (h : Runs log v) :
    (sends log).filter (fun x => !(fateOf log x).isRefused) = accepted log := by
  rw [sends, accepted, List.filter_flatMap]
  refine List.flatMap_congr fun e he => ?_
  cases hrefusal : e.before.channel.refusal with
  | some why =>
    have haccepts : e.before.accepts e.ticket e.request = [] := by simp [accepts, hrefusal]
    rw [haccepts, List.filter_eq_nil_iff]
    intro x hx
    rw [h.fateOf_of_refused he (mem_parcels.1 hx).1.symm hrefusal]
    simp [Fate.isRefused]
  | none =>
    have haccepts : e.before.accepts e.ticket e.request = e.request.parcels e.ticket := by
      simp [accepts, hrefusal]
    rw [haccepts, List.filter_eq_self]
    intro x hx
    obtain ⟨hticket, hrequest⟩ := mem_parcels.1 hx
    rw [h.not_refused (mem_accepted.2 ⟨e, he, hrefusal, hticket.symm, hrequest⟩)]
    rfl

/-- The tokens that meet with certain fates, if these come of being moved. -/
theorem Runs.filter_sends_of_moved (h : Runs log v) {p : Fate → Bool}
    (hrefused : ∀ why, p (.refused why) = false) (hwaiting : p .waiting = false) :
    (sends log).filter (fun x => p (fateOf log x)) =
      ((moved log).filter fun m => p m.2).map Prod.fst := by
  -- Neither the tokens that are refused are among them, nor the one that waits.
  have hp (x : Parcel) : (p (fateOf log x) && !(fateOf log x).isRefused) = p (fateOf log x) := by
    cases fateOf log x with
    | refused why => simp [hrefused]
    | delivered | displaced | dropped | waiting => simp [Fate.isRefused]
  have hslot : v.channel.slot.toList.filter (fun x => p (fateOf log x)) = [] := by
    refine List.filter_eq_nil_iff.2 fun x hx => ?_
    rw [h.fateOf_of_slot (by simpa using hx), hwaiting]
    exact Bool.false_ne_true
  calc (sends log).filter (fun x => p (fateOf log x))
      = ((sends log).filter fun x => !(fateOf log x).isRefused).filter
          fun x => p (fateOf log x) := by rw [List.filter_filter, funext hp]
    _ = ((moved log).map Prod.fst).filter fun x => p (fateOf log x) := by
        rw [h.filter_sends, h.accepted_eq, List.filter_append, hslot, List.append_nil]
    _ = ((moved log).filter fun m => p m.2).map Prod.fst := by
        rw [List.filter_map]
        refine congrArg _ (List.filter_congr fun m hm => ?_)
        have hmoved : (m.1, m.2) ∈ moved log := hm
        rw [Function.comp_apply, h.fateOf_of_moved hmoved]

theorem Runs.countP_sends (h : Runs log v) {p : Fate → Bool}
    (hrefused : ∀ why, p (.refused why) = false) (hwaiting : p .waiting = false) :
    (sends log).countP (fun x => p (fateOf log x)) = (moved log).countP fun m => p m.2 := by
  rw [List.countP_eq_length_filter, h.filter_sends_of_moved hrefused hwaiting, List.length_map,
    List.countP_eq_length_filter]

/-- What is moved and not dropped is delivered or displaced. -/
theorem countP_of_moved_to {ms : List (Parcel × Fate)} (h : ∀ m ∈ ms, m.2 = .displaced ∨
    m.2 = .dropped ∨ ∃ receiver, m.2 = .delivered receiver) :
    ms.countP (·.2 ≠ .dropped) = ms.countP (·.2.isDelivered) + ms.countP (·.2 = .displaced) := by
  have hdisplaced : Fate.displaced.isDelivered = false := rfl
  have hdropped : Fate.dropped.isDelivered = false := rfl
  have hdelivered (receiver : Nat) : (Fate.delivered receiver).isDelivered = true := rfl
  induction ms with
  | nil => rfl
  | cons m ms ih =>
    have hrest := ih fun m' hm' => h m' (List.mem_cons_of_mem _ hm')
    simp only [List.countP_cons, ne_eq, decide_not] at hrest ⊢
    rcases h m List.mem_cons_self with hm | hm | ⟨receiver, hm⟩
    · simp [hm, hdisplaced, hrest]
      omega
    · simp [hm, hdropped, hrest]
    · simp [hm, hdelivered, hrest]
      omega

/-! ## Orderly senders -/

/-- Nobody has sent a token while another sender was blocked. -/
def Orderly (log : List Entry) : Prop :=
  ∀ log' e, log' ++ [e] <+: log → e.request.token? ≠ none →
    ∀ i token, ¬Blocked log' i (.send token)

/-- Then no token is displaced. -/
theorem Runs.not_displaced (h : Runs log v) (horderly : Orderly log) :
    (x, .displaced) ∉ moved log := by
  intro hx
  obtain ⟨e, he, hm⟩ := mem_moved.1 hx
  obtain ⟨hslot, hrequest⟩ := (h.trades he).of_displaced hm
  obtain ⟨log', v', hbegins, hruns, hchannel, -⟩ := h.of_mem he
  exact horderly log' e hbegins hrequest x.1 x.2 (hruns.blocked_send_iff.2 (hchannel ▸ hslot))

/-- If a token is dropped, it is the last one that is moved. -/
theorem Runs.dropped_last (h : Runs log v) : ∃ kept last, moved log = kept ++ last ∧
    (∀ m ∈ kept, m.2 ≠ .dropped) ∧
      (last = [] ∨ v.channel.cancelled = true ∧ ∃ x, last = [(x, .dropped)]) := by
  induction h with
  | nil => exact ⟨[], [], rfl, by simp, .inl rfl⟩
  | @snoc log v hruns request receivers hperm ih =>
    obtain ⟨kept, last, hmoved, hkept, hlast⟩ := ih
    have ht := hruns.trades_last request hperm
    have hcancelled := (hruns.performs request hperm).flags.2
    rw [moved, List.flatMap_append, List.flatMap_singleton, ← moved, hmoved]
    rcases hlast with rfl | ⟨hbefore, x, rfl⟩
    · rcases ht.dropped_or with hnot | ⟨hrequest, x, hx⟩
      · refine ⟨kept ++ moves { v with receivers } log.length request, [], by simp, ?_, .inl rfl⟩
        exact fun m hm => (List.mem_append.1 hm).elim (hkept m) (hnot m)
      · exact ⟨kept, _, by simp, hkept, .inr ⟨hcancelled.2 (.inr hrequest), x, hx⟩⟩
    · -- Once cancelled, the channel holds no token and accepts none.
      have hslot := hruns.settled.slot_eq_none_of_cancelled hbefore
      have hnone := ht.slot_append
      simp [hslot, accepts, Channel.refusal, hbefore] at hnone
      rw [hnone.1, List.append_nil]
      exact ⟨kept, _, rfl, hkept, .inr ⟨hcancelled.2 (.inl hbefore), x, rfl⟩⟩

/-- Among orderly senders, all that is moved is delivered, but for one token that is dropped
    in the end. -/
theorem Runs.moved_of_orderly (h : Runs log v) (horderly : Orderly log) :
    ∃ last, moved log = (moved log).filter (·.2.isDelivered) ++ last ∧
      (last = [] ∨ v.channel.slot = none ∧ ∃ x, last = [(x, .dropped)]) := by
  obtain ⟨kept, last, hmoved, hkept, hlast⟩ := h.dropped_last
  have hdelivered : kept.filter (·.2.isDelivered) = kept := by
    refine List.filter_eq_self.2 fun m hm => ?_
    have hm' : (m.1, m.2) ∈ moved log := hmoved ▸ List.mem_append_left _ hm
    rcases h.moved_to hm' with hfate | hfate | ⟨receiver, hfate⟩
    · exact absurd (hfate ▸ hm') (h.not_displaced horderly)
    · exact absurd hfate (hkept m hm)
    · rw [hfate]
      rfl
  refine ⟨last, ?_, hlast.imp_right fun ⟨hcancelled, hx⟩ =>
    ⟨h.settled.slot_eq_none_of_cancelled hcancelled, hx⟩⟩
  rw [hmoved, List.filter_append, hdelivered]
  rcases hlast with rfl | ⟨-, x, rfl⟩
  · simp
  · simp [Fate.isDelivered]

/-! ## All of it -/

/-- The account of a channel: every token that has been sent has met with one fate, and the
    channel has counted them. -/
structure Account (log : List Entry) (v : Rendezvous) : Prop where
  departs_once : ∀ i d d', (i, d) ∈ departures log → (i, d') ∈ departures log → d = d'
  fate_iff : ∀ x ∈ sends log, ∀ fate, HasFate log v x fate ↔ fate = fateOf log x
  sent_eq : v.channel.sent = (sends log).countP (fun x => (fateOf log x).isDelivered) +
    (sends log).countP fun x => fateOf log x = .displaced
  received_eq : v.channel.received = (sends log).countP fun x => (fateOf log x).isDelivered
  /-- What has been received comes in the order in which it has been sent. -/
  receipts_eq : receipts log = (sends log).filter fun x => (fateOf log x).isDelivered
  /-- Among orderly senders, all that is accepted is received, but for one token at most,
      which waits or has been dropped. -/
  orderly : Orderly log → v.channel.sent = v.channel.received ∧
    ∃ rest : List Parcel, rest.length ≤ 1 ∧
      (sends log).filter (fun x => !(fateOf log x).isRefused) = receipts log ++ rest ∧
      ∀ x ∈ rest, fateOf log x = .waiting ∨ fateOf log x = .dropped

theorem Runs.account (h : Runs log v) : Account log v := by
  have hdelivered : (sends log).countP (fun x => (fateOf log x).isDelivered) = _ :=
    h.countP_sends (p := Fate.isDelivered) (fun _ => rfl) rfl
  have hdisplaced := h.countP_sends (p := (· = .displaced)) (by simp) (by simp)
  refine {
    departs_once := fun _ _ _ hd hd' => h.departs_once hd hd'
    fate_iff := fun x hx fate => ⟨fun hfate => (h.fateOf_of_hasFate hx hfate).symm, ?_⟩
    sent_eq := ?_
    received_eq := by rw [hdelivered, h.received_eq]
    receipts_eq := ?_
    orderly := fun horderly => ?_ }
  · rintro rfl
    exact h.hasFate_fateOf hx
  · rw [hdelivered, hdisplaced, h.sent_eq]
    exact countP_of_moved_to fun m hm => h.moved_to hm
  · rw [h.receipts_eq]
    exact (h.filter_sends_of_moved (p := Fate.isDelivered) (fun _ => rfl) rfl).symm
  · obtain ⟨last, hmoved, hlast⟩ := h.moved_of_orderly horderly
    have hnone : (moved log).countP (·.2 = .displaced) = 0 := by
      refine List.countP_eq_zero.2 fun m hm => ?_
      rw [decide_eq_true_eq]
      intro hfate
      exact h.not_displaced horderly (hfate ▸ hm : (m.1, .displaced) ∈ moved log)
    refine ⟨?_, last.map Prod.fst ++ v.channel.slot.toList, ?_, ?_, fun x hx => ?_⟩
    · rw [h.sent_eq, h.received_eq, countP_of_moved_to fun m hm => h.moved_to hm, hnone,
        Nat.add_zero]
    · rcases hlast with rfl | ⟨hslot, x, rfl⟩
      · cases v.channel.slot <;> simp
      · simp [hslot]
    · rw [h.filter_sends, h.accepted_eq, h.receipts_eq, ← List.append_assoc, ← List.map_append,
        ← hmoved]
    · rcases List.mem_append.1 hx with hlast' | hslot
      · rcases hlast with rfl | ⟨-, y, rfl⟩
        · exact absurd hlast' List.not_mem_nil
        · obtain rfl : x = y := by simpa using hlast'
          exact .inr (h.fateOf_of_moved (hmoved ▸ List.mem_append_right _ List.mem_cons_self))
      · exact .inl (h.fateOf_of_slot (by simpa using hslot))

/-- Behind any requests, the account of the channel is settled, and however the threads that
    make them take turns, they come to rest with such an account. -/
theorem accounts_settled :
    (∀ log v, Runs log v → Account log v) ∧
      (∀ requests, ∃ m, Monitor.Comes requests m) ∧
      ∀ requests m, Monitor.Comes requests m →
        ∃ log v, Runs log v ∧ log.map Entry.request = requests ∧ m.Recorded log v :=
  ⟨fun _ _ h => h.account, Monitor.exists_comes, fun _ _ hcomes => hcomes.recorded⟩

/-- Of three equal tokens, the first is displaced, the second received, the third dropped. -/
theorem accounts_settled_equal_tokens :
    let token : Token := ⟨.space, 0, " "⟩
    ∃ log v, Runs log v ∧ log.map Entry.request =
        [.send token, .send token, .receiveWithin, .send token, .cancel] ∧ Account log v ∧
      (sends log).map (fateOf log) = [.displaced, .delivered 2, .dropped] ∧
      receipts log = [(1, token)] ∧ v.channel.sent = 2 ∧ v.channel.received = 1 := by
  intro token
  have hruns := ((((Runs.nil.snoc (.send token) (.refl _)).snoc (.send token) (.refl _)).snoc
    .receiveWithin (.refl _)).snoc (.send token) (.refl _)).snoc .cancel (.refl _)
  exact ⟨_, _, hruns, rfl, accounts_settled.1 _ _ hruns, by decide, by decide, by decide, by decide⟩

end Fates

end StateLexer.Rendezvous
