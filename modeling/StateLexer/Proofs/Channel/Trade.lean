import Mathlib.Data.List.Flatten
import StateLexer.Proofs.Channel.History

/-!
# What is done with tokens

For the tokens at a channel it matters little who has asked for what: a request brings a
token or none, and makes one leave the channel or none (`Rendezvous.Trades`). From this and
the log, books are kept: what has been sent (`sends`), what of it has been accepted
(`accepted`), and what has left the channel, with the fate that it has met with (`moved`).
The books are in balance behind any requests:

* what has been accepted has been moved, or is the token that waits (`Runs.accepted_eq`);
* what has been moved is what the channel has counted, and what those who have received
  something tell (`Runs.sent_eq`, `Runs.received_eq`, `Runs.receipts_eq`);
* nothing is moved twice (`Runs.nodup_moved`).
-/

namespace StateLexer

/-- What becomes of a token that is sent. -/
inductive Fate
  | refused (why : Refusal)
  | delivered (receiver : Nat)
  /-- Another token has come in its place. -/
  | displaced
  /-- It has been dropped by a cancellation. -/
  | dropped
  | waiting
  deriving DecidableEq

namespace Fate

def isRefused : Fate → Bool
  | refused _ => true
  | _ => false

def isDelivered : Fate → Bool
  | delivered _ => true
  | _ => false

end Fate

/-- What one receives who departs like this, if anything. -/
def Departure.received? : Departure → Option Parcel
  | received parcel => some parcel
  | _ => none

namespace Rendezvous

/-! ## What a request moves -/

/-- The token that is sent with the request, if so. -/
def Request.parcels (ticket : Nat) (request : Request) : List Parcel :=
  request.token?.toList.map (ticket, ·)

/-- The token that is sent with the request, unless it is refused. -/
def accepts (v : Rendezvous) (ticket : Nat) (request : Request) : List Parcel :=
  if v.channel.refusal.isNone then request.parcels ticket else []

/-- The token that leaves the channel with the request, if any, and what becomes of it. -/
def moves (v : Rendezvous) (ticket : Nat) : Request → List (Parcel × Fate)
  | .send token =>
    match v.channel.refusal, v.receivers with
    | some _, _ => []
    | none, [] => v.channel.slot.toList.map (·, .displaced)
    | none, receiver :: _ => [((ticket, token), .delivered receiver)]
  | .receive | .receiveWithin => v.channel.slot.toList.map (·, .delivered ticket)
  | .close => []
  | .cancel => v.channel.slot.toList.map (·, .dropped)

/-- What a request does with tokens: those that it brings, and those that it moves. -/
inductive Trades (c c' : Channel Parcel) (ticket : Nat) (request : Request) :
    List (Nat × Departure) → List Parcel → List (Parcel × Fate) → Prop
  | nothing {ended : List (Nat × Departure)}
    (hcancel : request = .cancel → c.slot = none ∧ ended = [(ticket, .done)])
    (hslot : c'.slot = c.slot) (hsent : c'.sent = c.sent) (hreceived : c'.received = c.received)
    (hended : ∀ d ∈ ended, d.2 ≠ .sent ∧ d.2.received? = none) :
    Trades c c' ticket request ended [] []
  | waits {token : Token} (hrequest : request = .send token) (hslot : c.slot = none)
    (hchannel : c' = { c with slot := some (ticket, token) }) :
    Trades c c' ticket request [] [(ticket, token)] []
  | displaces {token : Token} {parcel : Parcel} (hrequest : request = .send token)
    (hslot : c.slot = some parcel)
    (hchannel : c' = { c with slot := some (ticket, token), sent := c.sent + 1 }) :
    Trades c c' ticket request [(parcel.1, .sent)] [(ticket, token)] [(parcel, .displaced)]
  | meets {token : Token} {receiver : Nat} {ended : List (Nat × Departure)}
    (hrequest : request = .send token) (hslot : c.slot = none)
    (hchannel : c' = { c with sent := c.sent + 1, received := c.received + 1 })
    (hended : ended.Perm [(receiver, .received (ticket, token)), (ticket, .sent)]) :
    Trades c c' ticket request ended [(ticket, token)] [((ticket, token), .delivered receiver)]
  | takes {parcel : Parcel} {ended : List (Nat × Departure)}
    (hrequest : request.receives = true) (hslot : c.slot = some parcel)
    (hchannel : c' = { c with slot := none, sent := c.sent + 1, received := c.received + 1 })
    (hended : ended.Perm [(ticket, .received parcel), (parcel.1, .sent)]) :
    Trades c c' ticket request ended [] [(parcel, .delivered ticket)]
  | drops {parcel : Parcel} (hrequest : request = .cancel) (hslot : c.slot = some parcel)
    (hchannel : c' = c.cancel) :
    Trades c c' ticket request [(ticket, .done), (parcel.1, .refused .cancelled)] []
      [(parcel, .dropped)]

section Trades

variable {v v' : Rendezvous} {c c' : Channel Parcel} {ticket i receiver : Nat} {request : Request}
  {ended : List (Nat × Departure)} {accepted : List Parcel} {moved : List (Parcel × Fate)}
  {parcel : Parcel} {fate : Fate}

theorem moves_of_receives (v : Rendezvous) (ticket : Nat) (h : request.receives = true) :
    v.moves ticket request = v.channel.slot.toList.map (·, .delivered ticket) := by
  cases request with
  | receive | receiveWithin => rfl
  | send | close | cancel => exact absurd h nofun

theorem accepts_of_token?_eq_none (v : Rendezvous) (ticket : Nat) (h : request.token? = none) :
    v.accepts ticket request = [] := by
  simp [accepts, Request.parcels, h]

theorem accepts_of_receives (v : Rendezvous) (ticket : Nat) (h : request.receives = true) :
    v.accepts ticket request = [] := by
  cases request with
  | receive | receiveWithin => exact accepts_of_token?_eq_none v ticket rfl
  | send | close | cancel => exact absurd h nofun

theorem accepts_send {token : Token} (hrefusal : v.channel.refusal = none) :
    v.accepts ticket (.send token) = [(ticket, token)] := by
  simp [accepts, hrefusal, Request.parcels, Request.token?]

/-- There are no other ways to do something with tokens. -/
theorem Performs.trades (hp : v.Performs ticket request v' ended) (hv : v.Settled) :
    Trades v.channel v'.channel ticket request ended (v.accepts ticket request)
      (v.moves ticket request) := by
  cases hp with
  | refuse hrefusal =>
    simp only [accepts, moves, hrefusal]
    exact .nothing nofun rfl rfl rfl (by simp [Departure.received?])
  | wait hrefusal hslot hnil =>
    simp only [accepts_send hrefusal, moves, hrefusal, hnil, hslot]
    exact .waits rfl hslot rfl
  | displace hrefusal hslot =>
    have hnil := hv.receivers_eq_nil (by simp [hslot])
    simp only [accepts_send hrefusal, moves, hrefusal, hnil, hslot]
    exact .displaces rfl hslot rfl
  | meet hrefusal hslot hcons hended =>
    simp only [accepts_send hrefusal, moves, hrefusal, hcons]
    exact .meets rfl hslot rfl hended
  | take hreceives hslot hended =>
    rw [accepts_of_receives v ticket hreceives, moves_of_receives v ticket hreceives, hslot]
    exact .takes hreceives hslot rfl hended
  | exhausted hreceives hslot =>
    rw [accepts_of_receives v ticket hreceives, moves_of_receives v ticket hreceives, hslot]
    refine .nothing (fun hcancel => ?_) rfl rfl rfl (by simp [Departure.received?])
    exact absurd (hcancel ▸ hreceives) nofun
  | queue hslot =>
    rw [accepts_of_receives v ticket rfl, moves_of_receives v ticket rfl, hslot]
    exact .nothing nofun rfl rfl rfl (by simp)
  | timeOut hslot =>
    rw [accepts_of_receives v ticket rfl, moves_of_receives v ticket rfl, hslot]
    exact .nothing nofun rfl rfl rfl (by simp [Departure.received?])
  | close =>
    rw [accepts_of_token?_eq_none v ticket rfl]
    exact .nothing nofun rfl rfl rfl (by simp [Departure.received?])
  | cancel =>
    rw [accepts_of_token?_eq_none v ticket rfl, moves]
    cases hslot : v.channel.slot with
    | none =>
      refine .nothing (fun _ => ⟨hslot, rfl⟩) hslot.symm rfl rfl ?_
      simp [Departure.received?]
    | some parcel => exact .drops rfl hslot rfl

/-- A token that waits, or is brought, is moved, or goes on waiting. -/
theorem Trades.slot_append (h : Trades c c' ticket request ended accepted moved) :
    c.slot.toList ++ accepted = moved.map Prod.fst ++ c'.slot.toList := by
  cases h with
  | nothing _ hslot => simp [hslot]
  | waits _ hslot hchannel | displaces _ hslot hchannel | meets _ hslot hchannel
  | takes _ hslot hchannel | drops _ hslot hchannel => simp [hslot, hchannel, Channel.cancel]

/-- The channel counts the tokens that are moved, other than those that are dropped. -/
theorem Trades.sent_eq (h : Trades c c' ticket request ended accepted moved) :
    c'.sent = c.sent + moved.countP (·.2 ≠ .dropped) := by
  cases h with
  | nothing _ _ hsent => exact hsent
  | waits _ _ hchannel | displaces _ _ hchannel | meets _ _ hchannel | takes _ _ hchannel
  | drops _ _ hchannel => simp [hchannel, Channel.cancel]

theorem Trades.received_eq (h : Trades c c' ticket request ended accepted moved) :
    c'.received = c.received + moved.countP (·.2.isDelivered) := by
  cases h with
  | nothing _ _ _ hreceived => exact hreceived
  | waits _ _ hchannel | displaces _ _ hchannel | meets _ _ hchannel | takes _ _ hchannel
  | drops _ _ hchannel => simp [hchannel, Channel.cancel, Fate.isDelivered]

/-- Whoever departs with a token has received one that is moved. -/
theorem Trades.receipts_eq (h : Trades c c' ticket request ended accepted moved) :
    ended.filterMap (fun d => d.2.received?) =
      (moved.filter fun m => m.2.isDelivered).map Prod.fst := by
  cases h with
  | nothing _ _ _ _ hended => simpa [List.filterMap_eq_nil_iff] using fun i d hd => (hended _ hd).2
  | waits | displaces | drops => rfl
  | meets _ _ _ hended | takes _ _ _ hended =>
    -- Two depart, in whichever order, but only one of them with a token.
    exact List.perm_singleton.1 ((hended.filterMap _).trans (.of_eq rfl))

theorem Trades.mem_received (h : Trades c c' ticket request ended accepted moved) :
    (receiver, .received parcel) ∈ ended ↔ (parcel, .delivered receiver) ∈ moved := by
  cases h with
  | nothing _ _ _ _ hended =>
    refine ⟨fun hd => ?_, nofun⟩
    exact absurd (hended _ hd).2 nofun
  | waits | displaces | drops => simp
  | meets _ _ _ hended | takes _ _ _ hended => simp [hended.mem_iff, and_comm]

theorem Trades.mem_sent (h : Trades c c' ticket request ended accepted moved) :
    (i, .sent) ∈ ended ↔ ∃ m ∈ moved, m.1.1 = i ∧ m.2 ≠ .dropped := by
  cases h with
  | nothing _ _ _ _ hended =>
    refine ⟨fun hd => absurd rfl (hended _ hd).1, by simp⟩
  | waits | displaces | drops => simp [eq_comm]
  | meets _ _ _ hended | takes _ _ _ hended => simp [hended.mem_iff, eq_comm]

/-- A token that is moved is displaced, dropped or delivered. -/
theorem Trades.moved_to (h : Trades c c' ticket request ended accepted moved)
    (hm : (parcel, fate) ∈ moved) :
    fate = .displaced ∨ fate = .dropped ∨ ∃ receiver, fate = .delivered receiver := by
  cases h with
  | nothing | waits => exact absurd hm List.not_mem_nil
  | displaces => exact .inl (Prod.mk.inj (List.mem_singleton.1 hm)).2
  | drops => exact .inr (.inl (Prod.mk.inj (List.mem_singleton.1 hm)).2)
  | meets | takes => exact .inr (.inr ⟨_, (Prod.mk.inj (List.mem_singleton.1 hm)).2⟩)

theorem Trades.of_displaced (h : Trades c c' ticket request ended accepted moved)
    (hm : (parcel, .displaced) ∈ moved) : c.slot = some parcel ∧ request.token? ≠ none := by
  cases h with
  | nothing | waits => exact absurd hm List.not_mem_nil
  | displaces hrequest hslot =>
    obtain rfl := (Prod.mk.inj (List.mem_singleton.1 hm)).1
    exact ⟨hslot, by simp [hrequest, Request.token?]⟩
  | meets | takes | drops => simp at hm

theorem Trades.of_dropped (h : Trades c c' ticket request ended accepted moved)
    (hm : (parcel, .dropped) ∈ moved) : c.slot = some parcel ∧ request = .cancel ∧
      (parcel.1, .refused .cancelled) ∈ ended := by
  cases h with
  | nothing | waits => exact absurd hm List.not_mem_nil
  | drops hrequest hslot =>
    obtain rfl := (Prod.mk.inj (List.mem_singleton.1 hm)).1
    exact ⟨hslot, hrequest, by simp⟩
  | displaces | meets | takes => simp at hm

/-- Only a cancellation drops a token, and moves no other. -/
theorem Trades.dropped_or (h : Trades c c' ticket request ended accepted moved) :
    (∀ m ∈ moved, m.2 ≠ .dropped) ∨ request = .cancel ∧ ∃ x, moved = [(x, .dropped)] := by
  cases h with
  | drops hrequest => exact .inr ⟨hrequest, _, rfl⟩
  | nothing | waits | displaces | meets | takes => simp

/-- A cancellation releases none but the sender of a token that it drops. -/
theorem Trades.dropped_of_released (h : Trades c c' ticket request ended accepted moved)
    (hcancel : request = .cancel) (hd : (i, .refused .cancelled) ∈ ended) :
    ∃ m ∈ moved, m.1.1 = i ∧ m.2 = .dropped := by
  subst hcancel
  cases h with
  | nothing hcancel => simp [(hcancel rfl).2] at hd
  | drops => simpa [eq_comm] using hd
  | waits hrequest | displaces hrequest | meets hrequest | takes hrequest =>
    exact absurd hrequest nofun

end Trades

/-! ## Books -/

/-- The tokens that have been sent, in order. -/
def sends (log : List Entry) : List Parcel :=
  log.flatMap fun e => e.request.parcels e.ticket

/-- The tokens that have been sent and not been refused, in order. -/
def accepted (log : List Entry) : List Parcel :=
  log.flatMap fun e => e.before.accepts e.ticket e.request

/-- The tokens that have left the channel, in order, and what has become of them. -/
def moved (log : List Entry) : List (Parcel × Fate) :=
  log.flatMap fun e => e.before.moves e.ticket e.request

/-- The tokens that have been received, in order. -/
def receipts (log : List Entry) : List Parcel :=
  (departures log).filterMap fun d => d.2.received?

section Books

variable {v : Rendezvous} {log : List Entry} {e e' : Entry} {x y : Parcel} {fate fate' : Fate}

theorem Runs.trades (h : Runs log v) (he : e ∈ log) :
    Trades e.before.channel e.after.channel e.ticket e.request e.ended
      (e.before.accepts e.ticket e.request) (e.before.moves e.ticket e.request) := by
  obtain ⟨log', v', -, hruns, hchannel, hperm, -⟩ := h.of_mem he
  exact (h.performs_of_mem he).trades (hruns.settled.of_perm hchannel hperm)

/-- What is done with tokens by the last request of a log. -/
theorem Runs.trades_last (h : Runs log v) (request : Request) {receivers : List Nat}
    (hperm : receivers.Perm v.receivers) :
    Trades v.channel (Entry.after ⟨{ v with receivers }, log.length, request⟩).channel log.length
      request (Entry.ended ⟨{ v with receivers }, log.length, request⟩)
      (accepts { v with receivers } log.length request)
      (moves { v with receivers } log.length request) :=
  (h.snoc request hperm).trades (List.mem_append_right _ (List.mem_singleton_self _))

/-- What has been accepted has left the channel or waits there. -/
theorem Runs.accepted_eq (h : Runs log v) :
    accepted log = (moved log).map Prod.fst ++ v.channel.slot.toList := by
  induction h with
  | nil => rfl
  | snoc hruns request hperm ih =>
    have hlast := (hruns.trades_last request hperm).slot_append
    simp only [accepted, moved, List.flatMap_append, List.flatMap_singleton,
      List.map_append] at ih ⊢
    rw [ih, List.append_assoc, hlast, List.append_assoc]

/-- A number that grows with each token of a kind that is moved counts all of them. -/
theorem Runs.eq_countP_moved (h : Runs log v) {f : Channel Parcel → Nat}
    {p : Parcel × Fate → Bool} (hzero : f {} = 0)
    (hgrows : ∀ c c' ticket request ended accepted moved,
      Trades c c' ticket request ended accepted moved → f c' = f c + moved.countP p) :
    f v.channel = (moved log).countP p := by
  induction h with
  | nil => exact hzero
  | snoc hruns request hperm ih =>
    rw [hgrows _ _ _ _ _ _ _ (hruns.trades_last request hperm), ih, moved, moved,
      List.flatMap_append, List.countP_append, List.flatMap_singleton]

theorem Runs.sent_eq (h : Runs log v) :
    v.channel.sent = (moved log).countP (·.2 ≠ .dropped) :=
  h.eq_countP_moved (f := Channel.sent) rfl fun _ _ _ _ _ _ _ ht => ht.sent_eq

theorem Runs.received_eq (h : Runs log v) :
    v.channel.received = (moved log).countP (·.2.isDelivered) :=
  h.eq_countP_moved (f := Channel.received) rfl fun _ _ _ _ _ _ _ ht => ht.received_eq

theorem Runs.receipts_eq (h : Runs log v) :
    receipts log = ((moved log).filter fun m => m.2.isDelivered).map Prod.fst := by
  rw [receipts, departures, List.filterMap_flatMap, moved, List.filter_flatMap, List.map_flatMap]
  exact List.flatMap_congr fun e he => (h.trades he).receipts_eq

/-! ### Tickets -/

theorem Runs.tickets_eq (h : Runs log v) : log.map Entry.ticket = List.range log.length := by
  induction h with
  | nil => rfl
  | snoc hruns request hperm ih =>
    rw [List.map_append, ih, List.length_append, List.length_singleton, List.range_succ]
    rfl

theorem Runs.getElem?_ticket (h : Runs log v) (he : e ∈ log) : log[e.ticket]? = some e := by
  obtain ⟨i, hi⟩ := List.mem_iff_getElem?.1 he
  have hticket := congrArg (·[i]?) h.tickets_eq
  simp only [List.getElem?_map, hi, Option.map_some] at hticket
  have hrange := (List.getElem?_eq_some_iff.1 hticket.symm).2
  rw [List.getElem_range] at hrange
  rwa [← hrange]

theorem Runs.entry_unique (h : Runs log v) (he : e ∈ log) (he' : e' ∈ log)
    (hticket : e.ticket = e'.ticket) : e = e' := by
  have hsame := h.getElem?_ticket he'
  rw [← hticket, h.getElem?_ticket he] at hsame
  exact Option.some.inj hsame

theorem mem_parcels {ticket : Nat} {request : Request} :
    x ∈ request.parcels ticket ↔ x.1 = ticket ∧ request = .send x.2 := by
  obtain ⟨i, token⟩ := x
  cases request <;> simp [Request.parcels, Request.token?, eq_comm, and_comm]

theorem mem_sends : x ∈ sends log ↔ ∃ e ∈ log, e.ticket = x.1 ∧ e.request = .send x.2 := by
  simp only [sends, List.mem_flatMap, mem_parcels, eq_comm]

theorem accepted_sublist (log : List Entry) : (accepted log).Sublist (sends log) := by
  refine List.Sublist.flatMap_right log fun e _ => ?_
  rw [accepts]
  split
  · exact List.Sublist.refl _
  · exact List.nil_sublist _

theorem mem_accepted : x ∈ accepted log ↔
    ∃ e ∈ log, e.before.channel.refusal = none ∧ e.ticket = x.1 ∧ e.request = .send x.2 := by
  simp only [accepted, List.mem_flatMap, accepts, List.mem_ite_nil_right, Option.isNone_iff_eq_none,
    mem_parcels, eq_comm (a := x.1)]

/-- No two tokens are sent with the same ticket. -/
theorem Runs.nodup_sends (h : Runs log v) : ((sends log).map Prod.fst).Nodup := by
  have hsub : ((sends log).map Prod.fst).Sublist (log.map Entry.ticket) := by
    rw [sends, List.map_flatMap, List.map_eq_flatMap (f := Entry.ticket)]
    refine List.Sublist.flatMap_right log fun e _ => ?_
    cases htoken : e.request.token? <;> simp [Request.parcels, htoken]
  exact (h.tickets_eq ▸ List.nodup_range).sublist hsub

theorem Runs.send_unique (h : Runs log v) (hx : x ∈ sends log) (hy : y ∈ sends log)
    (hxy : x.1 = y.1) : x = y :=
  List.inj_on_of_nodup_map h.nodup_sends hx hy hxy

/-- A token that has been moved or waits has been accepted, and is moved once. -/
theorem Runs.nodup_moved (h : Runs log v) :
    (((moved log).map fun m => m.1.1) ++ v.channel.slot.toList.map Prod.fst).Nodup := by
  have hsub := h.nodup_sends.sublist ((accepted_sublist log).map Prod.fst)
  rwa [h.accepted_eq, List.map_append, List.map_map] at hsub

theorem Runs.sends_of_moved (h : Runs log v) (hx : (x, fate) ∈ moved log) : x ∈ sends log := by
  refine (accepted_sublist log).subset ?_
  rw [h.accepted_eq]
  exact List.mem_append_left _ (List.mem_map_of_mem (f := Prod.fst) hx)

theorem Runs.moved_unique (h : Runs log v) (hx : (x, fate) ∈ moved log)
    (hx' : (x, fate') ∈ moved log) : fate = fate' :=
  (Prod.mk.inj (List.inj_on_of_nodup_map (List.nodup_append.1 h.nodup_moved).1 hx hx' rfl)).2

theorem Runs.not_moved_of_slot (h : Runs log v) (hslot : v.channel.slot = some x) :
    (x, fate) ∉ moved log := fun hx =>
  (List.nodup_append.1 h.nodup_moved).2.2 x.1 (List.mem_map_of_mem (f := fun m => m.1.1) hx) x.1
    (by simp [hslot]) rfl

/-- A token that is moved has been accepted. -/
theorem Runs.not_moved_of_refused (h : Runs log v) (he : e ∈ log) (hticket : e.ticket = x.1)
    (hrefused : e.before.channel.refusal ≠ none) : (x, fate) ∉ moved log := by
  intro hx
  have haccepted : x ∈ accepted log := by
    rw [h.accepted_eq]
    exact List.mem_append_left _ (List.mem_map_of_mem (f := Prod.fst) hx)
  obtain ⟨e', he', hopen, hticket', -⟩ := mem_accepted.1 haccepted
  obtain rfl := h.entry_unique he he' (hticket.trans hticket'.symm)
  exact hrefused hopen

end Books

end Rendezvous

end StateLexer
