import Mathlib.Data.List.Induction
import Mathlib.Data.List.Nodup
import StateLexer.Channel.Request

/-!
# The history of a channel

What a request does depends on who waits, and there are ten ways in all
(`Rendezvous.Performs`). Whatever is to be known about a request is found there, case by
case.

What has happened at a channel is written in a *log*: for each request the channel that
it has found. Its index is its ticket. In which order those who wait for a token get one
is left open, so there are several runs of the same requests (`Rendezvous.Runs`). On any
run

* nobody waits who could go on (`Runs.settled`);
* everybody either has departed, once, or waits (`Runs.waiting_perm`);
* who waits has asked for it, and for nothing else (`Runs.blocked_iff`).
-/

namespace StateLexer.Rendezvous

open scoped List

variable {v v' : Rendezvous}

/-- Nobody waits who could go on. -/
structure Settled (v : Rendezvous) : Prop where
  receivers_eq_nil : v.channel.slot ≠ none → v.receivers = []
  not_cancelled : v.channel.slot ≠ none → v.channel.cancelled = false
  not_closed : v.receivers ≠ [] → v.channel.closed = false

theorem Settled.slot_eq_none_of_receiver (h : v.Settled) {i : Nat} (hi : i ∈ v.receivers) :
    v.channel.slot = none := by
  by_contra hne
  rw [h.receivers_eq_nil hne] at hi
  exact absurd hi List.not_mem_nil

theorem Settled.slot_eq_none_of_cancelled (h : v.Settled)
    (hcancelled : v.channel.cancelled = true) : v.channel.slot = none := by
  by_contra hne
  exact absurd (hcancelled.symm.trans (h.not_cancelled hne)) nofun

theorem Settled.closed_eq_false (h : v.Settled) {i : Nat} (hi : i ∈ v.receivers) :
    v.channel.closed = false :=
  h.not_closed (List.ne_nil_of_mem hi)

/-! ## What a request does -/

section Performs

variable {ticket : Nat} {request : Request} {ended : List (Nat × Departure)}

/-- The ways in which a request is performed. -/
inductive Performs (v : Rendezvous) (ticket : Nat) :
    Request → Rendezvous → List (Nat × Departure) → Prop
  | refuse {token : Token} {why : Refusal} (hrefusal : v.channel.refusal = some why) :
    Performs v ticket (.send token) v [(ticket, .refused why)]
  | wait {token : Token} (hrefusal : v.channel.refusal = none) (hslot : v.channel.slot = none)
    (hreceivers : v.receivers = []) :
    Performs v ticket (.send token)
      { v with channel := { v.channel with slot := some (ticket, token) } } []
  | displace {token : Token} {parcel : Parcel} (hrefusal : v.channel.refusal = none)
    (hslot : v.channel.slot = some parcel) :
    Performs v ticket (.send token)
      { v with channel := { v.channel with
        slot := some (ticket, token), sent := v.channel.sent + 1 } }
      [(parcel.1, .sent)]
  | meet {token : Token} {receiver : Nat} {receivers : List Nat} {ended : List (Nat × Departure)}
    (hrefusal : v.channel.refusal = none) (hslot : v.channel.slot = none)
    (hreceivers : v.receivers = receiver :: receivers)
    (hended : ended.Perm [(receiver, .received (ticket, token)), (ticket, .sent)]) :
    Performs v ticket (.send token)
      { channel := { v.channel with
          sent := v.channel.sent + 1, received := v.channel.received + 1 }, receivers }
      ended
  | take {request : Request} {parcel : Parcel} {ended : List (Nat × Departure)}
    (hrequest : request.receives = true) (hslot : v.channel.slot = some parcel)
    (hended : ended.Perm [(ticket, .received parcel), (parcel.1, .sent)]) :
    Performs v ticket request
      { v with channel := { v.channel with
        slot := none, sent := v.channel.sent + 1, received := v.channel.received + 1 } }
      ended
  | exhausted {request : Request} (hrequest : request.receives = true)
    (hslot : v.channel.slot = none) (hclosed : v.channel.closed = true) :
    Performs v ticket request v [(ticket, .exhausted)]
  | queue (hslot : v.channel.slot = none) (hclosed : v.channel.closed = false) :
    Performs v ticket .receive { v with receivers := v.receivers ++ [ticket] } []
  | timeOut (hslot : v.channel.slot = none) (hclosed : v.channel.closed = false) :
    Performs v ticket .receiveWithin v [(ticket, .timedOut)]
  | close :
    Performs v ticket .close { channel := v.channel.close, receivers := [] }
      ((ticket, .done) :: v.receivers.map fun receiver => (receiver, .exhausted))
  | cancel :
    Performs v ticket .cancel { v with channel := v.channel.cancel }
      ((ticket, .done) ::
        v.channel.slot.toList.map fun parcel => (parcel.1, .refused .cancelled))

theorem Ended.departures_sort_perm (ticket : Nat) (ended : Ended) :
    (ended.sort.departures ticket).Perm (ended.departures ticket) :=
  (List.mergeSort_perm _ _).map _

/-- There are no other ways. -/
theorem Settled.performs (h : v.Settled) (ticket : Nat) (request : Request) :
    v.Performs ticket request (v.perform ticket request).1 (v.perform ticket request).2 := by
  obtain ⟨⟨slot, closed, cancelled, sent, received⟩, receivers⟩ := v
  cases request with
  | send token =>
    cases hrefusal : Channel.refusal ⟨slot, closed, cancelled, sent, received⟩ with
    | some why =>
      simp only [perform, send, hrefusal]
      exact .refuse hrefusal
    | none =>
      cases slot with
      | some parcel =>
        -- Nobody waits for a token where one is.
        obtain rfl : receivers = [] := h.receivers_eq_nil (Option.some_ne_none parcel)
        simp only [perform, send, hrefusal]
        exact .displace hrefusal rfl
      | none =>
        cases receivers with
        | nil =>
          simp only [perform, send, hrefusal]
          exact .wait hrefusal rfl rfl
        | cons receiver receivers =>
          simp only [perform, send, hrefusal]
          exact .meet hrefusal rfl rfl (Ended.departures_sort_perm _ _)
  | receive =>
    cases slot with
    | some parcel => exact .take rfl rfl (Ended.departures_sort_perm _ _)
    | none =>
      cases closed with
      | true => exact .exhausted rfl rfl rfl
      | false => exact .queue rfl rfl
  | receiveWithin =>
    cases slot with
    | some parcel => exact .take rfl rfl (.refl _)
    | none =>
      cases closed with
      | true => exact .exhausted rfl rfl rfl
      | false => exact .timeOut rfl rfl
  | close =>
    simp only [perform, close, Ended.departures, List.map_map]
    exact .close
  | cancel =>
    simp only [perform, cancel, senderEnds, Ended.departures, List.map_map]
    exact .cancel

theorem Performs.settled (hp : v.Performs ticket request v' ended) (h : v.Settled) :
    v'.Settled := by
  obtain ⟨hreceivers, hcancelled, hclosed⟩ := h
  cases hp with
  | refuse => exact ⟨hreceivers, hcancelled, hclosed⟩
  | wait hrefusal hslot hnil =>
    exact ⟨fun _ => hnil, fun _ => (Channel.refusal_eq_none_iff.1 hrefusal).1, hclosed⟩
  | displace hrefusal hslot =>
    refine ⟨fun _ => hreceivers ?_, fun _ => (Channel.refusal_eq_none_iff.1 hrefusal).1, hclosed⟩
    simp [hslot]
  | meet hrefusal hslot hcons =>
    refine ⟨fun hne => absurd hslot hne, fun hne => absurd hslot hne, fun _ => hclosed ?_⟩
    simp [hcons]
  | take => exact ⟨fun hne => absurd rfl hne, fun hne => absurd rfl hne, hclosed⟩
  | exhausted => exact ⟨hreceivers, hcancelled, hclosed⟩
  | queue hslot hopen => exact ⟨fun hne => absurd hslot hne, hcancelled, fun _ => hopen⟩
  | timeOut => exact ⟨hreceivers, hcancelled, hclosed⟩
  | close => exact ⟨fun _ => rfl, hcancelled, fun hne => absurd rfl hne⟩
  | cancel => exact ⟨fun hne => absurd rfl hne, fun hne => absurd rfl hne, hclosed⟩

/-! ## Who waits -/

theorem waiting_perm (v : Rendezvous) :
    v.waiting.Perm (v.channel.slot.toList.map Prod.fst ++ v.receivers) :=
  List.mergeSort_perm _ _

theorem mem_waiting {i : Nat} :
    i ∈ v.waiting ↔ (∃ token, v.channel.slot = some (i, token)) ∨ i ∈ v.receivers := by
  rw [v.waiting_perm.mem_iff, List.mem_append]
  simp

/-- Those who have waited and the one who asks depart, or wait behind the request. -/
theorem Performs.waiting_perm (hp : v.Performs ticket request v' ended) (h : v.Settled) :
    (ended.map Prod.fst ++ v'.waiting).Perm (v.waiting ++ [ticket]) := by
  refine ((v'.waiting_perm.append_left _).trans ?_).trans (v.waiting_perm.append_right _).symm
  cases hp with
  | refuse => exact List.perm_append_comm
  | wait hrefusal hslot hnil => simp [hslot, hnil]
  | @displace token parcel hrefusal hslot =>
    have hnil := h.receivers_eq_nil (by simp [hslot])
    simp [hslot, hnil]
  | meet hrefusal hslot hcons hended =>
    refine ((hended.map _).append_right _).trans ?_
    simp only [hslot, hcons, Option.toList_none, List.map_nil, List.nil_append, List.map_cons,
      List.cons_append]
    exact .cons _ (List.perm_append_singleton _ _).symm
  | take hrequest hslot hended =>
    have hnil := h.receivers_eq_nil (by simp [hslot])
    refine ((hended.map _).append_right _).trans ?_
    simp only [hslot, hnil, Option.toList_none, Option.toList_some, List.map_nil, List.map_cons,
      List.nil_append, List.append_nil, List.cons_append]
    exact .swap _ _ _
  | exhausted => exact List.perm_append_comm
  | queue hslot => simp [hslot]
  | timeOut => exact List.perm_append_comm
  | close =>
    simp only [Channel.close, List.map_cons, List.map_map, Function.comp_def, List.map_id',
      List.append_nil, List.cons_append]
    exact (List.perm_append_comm.cons ticket).trans (List.perm_append_singleton _ _).symm
  | cancel =>
    simp only [Channel.cancel, Option.toList_none, List.map_nil, List.nil_append, List.map_cons,
      List.map_map, Function.comp_def, List.cons_append]
    exact (List.perm_append_singleton _ _).symm

/-- A token that waits behind the request has been sent with it, or has waited before. -/
theorem Performs.slot (hp : v.Performs ticket request v' ended) {i : Nat} {token : Token}
    (h : v'.channel.slot = some (i, token)) :
    (i = ticket ∧ request = .send token) ∨ v.channel.slot = some (i, token) := by
  cases hp with
  | wait | displace =>
    obtain ⟨rfl, rfl⟩ := Prod.mk.inj (Option.some.inj h)
    exact .inl ⟨rfl, rfl⟩
  | take | cancel => exact absurd h nofun
  | refuse | meet | exhausted | queue | timeOut | close => exact .inr h

/-- Who waits for a token behind the request has asked for it now, or has waited before. -/
theorem Performs.receivers (hp : v.Performs ticket request v' ended) {i : Nat}
    (h : i ∈ v'.receivers) : (i = ticket ∧ request = .receive) ∨ i ∈ v.receivers := by
  cases hp with
  | meet hrefusal hslot hcons => exact .inr (by simp [hcons, h])
  | queue =>
    rcases List.mem_append.1 h with h | h
    · exact .inr h
    · exact .inl ⟨List.mem_singleton.1 h, rfl⟩
  | close => exact absurd h List.not_mem_nil
  | refuse | wait | displace | take | exhausted | timeOut | cancel => exact .inr h

/-- Only one request closes the channel, only one cancels it, and none undoes that. -/
theorem Performs.flags (hp : v.Performs ticket request v' ended) :
    (v'.channel.closed = true ↔ v.channel.closed = true ∨ request = .close) ∧
      (v'.channel.cancelled = true ↔ v.channel.cancelled = true ∨ request = .cancel) := by
  cases hp with
  | close => simp [Channel.close]
  | cancel => simp [Channel.cancel]
  | take hrequest | exhausted hrequest =>
    cases request with
    | receive | receiveWithin => simp
    | send | close | cancel => exact absurd hrequest nofun
  | refuse | wait | displace | meet | queue | timeOut => simp

end Performs

/-! ## Logs -/

/-- A request with its ticket, and what it has found. -/
structure Entry where
  before : Rendezvous
  ticket : Nat
  request : Request

namespace Entry

/-- What is there behind the request. -/
def after (e : Entry) : Rendezvous :=
  (e.before.perform e.ticket e.request).1

/-- Who departs with the request. -/
def ended (e : Entry) : List (Nat × Departure) :=
  (e.before.perform e.ticket e.request).2

end Entry

/-- All who have departed, in order. -/
def departures (log : List Entry) : List (Nat × Departure) :=
  log.flatMap Entry.ended

/-- The channel has come to be as it is by the requests in the log, one after the other.
    Those who wait for a token may get one in any order. -/
inductive Runs : List Entry → Rendezvous → Prop
  | nil : Runs [] {}
  | snoc {log : List Entry} {v : Rendezvous} (hruns : Runs log v) (request : Request)
    {receivers : List Nat} (hperm : receivers.Perm v.receivers) :
    Runs (log ++ [⟨{ v with receivers }, log.length, request⟩])
      (Entry.after ⟨{ v with receivers }, log.length, request⟩)

variable {log log' : List Entry} {e : Entry} {i : Nat} {token : Token} {d d' : Departure}

theorem departures_append (log log' : List Entry) :
    departures (log ++ log') = departures log ++ departures log' :=
  List.flatMap_append

theorem departures_singleton (e : Entry) : departures [e] = e.ended :=
  List.flatMap_singleton _ e

/-- What holds at the end of a log that goes on. -/
theorem Runs.of_snoc (h : Runs (log ++ [e]) v') :
    ∃ v, Runs log v ∧ e.before.channel = v.channel ∧ e.before.receivers.Perm v.receivers ∧
      e.ticket = log.length ∧ v' = e.after := by
  generalize hlog : log ++ [e] = log' at h
  cases h with
  | nil => simp at hlog
  | snoc hruns request hperm =>
    obtain ⟨rfl, heq⟩ := List.append_inj' hlog rfl
    obtain rfl := List.head_eq_of_cons_eq heq
    exact ⟨_, hruns, rfl, hperm, rfl, rfl⟩

/-- A log begins with logs. -/
theorem Runs.of_append (h : Runs (log ++ log') v') : ∃ v, Runs log v := by
  induction log' using List.reverseRecOn generalizing v' with
  | nil => exact ⟨v', by rwa [List.append_nil] at h⟩
  | append_singleton log' e ih =>
    rw [← List.append_assoc] at h
    obtain ⟨v, hruns, -⟩ := h.of_snoc
    exact ih hruns

/-- What holds in front of a request of a log. -/
theorem Runs.of_mem (h : Runs log v') (he : e ∈ log) : ∃ log' v, log' ++ [e] <+: log ∧
    Runs log' v ∧ e.before.channel = v.channel ∧ e.before.receivers.Perm v.receivers ∧
      e.ticket = log'.length := by
  obtain ⟨before, after, rfl⟩ := List.append_of_mem he
  rw [List.append_cons] at h ⊢
  obtain ⟨v, hruns⟩ := h.of_append
  obtain ⟨v, hruns, hchannel, hperm, hticket, -⟩ := hruns.of_snoc
  exact ⟨before, v, List.prefix_append _ _, hruns, hchannel, hperm, hticket⟩

theorem Settled.of_perm (h : v.Settled) (hchannel : v'.channel = v.channel)
    (hperm : v'.receivers.Perm v.receivers) : v'.Settled := by
  obtain ⟨hreceivers, hcancelled, hclosed⟩ := h
  refine ⟨fun hne => ?_, hchannel ▸ hcancelled, fun hne => ?_⟩
  · exact (hperm.trans (.of_eq (hreceivers (hchannel ▸ hne)))).eq_nil
  · rw [hchannel]
    exact hclosed fun hnil => hne (hperm.trans (.of_eq hnil)).eq_nil

/-- Nobody waits who could go on. -/
theorem Runs.settled (h : Runs log v) : v.Settled := by
  induction h with
  | nil => exact ⟨fun _ => rfl, fun h => absurd rfl h, fun h => absurd rfl h⟩
  | @snoc log v hruns request receivers hperm ih =>
    have hbefore : Settled { v with receivers } := ih.of_perm rfl hperm
    exact (hbefore.performs _ _).settled hbefore

/-- How the last request of a log is performed. -/
theorem Runs.performs (h : Runs log v) (request : Request) {receivers : List Nat}
    (hperm : receivers.Perm v.receivers) :
    ({ v with receivers } : Rendezvous).Performs log.length request
      (Entry.after ⟨{ v with receivers }, log.length, request⟩)
      (Entry.ended ⟨{ v with receivers }, log.length, request⟩) := by
  have hbefore : Settled { v with receivers } := h.settled.of_perm rfl hperm
  exact hbefore.performs _ _

/-- How any request of a log is performed. -/
theorem Runs.performs_of_mem (h : Runs log v) (he : e ∈ log) :
    e.before.Performs e.ticket e.request e.after e.ended := by
  obtain ⟨log', v', -, hruns, hchannel, hperm, -⟩ := h.of_mem he
  exact (hruns.settled.of_perm hchannel hperm).performs _ _

/-- Everybody either has departed, once, or waits. -/
theorem Runs.waiting_perm (h : Runs log v) :
    ((departures log).map Prod.fst ++ v.waiting).Perm (List.range log.length) := by
  induction h with
  | nil => exact .of_eq (by simp [departures, waiting])
  | @snoc log v hruns request receivers hperm ih =>
    -- The last request adds its own ticket, whoever departs with it.
    have hbefore : Settled { v with receivers } := hruns.settled.of_perm rfl hperm
    have hlast := (hruns.performs request hperm).waiting_perm hbefore
    have hwaiting : ({ v with receivers } : Rendezvous).waiting.Perm v.waiting :=
      (Rendezvous.waiting_perm _).trans ((hperm.append_left _).trans v.waiting_perm.symm)
    rw [departures_append, departures_singleton, List.map_append, List.append_assoc,
      List.length_append, List.length_singleton, List.range_succ]
    calc _ ~ (departures log).map Prod.fst ++ (_ ++ [log.length]) := hlast.append_left _
      _ ~ (departures log).map Prod.fst ++ (v.waiting ++ [log.length]) :=
        (hwaiting.append_right _).append_left _
      _ = ((departures log).map Prod.fst ++ v.waiting) ++ [log.length] :=
        (List.append_assoc _ _ _).symm
      _ ~ _ := ih.append_right _

theorem Runs.lt_of_departures (h : Runs log v) (hd : (i, d) ∈ departures log) :
    i < log.length := by
  have hmem : i ∈ (departures log).map Prod.fst ++ v.waiting :=
    List.mem_append_left _ (List.mem_map_of_mem (f := Prod.fst) hd)
  exact List.mem_range.1 (h.waiting_perm.mem_iff.1 hmem)

theorem Runs.nodup (h : Runs log v) : ((departures log).map Prod.fst ++ v.waiting).Nodup :=
  h.waiting_perm.nodup_iff.2 List.nodup_range

/-- Nobody departs twice. -/
theorem Runs.departs_once (h : Runs log v) (hd : (i, d) ∈ departures log)
    (hd' : (i, d') ∈ departures log) : d = d' := by
  have hinj := List.inj_on_of_nodup_map (List.nodup_append.1 h.nodup).1 hd hd' rfl
  exact (Prod.mk.inj hinj).2

theorem Runs.not_departed (h : Runs log v) (hi : i ∈ v.waiting) : (i, d) ∉ departures log :=
  fun hd => (List.nodup_append.1 h.nodup).2.2 _ (List.mem_map_of_mem (f := Prod.fst) hd) _ hi rfl

/-- Who has not departed waits. -/
theorem Runs.waiting_of_not_departed (h : Runs log v) (hi : i < log.length)
    (hnone : ∀ d, (i, d) ∉ departures log) : i ∈ v.waiting := by
  have hmem := h.waiting_perm.mem_iff.2 (List.mem_range.2 hi)
  rcases List.mem_append.1 hmem with hdeparted | hwaiting
  · obtain ⟨⟨i, d⟩, hd, rfl⟩ := List.mem_map.1 hdeparted
    exact absurd hd (hnone d)
  · exact hwaiting

/-- The channel is closed or cancelled once somebody has asked for it, and stays so. -/
theorem Runs.flags (h : Runs log v) :
    (v.channel.closed = true ↔ .close ∈ log.map Entry.request) ∧
      (v.channel.cancelled = true ↔ .cancel ∈ log.map Entry.request) := by
  induction h with
  | nil => exact ⟨⟨nofun, nofun⟩, ⟨nofun, nofun⟩⟩
  | snoc hruns request hperm ih =>
    obtain ⟨hclosed, hcancelled⟩ := (hruns.performs request hperm).flags
    rw [hclosed, hcancelled, ih.1, ih.2]
    simp [eq_comm]

theorem Runs.closed_iff (h : Runs log v) :
    v.channel.closed = true ↔ .close ∈ log.map Entry.request :=
  h.flags.1

theorem Runs.cancelled_iff (h : Runs log v) :
    v.channel.cancelled = true ↔ .cancel ∈ log.map Entry.request :=
  h.flags.2

/-! ## What they wait for -/

/-- What has been asked with the ticket. -/
def asked (log : List Entry) (i : Nat) : Option Request :=
  (log.map Entry.request)[i]?

theorem asked_append_of_lt (h : i < log.length) : asked (log ++ log') i = asked log i := by
  rw [asked, asked, List.map_append, List.getElem?_append_left (by rwa [List.length_map])]

theorem asked_append_length : asked (log ++ [e]) log.length = some e.request := by
  rw [asked, List.map_append, List.getElem?_append_right (by simp)]
  simp

theorem lt_of_asked {request : Request} (h : asked log i = some request) : i < log.length := by
  have hlt := (List.getElem?_eq_some_iff.1 h).1
  rwa [List.length_map] at hlt

theorem asked_append_of_some {request : Request} (h : asked log i = some request) :
    asked (log ++ log') i = some request :=
  (asked_append_of_lt (lt_of_asked h)).trans h

/-- A token that waits has been sent. -/
theorem Runs.asked_of_slot (h : Runs log v) (hslot : v.channel.slot = some (i, token)) :
    asked log i = some (.send token) := by
  induction h with
  | nil => exact absurd hslot nofun
  | snoc hruns request hperm ih =>
    rcases (hruns.performs request hperm).slot hslot with ⟨rfl, rfl⟩ | hslot
    · exact asked_append_length
    · exact asked_append_of_some (ih hslot)

/-- Who waits for a token has asked for it. -/
theorem Runs.asked_of_receiver (h : Runs log v) (hi : i ∈ v.receivers) :
    asked log i = some .receive := by
  induction h with
  | nil => exact absurd hi List.not_mem_nil
  | snoc hruns request hperm ih =>
    rcases (hruns.performs request hperm).receivers hi with ⟨rfl, rfl⟩ | hi
    · exact asked_append_length
    · exact asked_append_of_some (ih (hperm.mem_iff.1 hi))

/-- Who has made the request with the ticket has not departed. -/
def Blocked (log : List Entry) (i : Nat) (request : Request) : Prop :=
  asked log i = some request ∧ ∀ d, (i, d) ∉ departures log

/-- Only senders of the token that waits, and receivers, are blocked. -/
theorem Runs.blocked_iff (h : Runs log v) {request : Request} : Blocked log i request ↔
    (∃ token, request = .send token ∧ v.channel.slot = some (i, token)) ∨
      (request = .receive ∧ i ∈ v.receivers) := by
  constructor
  · rintro ⟨hasked, hnone⟩
    rcases mem_waiting.1 (h.waiting_of_not_departed (lt_of_asked hasked) hnone) with
      ⟨token, hslot⟩ | hi
    · exact .inl ⟨token, Option.some.inj (hasked.symm.trans (h.asked_of_slot hslot)), hslot⟩
    · exact .inr ⟨Option.some.inj (hasked.symm.trans (h.asked_of_receiver hi)), hi⟩
  · rintro (⟨token, rfl, hslot⟩ | ⟨rfl, hi⟩)
    · exact ⟨h.asked_of_slot hslot, fun d => h.not_departed (mem_waiting.2 (.inl ⟨token, hslot⟩))⟩
    · exact ⟨h.asked_of_receiver hi, fun d => h.not_departed (mem_waiting.2 (.inr hi))⟩

theorem Runs.blocked_send_iff (h : Runs log v) :
    Blocked log i (.send token) ↔ v.channel.slot = some (i, token) := by
  rw [h.blocked_iff]
  simp

theorem Runs.blocked_receive_iff (h : Runs log v) :
    Blocked log i .receive ↔ i ∈ v.receivers := by
  rw [h.blocked_iff]
  simp

end StateLexer.Rendezvous
