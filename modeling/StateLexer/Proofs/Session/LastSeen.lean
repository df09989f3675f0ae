import StateLexer.Proofs.Session.Cancellation
import StateLexer.Proofs.Windows

/-!
# The token that was seen last

A consumer who takes a token looks at it or not, and the session remembers the offset of the
last token that has been looked at. A request that asks for tokens shows them in its answer
(`Request.seen`). One that discards them (`Request.discards`) does not: the consumer who drains
a session does not look at what is left, and the offset stays what it was (`drain_unseen`).

* `booked_receive`, `accounts_collect`: one token is taken, or many, and looked at or not;
* `accounts_perform`: what a request takes, and what its answer shows; `accounts_performAll`:
  several requests;
* `emits_taken`: the tokens that have been taken are the first ones of a scan, also if it has
  been cancelled, and therefore in order;
* `last_pos_seen`: what the offset is, and that it never goes back.
-/

namespace StateLexer

variable {n : Nat} {lexer : Lexer n} {settings : Settings} {input : ByteArray} {pos : Int}
  {ts ts' : List Token}

/-! ## The last of some tokens -/

/-- The offset of the last of the tokens; of none, `pos`. -/
def Token.posOfLast (pos : Int) (ts : List Token) : Int :=
  (ts.getLast?.map Token.pos).getD pos

namespace Token

@[simp] theorem posOfLast_nil (pos : Int) : posOfLast pos [] = pos := rfl

theorem posOfLast_append (pos : Int) (ts ts' : List Token) :
    posOfLast pos (ts ++ ts') = posOfLast (posOfLast pos ts) ts' := by
  rw [posOfLast, List.getLast?_append, posOfLast, posOfLast]
  cases ts'.getLast? <;> rfl

@[simp] theorem posOfLast_cons (pos : Int) (t : Token) (ts : List Token) :
    posOfLast pos (t :: ts) = posOfLast t.pos ts :=
  posOfLast_append pos [t] ts

/-- Behind tokens in order, the last of them all does not lie in front of the last of the
    first ones. -/
theorem posOfLast_le_append (hpos : ∀ t ∈ ts ++ ts', pos ≤ t.pos)
    (hsorted : (ts ++ ts').Pairwise fun t t' => t.pos ≤ t'.pos) :
    posOfLast pos ts ≤ posOfLast pos (ts ++ ts') := by
  rw [posOfLast_append]
  cases hlast' : ts'.getLast? with
  | none => simp [posOfLast, hlast']
  | some t' =>
    have ht' := List.mem_of_getLast? hlast'
    rw [show posOfLast (posOfLast pos ts) ts' = t'.pos by simp [posOfLast, hlast']]
    cases hlast : ts.getLast? with
    | none => simpa [posOfLast, hlast] using hpos t' (List.mem_append_right _ ht')
    | some t =>
      rw [show posOfLast pos ts = t.pos by simp [posOfLast, hlast]]
      exact (List.pairwise_append.1 hsorted).2.2 t (List.mem_of_getLast? hlast) t' ht'

end Token

/-! ## What is taken and what is looked at -/

/-- The request takes tokens without looking at them. -/
def Request.discards : Request n → Bool
  | run _ => true
  | drain => true
  | close => true
  | leave => true
  | _ => false

/-- The tokens that the consumer looks at who gets the answer to the request. -/
def Request.seen : Request n → Answer n → List Token
  | next _, .token t => [t]
  | iterate _, .tokens i => i.tokens
  | _, _ => []

namespace Session

/-- The tokens that the consumer looks at in the answers to the requests. -/
def seen (s : Session n) : List (Request n) → List Token
  | [] => []
  | request :: requests =>
    request.seen (s.perform request).1 ++ (s.perform request).2.seen requests

/-- What the consumer has taken, and the offset of the token it has looked at last. -/
def ledger (s : Session n) : Array Token × Int :=
  (s.taken, s.lastPos)

variable {s s' : Session n}

theorem ledger_of_untouched (h : s'.untouched = s.untouched) : s'.ledger = s.ledger :=
  congrArg (·.2.2) h

theorem ledger_launch (s : Session n) (background : Bool) (input : ByteArray) :
    (s.launch background input).ledger = s.ledger :=
  congrArg (·.2.2) (untouched_launch s background input)

/-- What is taken is written down, and not yet looked at. -/
inductive Booked (s : Session n) : Receipt × Session n → Prop
  | token {t : Token} {s' : Session n} (ledger_eq : s'.ledger = (s.taken.push t, s.lastPos)) :
    Booked s (.token t, s')
  | ended : Booked s (.ended, s)
  | silence : Booked s (.silence, s)

theorem booked_receive (s : Session n) : s.Booked s.receive := by
  rw [receive]
  split
  · exact .token (ledger_of_untouched (untouched_resume _))
  · split
    · exact .ended
    · exact .silence

/-- From one session to the other tokens have been taken, and of these the consumer has looked
    at `seen`: at all of them, unless they are discarded. -/
def Accounts (s s' : Session n) (discards : Bool) (seen : List Token) : Prop :=
  ∃ new, s'.taken.toList = s.taken.toList ++ new ∧ seen = (if discards then [] else new) ∧
    s'.lastPos = Token.posOfLast s.lastPos seen

theorem accounts_of_ledger (h : s'.ledger = s.ledger) (discards : Bool) :
    s.Accounts s' discards [] := by
  obtain ⟨htaken, hpos⟩ := Prod.mk.inj h
  exact ⟨[], by simp [htaken], by simp, by simp [hpos]⟩

/-- What is neither taking nor looking makes no difference. -/
theorem Accounts.of_ledger {s₁ s₂ : Session n} {discards : Bool} {seen : List Token}
    (h : s₁.Accounts s₂ discards seen) (hs : s₁.ledger = s.ledger) (hs' : s'.ledger = s₂.ledger) :
    s.Accounts s' discards seen := by
  obtain ⟨new, htaken, hseen, hpos⟩ := h
  obtain ⟨htaken₁, hpos₁⟩ := Prod.mk.inj hs
  obtain ⟨htaken₂, hpos₂⟩ := Prod.mk.inj hs'
  exact ⟨new, by rw [htaken₂, htaken, htaken₁], hseen, by rw [hpos₂, hpos, hpos₁]⟩

/-- The tokens that are collected are those that are taken, and the consumer looks at all of
    them or at none. -/
theorem accounts_collect (looks : Bool) (limit : Nat) (tokens : Array Token) (s : Session n) :
    ∃ new, (s.collect looks (fun _ => false) limit tokens).1.tokens.toList =
        tokens.toList ++ new ∧
      s.Accounts (s.collect looks (fun _ => false) limit tokens).2 (!looks)
        (if looks then new else []) := by
  induction limit generalizing tokens s with
  | zero => exact ⟨[], by simp [collect], by simpa [collect] using accounts_of_ledger rfl _⟩
  | succ limit ih =>
    have hbooked := s.booked_receive
    rw [collect]
    generalize s.receive = received at hbooked ⊢
    cases hbooked with
    | @token t s' ledger_eq =>
      obtain ⟨htaken, hpos⟩ := Prod.mk.inj ledger_eq
      simp only [Bool.false_eq_true, if_false]
      obtain ⟨new, htokens, new', hrest, hseen, hlast⟩ :=
        ih (tokens.push t) (if looks then { s' with lastPos := t.pos } else s')
      refine ⟨t :: new, by simpa using htokens, t :: new', ?_, ?_, ?_⟩
      · rw [hrest]
        cases looks <;> simp [htaken]
      · cases looks with
        | false => rfl
        | true => simpa using hseen
      · rw [hlast]
        cases looks with
        | false => simpa using hpos
        | true => simp
    | ended => exact ⟨[], by simp, by simpa using accounts_of_ledger rfl _⟩
    | silence => exact ⟨[], by simp, by simpa using accounts_of_ledger rfl _⟩

theorem accounts_next (limit : Option Seconds) (s : Session n) :
    s.Accounts (s.perform (.next limit)).2 false
      (Request.seen (.next limit) (s.perform (.next limit)).1) := by
  have hbooked := s.booked_receive
  rw [perform, next]
  split
  · exact accounts_of_ledger rfl _
  · generalize s.receive = received at hbooked ⊢
    cases hbooked with
    | @token t s' ledger_eq =>
      obtain ⟨htaken, -⟩ := Prod.mk.inj ledger_eq
      exact ⟨[t], by simp [htaken], rfl, rfl⟩
    | ended =>
      simp only [conclude]
      split <;> exact accounts_of_ledger rfl _
    | silence => cases limit <;> exact accounts_of_ledger rfl _

theorem accounts_iterate (limit : Option Nat) (s : Session n) :
    s.Accounts (s.iterate limit).2 false (s.iterate limit).1.tokens := by
  rw [iterate]
  split
  · exact accounts_of_ledger rfl _
  · split
    · exact accounts_of_ledger rfl _
    · obtain ⟨new, htokens, haccounts⟩ :=
        s.accounts_collect true (limit.getD s.tokenBound) #[]
      simp only [Harvest.toIteration, htokens]
      exact haccounts

theorem accounts_run (input : ByteArray) (s : Session n) :
    s.Accounts (s.run input).2 true [] := by
  rw [run]
  split
  · exact accounts_of_ledger rfl _
  · obtain ⟨new, -, haccounts⟩ := (s.launch false input).accounts_collect false
      (s.launch false input).tokenBound #[]
    exact haccounts.of_ledger (ledger_launch s false input) rfl

theorem accounts_drain (s : Session n) : s.Accounts s.drain.2 true [] := by
  rw [drain]
  split
  · exact accounts_of_ledger rfl _
  · obtain ⟨new, -, haccounts⟩ := s.accounts_collect false s.tokenBound #[]
    generalize s.collect false (fun _ => false) s.tokenBound #[] = session at haccounts ⊢
    obtain ⟨⟨tokens, stop⟩, s'⟩ := session
    cases stop with
    | ended => exact haccounts.of_ledger rfl rfl
    | _ => exact haccounts

theorem accounts_close (s : Session n) : s.Accounts s.close.2 true [] := by
  have hdrain := s.accounts_drain
  rw [close]
  generalize s.drain = session at hdrain ⊢
  obtain ⟨reply, s'⟩ := session
  cases reply with
  | value k =>
    have hjoin := hdrain.of_ledger rfl (ledger_of_untouched (untouched_join s' none))
    simp only at hjoin ⊢
    generalize s'.join none = session' at hjoin ⊢
    obtain ⟨reply', s''⟩ := session'
    cases reply' <;> exact hjoin
  | error e => exact hdrain
  | never => exact hdrain

/-- A request accounts for the tokens that are taken: its answer shows them, or it discards
    them. -/
theorem accounts_perform (request : Request n) (s : Session n) :
    s.Accounts (s.perform request).2 request.discards
      (request.seen (s.perform request).1) := by
  cases request with
  | start input =>
    simp only [perform, start]
    split
    · exact accounts_of_ledger rfl _
    · exact accounts_of_ledger (ledger_launch s true input) _
  | run input => exact s.accounts_run input
  | next limit => exact s.accounts_next limit
  | iterate limit => exact s.accounts_iterate limit
  | drain => exact s.accounts_drain
  | cancel => exact accounts_of_ledger (ledger_of_untouched (untouched_cancel s)) _
  | join limit => exact accounts_of_ledger (ledger_of_untouched (untouched_join s limit)) _
  | close => exact s.accounts_close
  | enter => exact accounts_of_ledger rfl _
  | leave => exact s.accounts_close
  | abandon =>
    have hledger := ledger_of_untouched ((untouched_join s.cancel none).trans (untouched_cancel s))
    simp only [perform, abandon]
    generalize s.cancel.join none = session at hledger ⊢
    obtain ⟨reply, s'⟩ := session
    cases reply <;> exact accounts_of_ledger hledger _
  | resolve target => exact accounts_of_ledger rfl _

/-! ## Several requests -/

theorem seen_append (s : Session n) (requests more : List (Request n)) :
    s.seen (requests ++ more) = s.seen requests ++ (s.performAll requests).2.seen more := by
  induction requests generalizing s with
  | nil => rfl
  | cons request requests ih => simp [seen, performAll, ih]

/-- The consumer has looked at some of the tokens that have been taken, in order, and at all of
    them if none of the requests discards any. -/
theorem accounts_performAll (requests : List (Request n)) (s : Session n) :
    (s.performAll requests).2.lastPos = Token.posOfLast s.lastPos (s.seen requests) ∧
      ∃ new, (s.performAll requests).2.taken.toList = s.taken.toList ++ new ∧
        (s.seen requests).Sublist new ∧
        ((∀ request ∈ requests, request.discards = false) → s.seen requests = new) := by
  induction requests generalizing s with
  | nil => exact ⟨rfl, [], by simp [performAll], .refl _, fun _ => rfl⟩
  | cons request requests ih =>
    obtain ⟨new, htaken, hseen, hpos⟩ := s.accounts_perform request
    obtain ⟨hpos', new', htaken', hsublist, hall⟩ := ih (s.perform request).2
    refine ⟨?_, new ++ new', ?_, ?_, fun hnone => ?_⟩
    · rw [seen, Token.posOfLast_append, ← hpos]
      exact hpos'
    · rw [performAll, ← List.append_assoc, ← htaken]
      exact htaken'
    · refine .append ?_ hsublist
      rw [hseen]
      split
      · exact List.nil_sublist _
      · exact .refl _
    · rw [seen, hall fun other hother => hnone other (List.mem_cons_of_mem _ hother), hseen,
        if_neg (by simp [hnone request List.mem_cons_self])]

/-! ## The order of the tokens -/

/-- The session has taken the first tokens of the unbroken scan. -/
def TakesFrom (lexer : Lexer n) (settings : Settings) (input : ByteArray) (s : Session n) : Prop :=
  ∀ i t, s.taken.toList[i]? = some t → lexer.Emits settings input i t

/-- The session follows the unbroken scan, or it has been cancelled and will take no more. -/
def FollowsOrRests (lexer : Lexer n) (settings : Settings) (input : ByteArray) (s : Session n) :
    Prop :=
  s.Follows lexer settings input ∨
    s.isStarted = true ∧ s.channel.slot = none ∧ s.TakesFrom lexer settings input

theorem isStarted_cancel (h : s.isStarted = true) : s.cancel.isStarted = true := by
  cases htask : s.task with
  | idle => simp [isStarted, htask] at h
  | offering token rest =>
    rw [cancel_of_offering htask, haltWithin]
    split <;> rfl
  | _ => simp [cancel, isStarted, htask, haltBetween, finish, note, write]

theorem slot_cancel (s : Session n) : s.cancel.channel.slot = none := by
  cases htask : s.task with
  | offering token rest =>
    rw [cancel_of_offering htask, haltWithin]
    split <;> rfl
  | _ => simp only [cancel, htask]; rfl

theorem FollowsOrRests.takesFrom (h : s.FollowsOrRests lexer settings input) :
    s.TakesFrom lexer settings input :=
  h.elim (fun hfollows _ _ => hfollows.emits) fun hrests => hrests.2.2

/-- A session that is cancelled will take no more. -/
theorem FollowsOrRests.cancel (h : s.FollowsOrRests lexer settings input) :
    s.cancel.FollowsOrRests lexer settings input := by
  refine .inr ⟨isStarted_cancel (h.elim Follows.isStarted And.left), slot_cancel s, ?_⟩
  rw [TakesFrom, taken_cancel]
  exact h.takesFrom

theorem kept_followsOrRests (lexer : Lexer n) (settings : Settings) (input : ByteArray) :
    Kept (FollowsOrRests lexer settings input) where
  isStarted _ h := h.elim Follows.isStarted And.left
  receive s h := by
    rcases h with h | h
    · have hreceived := received h
      generalize s.receive = session at hreceived ⊢
      cases hreceived with
      | token emits follows => exact .inl follows
      | ended => exact .inl h
      | silence => exact .inl h
    · rw [receive]
      simp only [h.2.1]
      exact .inr h
  look _ pos h := h.imp (Follows.look · pos) id
  write _ notice h := h.imp (Follows.write · _ notice) id

/-- A scan that begins is followed, unless it has been cancelled before. -/
theorem followsOrRests_opening {opening : Request n} (h : opening.source? = some input)
    (cancelled : Bool) : ((idle lexer settings cancelled).perform opening).2.FollowsOrRests
      lexer settings input := by
  cases cancelled with
  | false => exact .inl (follows_opening h)
  | true =>
    obtain ⟨background, answer, -, hperform⟩ := exists_launch_cancelled lexer settings h
    obtain ⟨hhushed, hstill⟩ := hushed_launch lexer settings background input
    have hsession : ((idle lexer settings true).perform opening).2 =
        (idle lexer settings true).launch background input := congrArg Prod.snd (hperform lexer)
    rw [hsession]
    refine .inr ⟨hhushed.isStarted, hhushed.slot_eq, fun i t ht => ?_⟩
    simp [hstill.taken_eq] at ht

/-- Whatever is asked of a session, the tokens that have been taken are the first ones of a
    scan. -/
theorem emits_taken (lexer : Lexer n) (settings : Settings) (requests : List (Request n)) :
    ∃ input, (after lexer settings requests).TakesFrom lexer settings input := by
  cases hsource : requests.findSome? Request.source? with
  | none =>
    have hidle := performAll_idle lexer settings requests false
      (List.findSome?_eq_none_iff.1 hsource)
    refine ⟨.empty, fun i t ht => ?_⟩
    have htaken : (after lexer settings requests).taken = #[] := congrArg Session.taken hidle
    simp [htaken] at ht
  | some input =>
    obtain ⟨before, opening, behind, -, hopening, hsession⟩ :=
      exists_opening lexer settings hsource
    rw [hsession]
    refine ⟨input, FollowsOrRests.takesFrom ?_⟩
    refine performAll_induction behind (fun request _ s hs => ?_)
      (followsOrRests_opening hopening _)
    exact (kept_followsOrRests lexer settings input).perform request
      (fun _ _ => FollowsOrRests.cancel) hs

end Session

/-- Of windows that lie one behind the other, none begins in front of one before it. -/
theorem Abut.pairwise_start {a b : Nat} {cs : List Closing} (h : Abut a cs b)
    (hcs : ∀ c ∈ cs, c.reader.start ≤ c.reader.pos) :
    (∀ c ∈ cs, a ≤ c.reader.start) ∧
      cs.Pairwise fun c c' => c.reader.start ≤ c'.reader.start := by
  induction cs generalizing a with
  | nil => exact ⟨fun _ hc => absurd hc List.not_mem_nil, .nil⟩
  | cons c cs ih =>
    obtain ⟨rfl, h⟩ := h
    obtain ⟨hle, hpairwise⟩ := ih h fun d hd => hcs d (List.mem_cons_of_mem _ hd)
    have hbehind : ∀ d ∈ cs, c.reader.start ≤ d.reader.start := fun d hd =>
      Nat.le_trans (hcs c List.mem_cons_self) (hle d hd)
    refine ⟨fun d hd => ?_, .cons hbehind hpairwise⟩
    rcases List.mem_cons.1 hd with rfl | hd
    · exact Nat.le_refl _
    · exact hbehind d hd

/-- The tokens of a passage from the beginning of the input are in order. -/
theorem Passage.pairwise_pos {strict : Bool} {r : Reader} {cs : List Closing}
    (h : Passage strict { input } cs r) :
    (∀ t ∈ cs.filterMap Closing.token, 0 ≤ t.pos) ∧
      (cs.filterMap Closing.token).Pairwise fun t t' => t.pos ≤ t'.pos := by
  have hpos (c : Closing) (hc : c ∈ cs) (t : Token) (ht : c.token = some t) :
      t.pos = c.reader.start := by
    obtain ⟨kind, rfl⟩ := h.exists_kind c hc t ht
    rfl
  constructor
  · intro t ht
    obtain ⟨c, hc, htoken⟩ := List.mem_filterMap.1 ht
    rw [hpos c hc t htoken]
    exact Int.natCast_nonneg _
  · obtain ⟨-, hclosings⟩ := h.on (Reader.on_mk input)
    obtain ⟨-, hpairwise⟩ := h.abut.pairwise_start fun c hc => (hclosings c hc).start_le_pos
    refine List.pairwise_filterMap.2 (hpairwise.imp_of_mem fun {c c'} hc hc' hle t ht t' ht' => ?_)
    rw [hpos c hc t ht, hpos c' hc' t' ht']
    exact Int.ofNat_le.2 hle

/-- The tokens of a scan are in order. -/
theorem Lexer.pairwise_pos (lexer : Lexer n) (settings : Settings) (input : ByteArray) (k : Nat) :
    (∀ t ∈ (lexer.unbroken settings input k).tokens, 0 ≤ t.pos) ∧
      (lexer.unbroken settings input k).tokens.Pairwise fun t t' => t.pos ≤ t'.pos := by
  have hcalls := lexer.passes_calls { settings } k (some lexer.start) { input }
  rw [unbroken, hcalls.tokens_eq]
  exact hcalls.passage.pairwise_pos

namespace Session

/-- What has been taken is in order. -/
theorem TakesFrom.pairwise_pos {s : Session n} (h : s.TakesFrom lexer settings input) :
    (∀ t ∈ s.taken.toList, 0 ≤ t.pos) ∧
      s.taken.toList.Pairwise fun t t' => t.pos ≤ t'.pos := by
  constructor
  · intro t ht
    obtain ⟨i, hi⟩ := List.mem_iff_getElem?.1 ht
    obtain ⟨k, hk⟩ := h i t hi
    exact (lexer.pairwise_pos settings input k).1 t (List.mem_of_getElem? hk)
  · refine List.pairwise_iff_getElem.2 fun i j hi hj hlt => ?_
    obtain ⟨k, hk⟩ := h i _ (List.getElem?_eq_getElem hi)
    obtain ⟨k', hk'⟩ := h j _ (List.getElem?_eq_getElem hj)
    obtain ⟨hi', heq⟩ :=
      List.getElem?_eq_some_iff.1 (Lexer.getElem?_unbroken (Nat.le_max_left k k') hk)
    obtain ⟨hj', heq'⟩ :=
      List.getElem?_eq_some_iff.1 (Lexer.getElem?_unbroken (Nat.le_max_right k k') hk')
    rw [← heq, ← heq']
    exact List.pairwise_iff_getElem.1 (lexer.pairwise_pos settings input _).2 i j hi' hj' hlt

end Session

/-! ## The theorem -/

/-- After every request, the offset that a session remembers is that of the last token that
    the consumer has looked at, and it never goes back. The consumer looks at the tokens that
    the answers show, in the order in which they are taken: at all of them, as long as no
    request discards any. A request that does leaves the offset as it is. -/
theorem last_pos_seen (lexer : Lexer n) (settings : Settings) (requests more : List (Request n)) :
    let s := Session.after lexer settings requests
    let seen := (Session.new lexer settings).seen requests
    s.lastPos = Token.posOfLast 0 seen ∧
      s.lastPos ≤ (Session.after lexer settings (requests ++ more)).lastPos ∧
      seen.Sublist s.taken.toList ∧
      ((∀ request ∈ requests, request.discards = false) → seen = s.taken.toList) ∧
      ∀ request, s.Accounts (s.perform request).2 request.discards
        (request.seen (s.perform request).1) := by
  intro s seen
  obtain ⟨hpos, new, htaken, hsublist, hall⟩ :=
    (Session.new lexer settings).accounts_performAll requests
  obtain ⟨hpos', new', htaken', hsublist', -⟩ :=
    (Session.new lexer settings).accounts_performAll (requests ++ more)
  rw [show (Session.new lexer settings).taken.toList ++ new = new from rfl] at htaken
  rw [show (Session.new lexer settings).taken.toList ++ new' = new' from rfl] at htaken'
  refine ⟨hpos, ?_, htaken ▸ hsublist, htaken ▸ hall, fun request => s.accounts_perform request⟩
  obtain ⟨input, htakes⟩ := Session.emits_taken lexer settings (requests ++ more)
  obtain ⟨hnonneg, hsorted⟩ := htakes.pairwise_pos
  rw [Session.after, htaken'] at hnonneg hsorted
  rw [Session.seen_append] at hsublist'
  rw [hpos, Session.after, hpos', Session.seen_append]
  exact Token.posOfLast_le_append (fun t ht => hnonneg t (hsublist'.subset ht))
    (hsorted.sublist hsublist')

/-- The consumer has looked at two tokens, and drains the rest. -/
theorem last_pos_seen_drained :
    let requests : List (Request 0) := [.start "a b".toUTF8, .next none, .iterate (some 1)]
    let s := Session.after .standard {} requests
    (∀ request ∈ requests, request.discards = false) ∧
      s.lastPos = Token.posOfLast 0 s.taken.toList ∧ s.taken.toList.map Token.pos = [0, 1] ∧
      (Session.after .standard {} (requests ++ [.drain])).lastPos = 1 ∧
      s.lastPos ≤ (Session.after .standard {} (requests ++ [.drain])).lastPos := by
  intro requests s
  have hnone : ∀ request ∈ requests, request.discards = false := by
    simp [requests, Request.discards]
  obtain ⟨hpos, hle, -, hall, -⟩ := last_pos_seen .standard {} requests [.drain]
  rw [hall hnone] at hpos
  exact ⟨hnone, hpos, by decide +kernel, by decide +kernel, hle⟩

/-- The consumer takes all tokens by draining the session, but the offset stays where it was,
    in front of the last of them. -/
theorem drain_unseen :
    let s := Session.after .standard {} [.start "a b".toUTF8, .drain]
    s.taken.toList.map Token.pos = [0, 1, 2, 3] ∧ s.lastPos = 0 ∧
      s.lastPos ≠ Token.posOfLast 0 s.taken.toList := by
  decide +kernel

end StateLexer
