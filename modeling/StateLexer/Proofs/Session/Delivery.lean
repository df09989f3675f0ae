import StateLexer.Proofs.Session.Producer
import StateLexer.Scan
import StateLexer.Session.Request

/-!
# Delivery

However the consumer takes the tokens of a scan, they are those of the unbroken
scan, in order. All requests that take tokens are made of `Session.receive`, and
in a session that follows the unbroken scan it yields the next token of that scan,
or tells that there is none (`received`). The session that is left follows too, and
so does one that has taken many tokens at once (`collected`).
-/

namespace StateLexer

variable {n : Nat} {lexer : Lexer n} {settings : Settings} {input : ByteArray}

/-- The unbroken scan of the input never comes to an end. -/
def Lexer.Endless (lexer : Lexer n) (settings : Settings) (input : ByteArray) : Prop :=
  ∀ ts failure, ¬lexer.EndsWith settings input ts failure

namespace Session

variable {s : Session n}

/-! ## What a session that follows has taken -/

/-- The tokens that have been taken are the first of the unbroken scan. -/
theorem Follows.emits (h : s.Follows lexer settings input) {i : Nat} {t : Token}
    (hi : s.taken.toList[i]? = some t) : lexer.Emits settings input i t := by
  cases h.rest with
  | offering task_eq slot_eq closed_eq failure_eq on_input continues =>
    obtain ⟨j, hj⟩ := continues
    refine ⟨j, ?_⟩
    have htokens := (hj 0).1
    rw [Nat.add_zero] at htokens
    obtain ⟨hlt, -⟩ := List.getElem?_eq_some_iff.1 hi
    rw [htokens, List.getElem?_append_left hlt, hi]
  | silent task_eq slot_eq closed_eq failure_eq silent => exact silent.emits_iff.2 hi
  | finished task_eq slot_eq closed_eq ends => exact ends.emits_iff.2 hi

theorem Follows.isStarted (h : s.Follows lexer settings input) : s.isStarted = true := by
  rw [Session.isStarted]
  cases h.rest with
  | offering task_eq => rw [task_eq]
  | silent task_eq => rcases task_eq with ⟨task_eq, -⟩ | ⟨task_eq, -⟩ <;> rw [task_eq]
  | finished task_eq => rw [task_eq]

/-- A scan that has an end has as many tokens as have been taken, or more. -/
theorem Follows.length_taken_le (h : s.Follows lexer settings input) {ts : List Token}
    {failure : Option Fault} (hend : lexer.EndsWith settings input ts failure) :
    s.taken.toList.length ≤ ts.length := by
  by_contra hlt
  have hi := h.emits (List.getElem?_eq_getElem (Nat.lt_of_not_le hlt))
  rw [hend.emits_iff, List.getElem?_eq_none (Nat.le_refl _)] at hi
  simp at hi

/-- More tokens have been taken than a scan has that ends. -/
theorem Follows.endless (h : s.Follows lexer settings input)
    (hlen : s.tokenBound ≤ s.taken.toList.length) : lexer.Endless settings input := by
  intro ts failure hend
  have htaken := h.length_taken_le hend
  have hbound := hend.length_le
  rw [tokenBound, callBound, h.input_eq, h.lexer_eq] at hlen
  omega

/-- What all tokens are that have been taken, if they are more than calls without
    repetition can offer, all tokens of the scan are. -/
theorem Follows.forall_emits (h : s.Follows lexer settings input)
    (hlen : s.tokenBound ≤ s.taken.toList.length) {p : Token → Prop}
    (hp : ∀ t ∈ s.taken.toList, p t) {k : Nat} {t : Token}
    (hemits : lexer.Emits settings input k t) : p t := by
  by_contra hnot
  obtain ⟨j, hlt, t', hemits', hnot'⟩ := hemits.exists_lt (p := fun t => ¬p t) hnot
  rw [tokenBound, callBound, h.input_eq, h.lexer_eq] at hlen
  have hj := List.getElem?_eq_getElem (l := s.taken.toList) (i := j) (by omega)
  rw [(h.emits hj).unique hemits'] at hj
  exact hnot' (hp t' (List.mem_of_getElem? hj))

/-! ## Taking tokens -/

/-- What there is to take in a session that follows the unbroken scan. -/
inductive Received (lexer : Lexer n) (settings : Settings) (input : ByteArray) (s : Session n) :
    Receipt × Session n → Prop
  | token {t : Token} {s' : Session n} (emits : lexer.Emits settings input s.taken.size t)
      (follows : s'.Follows lexer settings input) (taken_eq : s'.taken = s.taken.push t) :
      Received lexer settings input s (.token t, s')
  | ended (ends : lexer.EndsWith settings input s.taken.toList s.failure) :
      Received lexer settings input s (.ended, s)
  | silence (silent : lexer.FallsSilent settings input s.taken.toList) :
      Received lexer settings input s (.silence, s)

theorem received (h : s.Follows lexer settings input) :
    Received lexer settings input s s.receive := by
  rw [receive]
  cases h.rest with
  | @offering t rest task_eq slot_eq closed_eq failure_eq on_input continues =>
    obtain ⟨on_reader, -⟩ := on_input.on_offer _ _ List.mem_cons_self
    have htake : s.channel.take = { s.channel with
        slot := none, sent := s.channel.sent + 1, received := s.channel.received + 1 } := by
      simp [Channel.take, slot_eq]
    have hemits := continues.emits
    rw [Array.length_toList] at hemits
    simp only [slot_eq]
    obtain ⟨hfollows, htaken⟩ := follows_resume
      (s := { s with channel := s.channel.take, taken := s.taken.push t })
      ⟨h.lexer_eq, h.settings_eq, on_reader, by rw [htake], by rw [htake]; exact closed_eq,
        by rw [htake]; exact h.cancelled_eq, failure_eq⟩ task_eq
      ⟨on_input.on_reader, fun r' t' hmem => on_input.on_offer r' t' (List.mem_cons_of_mem _ hmem)⟩
      (by simpa using continues.take)
    exact .token hemits hfollows htaken
  | silent task_eq slot_eq closed_eq failure_eq silent =>
    simp only [slot_eq, closed_eq]
    exact .silence silent
  | finished task_eq slot_eq closed_eq ends =>
    simp only [slot_eq, closed_eq]
    exact .ended ends

/-- Looking at a token changes nothing but the place that is remembered. -/
theorem Follows.look (h : s.Follows lexer settings input) (pos : Int) :
    ({ s with lastPos := pos } : Session n).Follows lexer settings input :=
  ⟨h.lexer_eq, h.settings_eq, h.input_eq, h.cancelled_eq, h.rest⟩

/-- A notice in the journal changes nothing else. -/
theorem Follows.write (h : s.Follows lexer settings input) (side : Side) (notice : Notice) :
    (s.write side notice).Follows lexer settings input :=
  ⟨h.lexer_eq, h.settings_eq, h.input_eq, h.cancelled_eq, h.rest⟩

/-- Why no more tokens are taken behind the tokens `new`, which have led from one
    session to the other. -/
inductive Collected (lexer : Lexer n) (settings : Settings) (input : ByteArray)
    (unwanted : Token → Bool) (limit : Nat) (new : List Token) (s s' : Session n) : Stop → Prop
  | ended (taken_eq : s'.taken.toList = s.taken.toList ++ new)
      (ends : lexer.EndsWith settings input s'.taken.toList s'.failure) :
      Collected lexer settings input unwanted limit new s s' .ended
  | enough (taken_eq : s'.taken.toList = s.taken.toList ++ new) (length_eq : new.length = limit) :
      Collected lexer settings input unwanted limit new s s' .enough
  | unwanted {t : Token} (taken_eq : s'.taken.toList = s.taken.toList ++ new ++ [t])
      (unwanted_eq : unwanted t = true) :
      Collected lexer settings input unwanted limit new s s' (.unwanted t)
  | silence (taken_eq : s'.taken.toList = s.taken.toList ++ new)
      (silent : lexer.FallsSilent settings input s'.taken.toList) :
      Collected lexer settings input unwanted limit new s s' .silence

/-- A token that has been taken first is one of those that have been taken. -/
theorem Collected.cons {unwanted : Token → Bool} {limit : Nat} {new : List Token}
    {s₁ s₂ : Session n} {stop : Stop} {t : Token}
    (h : Collected lexer settings input unwanted limit new s₁ s₂ stop)
    (htaken : s₁.taken.toList = s.taken.toList ++ [t]) :
    Collected lexer settings input unwanted (limit + 1) (t :: new) s s₂ stop := by
  have happend : s₁.taken.toList ++ new = s.taken.toList ++ t :: new := by
    rw [htaken, List.append_assoc]
    rfl
  cases h with
  | ended taken_eq ends => exact .ended (taken_eq.trans happend) ends
  | enough taken_eq length_eq =>
    exact .enough (taken_eq.trans happend) (congrArg (· + 1) length_eq)
  | unwanted taken_eq unwanted_eq => exact .unwanted (by rw [taken_eq, happend]) unwanted_eq
  | silence taken_eq silent => exact .silence (taken_eq.trans happend) silent

/-- The tokens that are collected are taken one by one, and whether the consumer looks
    at them does not matter. -/
theorem collected (looks : Bool) (unwanted : Token → Bool) (limit : Nat) (tokens : Array Token)
    (h : s.Follows lexer settings input) :
    ∃ new, (s.collect looks unwanted limit tokens).1.tokens.toList = tokens.toList ++ new ∧
      (∀ t ∈ new, unwanted t = false) ∧ new.length ≤ limit ∧
      (s.collect looks unwanted limit tokens).2.Follows lexer settings input ∧
      Collected lexer settings input unwanted limit new s
        (s.collect looks unwanted limit tokens).2
        (s.collect looks unwanted limit tokens).1.stop := by
  induction limit generalizing tokens s with
  | zero =>
    refine ⟨[], (List.append_nil _).symm, fun _ ht => absurd ht List.not_mem_nil,
      Nat.zero_le _, h, ?_⟩
    exact .enough (List.append_nil _).symm rfl
  | succ limit ih =>
    have hreceived := received h
    rw [collect]
    generalize s.receive = received at hreceived ⊢
    cases hreceived with
    | @token t s' emits follows taken_eq =>
      obtain ⟨hfollows, htaken⟩ :
          (if looks then { s' with lastPos := t.pos } else s').Follows lexer settings input ∧
            (if looks then { s' with lastPos := t.pos } else s').taken.toList =
              s.taken.toList ++ [t] := by
        split
        · exact ⟨follows.look _, by simp [taken_eq]⟩
        · exact ⟨follows, by simp [taken_eq]⟩
      simp only
      generalize (if looks then { s' with lastPos := t.pos } else s') = s₁ at hfollows htaken ⊢
      split
      · next hunwanted =>
        refine ⟨[], (List.append_nil _).symm, fun _ ht => absurd ht List.not_mem_nil,
          Nat.zero_le _, hfollows, ?_⟩
        exact .unwanted (by rw [htaken, List.append_nil]) hunwanted
      · next hunwanted =>
        obtain ⟨new, htokens, hwanted, hlength, hfollows', hcollected⟩ :=
          ih (tokens.push t) hfollows
        refine ⟨t :: new, by simpa using htokens, ?_, Nat.succ_le_succ hlength, hfollows',
          hcollected.cons htaken⟩
        rintro t' (_ | ⟨_, ht'⟩)
        · simpa using hunwanted
        · exact hwanted t' ht'
    | ended ends =>
      refine ⟨[], (List.append_nil _).symm, fun _ ht => absurd ht List.not_mem_nil,
        Nat.zero_le _, h, ?_⟩
      exact .ended (List.append_nil _).symm ends
    | silence silent =>
      refine ⟨[], (List.append_nil _).symm, fun _ ht => absurd ht List.not_mem_nil,
        Nat.zero_le _, h, ?_⟩
      exact .silence (List.append_nil _).symm silent

end Session

end StateLexer
