import StateLexer.Proofs.Scan
import StateLexer.Proofs.Session.Requests

/-!
# Scans that fail

A state call can raise a fault, and then the unbroken scan is over, behind the tokens
that it has had (`Lexer.RaisesAfter`). A consumer who does not cancel the scan takes
those tokens, and is told of the fault behind them, in whatever way it asks. If it is
told instead that the scan is over, then no state call has failed: the last one led to
no other (`Lexer.HaltsAfter`).

There is one exception. A fault that says that the scan is cancelled is no failure,
even if nobody has cancelled it: a grammar that raises it ends the scan in good order
(`cancellation_untold`).

* `endsWith_some_iff`, `endsWith_none_iff`: the two ends of an unbroken scan, by its
  last state call;
* `Follows.tellsFailure`, `Scans.eq_failed`: a failure is told in sessions, and by a scan
  all at once;
* `Follows.tellsEnd`, `Scans.endsCleanly`: nobody is told of a good end that there is not;
* `failure_told`: every failure is told, and every other end is in good order.
-/

namespace StateLexer

variable {n : Nat} {lexer : Lexer n} {settings : Settings} {input : ByteArray} {ts : List Token}
  {fault : Fault}

/-! ## The last state call -/

namespace Lexer

/-- The unbroken scan of the input has the tokens `ts`, and then a state call raises
    the fault. -/
def RaisesAfter (lexer : Lexer n) (settings : Settings) (input : ByteArray) (ts : List Token)
    (fault : Fault) : Prop :=
  ∃ k, (lexer.unbroken settings input k).tokens = ts ∧
    (lexer.unbroken settings input k).outcome = .raised fault

/-- The unbroken scan of the input has the tokens `ts`, and then a state call leads
    to no other. -/
def HaltsAfter (lexer : Lexer n) (settings : Settings) (input : ByteArray) (ts : List Token) :
    Prop :=
  ∃ k, (lexer.unbroken settings input k).tokens = ts ∧
    (lexer.unbroken settings input k).outcome = .done none

/-- The last state call of the unbroken scan, behind the tokens `ts`, leads to no
    other, or says that the scan is cancelled. -/
def EndsCleanly (lexer : Lexer n) (settings : Settings) (input : ByteArray) (ts : List Token) :
    Prop :=
  lexer.HaltsAfter settings input ts ∨
    ∃ fault, fault.isCancellation = true ∧ lexer.RaisesAfter settings input ts fault

theorem RaisesAfter.endsWith (h : lexer.RaisesAfter settings input ts fault) :
    lexer.EndsWith settings input ts fault.failure := by
  obtain ⟨k, htokens, hout⟩ := h
  exact ⟨k, htokens, by rw [hout, Outcome.ending]⟩

/-- A scan ends with a failure if a state call raises it. -/
theorem endsWith_some_iff : lexer.EndsWith settings input ts (some fault) ↔
    fault.isCancellation = false ∧ lexer.RaisesAfter settings input ts fault := by
  constructor
  · rintro ⟨k, htokens, hend⟩
    cases hout : (lexer.unbroken settings input k).outcome with
    | done next => cases next <;> simp [hout, Outcome.ending] at hend
    | raised fault' =>
      rw [hout, Outcome.ending, Option.some_inj, Fault.failure] at hend
      split at hend
      · simp at hend
      · next hcancel =>
        obtain rfl := Option.some.inj hend
        exact ⟨by simpa using hcancel, k, htokens, hout⟩
    | stuck => simp [hout, Outcome.ending] at hend
  · rintro ⟨hcancel, h⟩
    have hend := h.endsWith
    rwa [Fault.failure, if_neg (by simp [hcancel])] at hend

/-- A scan ends without a failure if its last state call leads nowhere, or says that the
    scan is cancelled. -/
theorem endsWith_none_iff :
    lexer.EndsWith settings input ts none ↔ lexer.EndsCleanly settings input ts := by
  constructor
  · rintro ⟨k, htokens, hend⟩
    cases hout : (lexer.unbroken settings input k).outcome with
    | done next =>
      cases next with
      | none => exact .inl ⟨k, htokens, hout⟩
      | some q => simp [hout, Outcome.ending] at hend
    | raised fault =>
      rw [hout, Outcome.ending, Option.some_inj, Fault.failure] at hend
      split at hend
      · next hcancel => exact .inr ⟨fault, hcancel, k, htokens, hout⟩
      · simp at hend
    | stuck => simp [hout, Outcome.ending] at hend
  · rintro (⟨k, htokens, hout⟩ | ⟨fault, hcancel, h⟩)
    · exact ⟨k, htokens, by rw [hout, Outcome.ending]⟩
    · have hend := h.endsWith
      rwa [Fault.failure, if_pos hcancel] at hend

end Lexer

/-! ## Sessions -/

/-- The session tells the consumer, in whatever way it asks, that the scan fails with the
    fault behind the tokens `ts`, and not before they have been taken. -/
structure Session.TellsFailure (ts : List Token) (fault : Fault) (s : Session n) : Prop where
  taken_prefix : s.taken.toList <+: ts
  next_token : ∀ limit t, ts[s.taken.size]? = some t → (s.perform (.next limit)).1 = .token t
  next_failed : ∀ limit, s.taken.toList = ts →
    (s.perform (.next limit)).1 = .error (.failed fault)
  iterate_failed : ∀ limit, (∀ m ∈ limit, ts.length < s.taken.size + m) →
    (s.perform (.iterate limit)).1 =
      .tokens { tokens := ts.drop s.taken.size, ending := .failed (.failed fault) }
  drain_failed : (s.perform .drain).1 = .error (.failed fault) ∧
    (s.perform .drain).2.taken.toList = ts
  close_failed : (s.perform .close).1 = .error (.failed fault) ∧
    (s.perform .close).2.taken.toList = ts
  leave_failed : (s.perform .leave).1 = .error (.failed fault) ∧
    (s.perform .leave).2.taken.toList = ts

/-- Wherever the session tells the consumer that the scan is over, and of no fault, the
    tokens that have been taken by then satisfy `clean`. -/
structure Session.TellsEnd (clean : List Token → Prop) (s : Session n) : Prop where
  next : ∀ limit, (s.perform (.next limit)).1 = .error .exhausted → clean s.taken.toList
  iterate : ∀ limit i, (s.perform (.iterate limit)).1 = .tokens i → i.ending = .done →
    clean (s.taken.toList ++ i.tokens)
  drain : ∀ k, (s.perform .drain).1 = .count k → clean (s.perform .drain).2.taken.toList
  close : (s.perform .close).1 = .done → clean (s.perform .close).2.taken.toList
  leave : (s.perform .leave).1 = .done → clean (s.perform .leave).2.taken.toList

namespace Session

variable {s : Session n}

/-- Taking all tokens of a scan that fails tells so. -/
theorem Exhausts.eq_failed {α : Type} {clean : α} {all : List Token} {reply : Reply α}
    (h : Exhausts lexer settings input all clean reply)
    (hend : lexer.EndsWith settings input ts (some fault)) :
    reply = .error (.failed fault) ∧ all = ts := by
  cases h with
  | clean ends => simpa using (ends.unique hend).2
  | failed ends =>
    obtain ⟨hall, hfault⟩ := ends.unique hend
    rw [Option.some.inj hfault]
    exact ⟨rfl, hall⟩
  | never endless => exact absurd hend (endless _ _)

/-- Only a scan that ends without a failure has an answer other than an error when all
    its tokens are taken. -/
theorem Exhausts.endsCleanly {α : Type} {clean : α} {all : List Token} {reply : Reply α}
    {f : α → Answer n} {answer : Answer n} (h : Exhausts lexer settings input all clean reply)
    (hanswer : reply.toAnswer f = answer) (herror : ∀ e, answer ≠ .error e)
    (hnever : answer ≠ .never) : lexer.EndsCleanly settings input all := by
  cases h with
  | clean ends => exact Lexer.endsWith_none_iff.1 ends
  | failed ends => exact absurd hanswer.symm (herror _)
  | never endless => exact absurd hanswer.symm hnever

theorem Follows.taken_prefix (h : s.Follows lexer settings input) {failure : Option Fault}
    (hend : lexer.EndsWith settings input ts failure) : s.taken.toList <+: ts := by
  refine List.prefix_iff_getElem?.2 fun i hi => ?_
  rw [← hend.emits_iff]
  exact h.emits (List.getElem?_eq_getElem hi)

/-- A session that follows a scan that fails tells so. -/
theorem Follows.tellsFailure (h : s.Follows lexer settings input)
    (hend : lexer.EndsWith settings input ts (some fault)) : s.TellsFailure ts fault where
  taken_prefix := h.taken_prefix hend
  next_token limit t ht := by
    simp [perform, (next_of_emits limit h (hend.emits_iff.2 ht)).1, Reply.toAnswer]
  next_failed limit htaken := by
    simp [perform, next_of_endsWith limit h (htaken ▸ hend), Reply.toAnswer]
  iterate_failed limit hlimit := by
    obtain ⟨hfollows, -, htaken, htells⟩ := follows_iterate limit h
    simp only [perform]
    generalize s.iterate limit = session at *
    obtain ⟨⟨tokens, ending⟩, s'⟩ := session
    simp only at hfollows htaken htells
    rw [htaken] at htells
    cases ending with
    | done => simpa using (Lexer.EndsWith.unique htells hend).2
    | more =>
      -- There are not as many tokens left.
      have hmore := hlimit _ htells
      have hlen := (hfollows.taken_prefix hend).length_le
      rw [htaken, List.length_append, Array.length_toList] at hlen
      omega
    | failed e =>
      obtain ⟨fault', rfl, hend'⟩ := htells
      obtain ⟨hts, hfault⟩ := hend'.unique hend
      rw [← hts, ← Option.some.inj hfault]
      simp
    | never =>
      rcases htells with hsilent | ⟨-, hendless⟩
      · exact absurd hend hsilent.not_endsWith
      · exact absurd hend (hendless _ _)
  drain_failed := by
    obtain ⟨-, new, -, hexhausts⟩ := follows_drain h
    obtain ⟨hreply, hall⟩ := hexhausts.eq_failed hend
    exact ⟨by simp [perform, hreply, Reply.toAnswer], hall⟩
  close_failed := by
    obtain ⟨-, new, -, hexhausts⟩ := follows_close h
    obtain ⟨hreply, hall⟩ := hexhausts.eq_failed hend
    exact ⟨by simp [perform, hreply, Reply.toAnswer], hall⟩
  leave_failed := by
    obtain ⟨-, new, -, hexhausts⟩ := follows_close h
    obtain ⟨hreply, hall⟩ := hexhausts.eq_failed hend
    exact ⟨by simp [perform, hreply, Reply.toAnswer], hall⟩

/-- A session that follows a scan tells only of an end that there is. -/
theorem Follows.tellsEnd (h : s.Follows lexer settings input) :
    s.TellsEnd (lexer.EndsCleanly settings input) where
  next limit hanswer := by
    rw [← Lexer.endsWith_none_iff]
    rcases h.trichotomy with ⟨t, hemits⟩ | ⟨failure, hend⟩ | hsilent
    · simp [perform, (next_of_emits limit h hemits).1, Reply.toAnswer] at hanswer
    · cases failure with
      | none => exact hend
      | some fault => simp [perform, next_of_endsWith limit h hend, Reply.toAnswer] at hanswer
    · cases limit <;> simp [perform, next_of_fallsSilent _ h hsilent, Reply.toAnswer] at hanswer
  iterate limit i hanswer hdone := by
    obtain ⟨-, -, htaken, htells⟩ := follows_iterate limit h
    simp only [perform, Answer.tokens.injEq] at hanswer
    rw [hanswer] at htaken htells
    rw [hdone, htaken] at htells
    exact Lexer.endsWith_none_iff.1 htells
  drain k hanswer := by
    obtain ⟨-, new, -, hexhausts⟩ := follows_drain h
    exact hexhausts.endsCleanly hanswer (by simp) (by simp)
  close hanswer := by
    obtain ⟨-, new, -, hexhausts⟩ := follows_close h
    exact hexhausts.endsCleanly hanswer (by simp) (by simp)
  leave hanswer := by
    obtain ⟨-, new, -, hexhausts⟩ := follows_close h
    exact hexhausts.endsCleanly hanswer (by simp) (by simp)

end Session

/-! ## Scans all at once -/

/-- A scan that fails says so, unless it is strict and meets an error token first. -/
theorem Scans.eq_failed {strict : Bool} {file : Option String}
    {scan : Reply (List Token) × Session n} (h : Scans lexer settings strict file input scan)
    (hend : lexer.EndsWith settings input ts (some fault))
    (hvalid : strict = true → ∀ t ∈ ts, t.kind ≠ .error) :
    scan.1 = .error (.failed fault) ∧ scan.2.taken.toList = ts := by
  cases h with
  | clean taken_eq valid ends => simpa using (ends.unique hend).2
  | failed taken_eq valid ends =>
    obtain ⟨rfl, hfault⟩ := ends.unique hend
    rw [Option.some.inj hfault]
    exact ⟨rfl, taken_eq⟩
  | invalid taken_eq valid strict_eq kind_eq emits leaves =>
    have hmem := List.mem_of_getElem? (hend.emits_iff.1 (emits _ _ List.getElem?_concat_length))
    exact absurd kind_eq (hvalid strict_eq _ hmem)
  | never endless => exact absurd hend (endless _ _)
  | waits valid strict_eq kind_eq limit_eq stays => exact absurd hend stays.fallsSilent.not_endsWith

/-- A scan that yields a list has ended without a failure. -/
theorem Scans.endsCleanly {strict : Bool} {file : Option String} {s : Session n}
    (h : Scans lexer settings strict file input (.value ts, s)) :
    lexer.EndsCleanly settings input ts := by
  cases h with
  | clean taken_eq valid ends => exact Lexer.endsWith_none_iff.1 ends

/-! ## A lexer that fails -/

/-- A lexer whose only state emits a token of one character, and then raises a fault. -/
def Lexer.breaking (sort : FaultSort) : Lexer 1 where
  grammar _ := .script
    { name := "breaking", steps := [.next, .emit .space, .raise sort "broken"], next := .halt }
  start := .custom 0
  home := .custom 0

theorem raisesAfter_breaking (sort : FaultSort) :
    (Lexer.breaking sort).RaisesAfter {} "ab".toUTF8 [⟨.space, 0, "a"⟩]
      (.thrown sort "broken") := by
  refine ⟨1, ?_, rfl⟩
  cases sort <;> decide +kernel

/-- A grammar that says that the scan is cancelled, though nobody has cancelled it, ends
    the scan in good order: nobody is told that a state call has failed. -/
theorem cancellation_untold :
    (Lexer.breaking .cancellation).RaisesAfter {} "ab".toUTF8 [⟨.space, 0, "a"⟩]
        (.thrown .cancellation "broken") ∧
      ((Lexer.breaking .cancellation).scan {} false none "ab".toUTF8).1 =
        .value [⟨.space, 0, "a"⟩] := by
  have hraises := raisesAfter_breaking .cancellation
  exact ⟨hraises, scan_of_endsWith none hraises.endsWith⟩

/-! ## All of them -/

/-- No scan is cut short in silence. If a state call fails, every consumer who does not
    cancel takes the tokens that came before, and is told of the fault behind them; and
    a consumer who is told that the scan is over, and of no fault, has taken all tokens
    of a scan whose last state call led to no other, or said that the scan is
    cancelled. -/
theorem failure_told (lexer : Lexer n) (settings : Settings) (input : ByteArray) :
    (∀ requests : List (Request n), requests.findSome? Request.source? = some input →
      (∀ request ∈ requests, request.cancels = false) →
        (∀ ts fault, lexer.RaisesAfter settings input ts fault → fault.isCancellation = false →
          (Session.after lexer settings requests).TellsFailure ts fault) ∧
        (Session.after lexer settings requests).TellsEnd (lexer.EndsCleanly settings input)) ∧
      ∀ strict file,
        (∀ ts fault, lexer.RaisesAfter settings input ts fault → fault.isCancellation = false →
          (strict = true → ∀ t ∈ ts, t.kind ≠ .error) →
          (lexer.scan settings strict file input).1 = .error (.failed fault) ∧
            (lexer.scan settings strict file input).2.taken.toList = ts) ∧
        ∀ ts, (lexer.scan settings strict file input).1 = .value ts →
          lexer.EndsCleanly settings input ts := by
  refine ⟨fun requests hsource hrequests => ?_, fun strict file => ?_⟩
  · have hfollows := Session.follows_after lexer settings hsource hrequests
    exact ⟨fun ts fault hraises hcancel =>
      hfollows.tellsFailure (Lexer.endsWith_some_iff.2 ⟨hcancel, hraises⟩), hfollows.tellsEnd⟩
  · have hscans := scans lexer settings strict file input
    refine ⟨fun ts fault hraises hcancel hvalid =>
      hscans.eq_failed (Lexer.endsWith_some_iff.2 ⟨hcancel, hraises⟩) hvalid, fun ts hvalue => ?_⟩
    generalize lexer.scan settings strict file input = scan at *
    obtain ⟨reply, s⟩ := scan
    obtain rfl : reply = .value ts := hvalue
    exact hscans.endsCleanly

/-- A session of a lexer that fails, which has been asked for a token, tells of the
    failure, and so does a strict scan. -/
theorem failure_told_breaking :
    ([.start "ab".toUTF8, .next none] : List (Request 1)).findSome? Request.source? =
        some "ab".toUTF8 ∧
      (∀ request ∈ ([.start "ab".toUTF8, .next none] : List (Request 1)),
        request.cancels = false) ∧
      (Lexer.breaking .value).RaisesAfter {} "ab".toUTF8 [⟨.space, 0, "a"⟩]
        (.thrown .value "broken") ∧
      (Fault.thrown .value "broken").isCancellation = false ∧
      (∀ t ∈ [(⟨.space, 0, "a"⟩ : Token)], t.kind ≠ .error) ∧
      (Session.after (.breaking .value) {} [.start "ab".toUTF8, .next none]).TellsFailure
        [⟨.space, 0, "a"⟩] (.thrown .value "broken") ∧
      ((Lexer.breaking .value).scan {} true none "ab".toUTF8).1 =
        .error (.failed (.thrown .value "broken")) := by
  have hrequests : ∀ request ∈ ([.start "ab".toUTF8, .next none] : List (Request 1)),
      request.cancels = false := by simp [Request.cancels]
  have hraises := raisesAfter_breaking .value
  have hvalid : ∀ t ∈ [(⟨.space, 0, "a"⟩ : Token)], t.kind ≠ .error := by decide
  obtain ⟨hsessions, hscans⟩ := failure_told (Lexer.breaking .value) {} "ab".toUTF8
  exact ⟨rfl, hrequests, hraises, rfl, hvalid, (hsessions _ rfl hrequests).1 _ _ hraises rfl,
    ((hscans true none).1 _ _ hraises rfl fun _ => hvalid).1⟩

end StateLexer
