import Mathlib.Algebra.Order.BigOperators.Group.List
import Mathlib.Algebra.Order.Group.Nat
import Mathlib.Data.List.FinRange
import Mathlib.Data.List.ProdSigma
import StateLexer.Proofs.Reader.Bounds
import StateLexer.Proofs.Run.Unbroken
import StateLexer.Session.Consumer

/-!
# How long a scan can be

On an input there are only finitely many places, hence finitely many state
calls (`length_le_of_nodup`). A scan that calls the same state at the same place
twice goes round for ever, so what comes about at all has done so within as many
calls (`exists_le_callCount`), the end of a scan among other things; and a call
offers few tokens (`length_tokens_call_le`).

* `EndsWith.length_le`: the tokens of a scan that has an end;
* `Emits.exists_lt`: where the first token of some sort is, if there is one.
-/

namespace StateLexer

variable {n : Nat}

/-! ## Places -/

/-- The states of a grammar that defines `n` of its own. -/
def State.all (n : Nat) : List (State n) :=
  Standard.all.map .standard ++ List.ofFn .custom

theorem State.mem_all (q : State n) : q ∈ all n := by
  cases q with
  | standard q => simp [all, Standard.mem_all q]
  | custom i => simp [all]

/-- The places on an input of the given size. -/
def Place.upTo (size : Nat) : List Place :=
  (((List.range (size + 1) ×ˢ List.range (size + 1)) ×ˢ List.range 5) ×ˢ [false, true]).map
    fun x => { pos := x.1.1.1, start := x.1.1.2, width := x.1.2, canBackup := x.2 }

theorem Reader.On.mem_upTo {input : ByteArray} {r : Reader} (h : r.On input) :
    r.toPlace ∈ Place.upTo input.size := by
  have hpos := h.pos_le_size
  have hstart := h.start_le_pos
  have hwidth := h.width_le_four
  refine List.mem_map.2 ⟨(((r.pos, r.start), r.width), r.canBackup), ?_, rfl⟩
  simp only [List.mem_product, List.mem_range, List.mem_cons, List.not_mem_nil]
  refine ⟨⟨⟨by omega, by omega⟩, by omega⟩, ?_⟩
  cases r.canBackup <;> simp

/-- Different state calls are no more than there are. -/
theorem length_le_of_nodup {size : Nat} {trail : List (State n × Place)} (hnodup : trail.Nodup)
    (hplaces : ∀ x ∈ trail, x.2 ∈ Place.upTo size) : trail.length ≤ callCount n size := by
  have hsub : trail ⊆ State.all n ×ˢ Place.upTo size := fun x hx =>
    List.mem_product.2 ⟨State.mem_all x.1, hplaces x hx⟩
  refine (List.subperm_of_subset hnodup hsub).length_le.trans (Nat.le_of_eq ?_)
  simp only [List.length_product, State.all, Place.upTo, List.length_append, List.length_map,
    List.length_ofFn, List.length_range, List.length_cons, List.length_nil, callCount]
  rw [Nat.add_comm n]
  simp only [Nat.mul_assoc, Nat.zero_add, Nat.reduceAdd]

namespace Lexer

variable {lexer : Lexer n} {settings : Settings} {input : ByteArray}

/-! ## Calls -/

theorem on_calls (env : Env) (k : Nat) (st : Option (State n)) {r : Reader} (h : r.On input) :
    (lexer.calls env k st r).On input :=
  (lexer.passes_calls env k st r).on h

theorem on_unbroken (lexer : Lexer n) (settings : Settings) (input : ByteArray) (k : Nat) :
    (lexer.unbroken settings input k).On input :=
  on_calls _ _ _ (Reader.on_mk input)

/-- The chain behind its first `j` calls. -/
theorem ending_unbroken_add {j : Nat} {q : State n}
    (h : (lexer.unbroken settings input j).outcome = .done (some q)) (k : Nat) :
    (lexer.unbroken settings input (j + k)).outcome.ending =
      (lexer.calls { settings } k (some q)
        (lexer.unbroken settings input j).reader).outcome.ending := by
  unfold unbroken at h ⊢
  rw [calls_add, Run.outcome_andThen_done h]

/-- A scan goes on only from one call to another. -/
theorem unbroken_add_of_not_some {j : Nat}
    (h : ∀ q, (lexer.unbroken settings input j).outcome ≠ .done (some q)) (i : Nat) :
    lexer.unbroken settings input (j + i) = lexer.unbroken settings input j := by
  cases hout : (lexer.unbroken settings input j).outcome with
  | done next =>
    cases next with
    | none => exact unbroken_of_halted hout (Nat.le_add_right j i)
    | some q => exact absurd hout (h q)
  | raised fault => rw [unbroken_add, Run.andThen_of_not_done (by simp [hout])]
  | stuck => rw [unbroken_add, Run.andThen_of_not_done (by simp [hout])]

/-- What comes about in a scan does so within as many calls as there are different ones, if
    behind the same call at the same place it comes about again. -/
theorem exists_le_callCount {P : Run (Option (State n)) → Prop}
    (hex : ∃ k, P (lexer.unbroken settings input k))
    (hagain : ∀ i j d q, (lexer.unbroken settings input i).outcome = .done (some q) →
      (lexer.unbroken settings input j).outcome = .done (some q) →
      (lexer.unbroken settings input i).reader = (lexer.unbroken settings input j).reader →
      ¬P (lexer.unbroken settings input j) → P (lexer.unbroken settings input (j + d)) →
      P (lexer.unbroken settings input (i + d))) :
    ∃ k ≤ callCount n input.size, P (lexer.unbroken settings input k) := by
  classical
  have hbefore (i : Fin (Nat.find hex)) :
      ∃ q, (lexer.unbroken settings input i).outcome = .done (some q) := by
    by_contra hnone
    obtain ⟨d, hd⟩ := Nat.exists_eq_add_of_le i.2.le
    have hspec := Nat.find_spec hex
    rw [hd, unbroken_add_of_not_some (not_exists.1 hnone) d] at hspec
    exact Nat.find_min hex i.2 hspec
  choose q hq using hbefore
  have hon (k : Nat) := (on_unbroken lexer settings input k).on_reader
  let call (i : Fin (Nat.find hex)) : State n × Place :=
    (q i, (lexer.unbroken settings input i).reader.toPlace)
  -- No call before the first time is made twice: behind the first of the two it would come about.
  have hne {i j : Fin (Nat.find hex)} (hij : i < j) : call i ≠ call j := by
    intro heq
    obtain ⟨hstate, hplace⟩ := Prod.mk.inj heq
    have hreader : (lexer.unbroken settings input i).reader =
        (lexer.unbroken settings input j).reader := by
      rw [← (hon i).mk_toPlace, ← (hon j).mk_toPlace, hplace]
    obtain ⟨d, hd⟩ := Nat.exists_eq_add_of_le j.2.le
    have hsooner := hagain i j d (q i) (hq i) (hstate ▸ hq j) hreader (Nat.find_min hex j.2)
      (hd ▸ Nat.find_spec hex)
    have hlt : (i : Nat) < j := hij
    exact Nat.find_min hex (by omega) hsooner
  have hinj : Function.Injective call := fun i j hij => by
    rcases lt_trichotomy i j with hlt | rfl | hlt
    · exact absurd hij (hne hlt)
    · rfl
    · exact absurd hij.symm (hne hlt)
  have hlen := length_le_of_nodup (List.nodup_ofFn.2 hinj) fun x hx => by
    obtain ⟨i, rfl⟩ := List.mem_ofFn.1 hx
    exact (hon i).mem_upTo
  rw [List.length_ofFn] at hlen
  exact ⟨Nat.find hex, hlen, Nat.find_spec hex⟩

/-- A scan that has an end comes to it within as many calls as there are different ones. -/
theorem EndsWith.exists_le {ts : List Token} {failure : Option Fault}
    (h : lexer.EndsWith settings input ts failure) :
    ∃ k ≤ callCount n input.size, (lexer.unbroken settings input k).tokens = ts := by
  have hex : ∃ k, (lexer.unbroken settings input k).outcome.ending ≠ none := by
    obtain ⟨k, -, hk⟩ := h
    exact ⟨k, by simp [hk]⟩
  obtain ⟨k, hle, hk⟩ := exists_le_callCount (P := fun run => run.outcome.ending ≠ none) hex
    fun i j d q hi hj hreader _ hend => by
      rw [ending_unbroken_add hj, ← hreader] at hend
      rwa [ending_unbroken_add hi]
  obtain ⟨failure', hend⟩ := Option.ne_none_iff_exists'.1 hk
  exact ⟨k, hle, (EndsWith.unique ⟨k, rfl, hend⟩ h).1⟩

end Lexer

/-! ## Tokens of a call -/

namespace Run

variable {α β : Type} {a b : Nat}

theorem length_tokens_andThen_le {run : Run α} {f : α → Reader → Run β}
    (h : run.tokens.length ≤ a) (hf : ∀ value r, (f value r).tokens.length ≤ b) :
    (run.andThen f).tokens.length ≤ a + b := by
  obtain ⟨events, r, outcome⟩ := run
  cases outcome with
  | done value =>
    rw [tokens_andThen_done rfl, List.length_append]
    exact Nat.add_le_add h (hf _ _)
  | raised fault => exact Nat.le_trans h (Nat.le_add_right _ _)
  | stuck => exact Nat.le_trans h (Nat.le_add_right _ _)

theorem length_tokens_emit_le (env : Env) (kind : Kind) (r : Reader) :
    (emit env kind r).tokens.length ≤ 1 := by
  rw [emit]
  split
  · simp
  · simp [tokens]

/-- A run of which nothing but its value follows. -/
theorem length_tokens_andThen_pure_le {run : Run α} (f : α → Reader → β × Reader)
    (h : run.tokens.length ≤ a) :
    (run.andThen fun value r => pure (f value r).1 (f value r).2).tokens.length ≤ a :=
  length_tokens_andThen_le (b := 0) h fun _ _ => Nat.le_refl 0

end Run

theorem Step.length_tokens_run_le (env : Env) (step : Step) (r : Reader) :
    (step.run env r).tokens.length ≤ 1 := by
  cases step with
  | emit kind =>
    exact Run.length_tokens_andThen_pure_le (fun _ r => (Value.nothing, r))
      (Run.length_tokens_emit_le env kind r)
  | backup =>
    rw [run_backup]
    split <;> exact Nat.zero_le 1
  | acceptRun runes =>
    rw [run_acceptRun]
    split <;> exact Nat.zero_le 1
  | peek => exact run_peek env r ▸ Nat.zero_le 1
  | acceptOneOf runes => exact run_acceptOneOf env r runes ▸ Nat.zero_le 1
  | acceptUntil last => exact run_acceptUntil env r last ▸ Nat.zero_le 1
  | acceptWhile p => exact run_acceptWhile env r p ▸ Nat.zero_le 1
  | acceptUntilMatch p => exact run_acceptUntilMatch env r p ▸ Nat.zero_le 1
  | _ => exact Nat.zero_le 1

theorem Step.length_tokens_runAll_le (env : Env) (steps : List Step) (value : Value) (r : Reader) :
    (runAll env steps value r).tokens.length ≤ steps.length := by
  induction steps generalizing value r with
  | nil => exact Nat.le_refl 0
  | cons step steps ih =>
    rw [List.length_cons, Nat.add_comm]
    exact Run.length_tokens_andThen_le (length_tokens_run_le env step r) fun value r => ih value r

theorem Matcher.length_tokens_run_le (env : Env) (matcher : Matcher) (r : Reader) :
    (matcher.run env r).tokens.length ≤ matcher.stepCount := by
  cases matcher with
  | token k =>
    rw [run_token]
    simp only [ofReading]
    split <;> exact Nat.le_refl 0
  | steps steps result otherwise =>
    exact Run.length_tokens_andThen_pure_le (fun value r => (choose value result otherwise, r))
      (Step.length_tokens_runAll_le env steps _ r)

theorem Recognizer.length_tokens_call_le {σ : Type} (env : Env) (home : σ)
    (recognizer : Recognizer) (t : Transition σ) (r : Reader) :
    (recognizer.call env home t r).tokens.length ≤ recognizer.matcher.stepCount + 1 := by
  refine Run.length_tokens_andThen_le (Matcher.length_tokens_run_le env _ r) fun verdict r => ?_
  cases verdict with
  | invalid =>
    exact Run.length_tokens_andThen_pure_le (fun _ r => (t.onError.resolve home, r))
      (Run.length_tokens_emit_le env _ r)
  | rejected => exact conclude_rejected ▸ Nat.zero_le 1
  | accepted =>
    rw [conclude_accepted]
    refine Run.length_tokens_andThen_le (b := 0) ?_ fun _ _ => Nat.le_refl 0
    simp only [settle]
    split
    · exact Run.length_tokens_emit_le env _ _
    · exact Nat.zero_le 1

namespace Lexer

theorem stepCount_add_two_le_burst (lexer : Lexer n) (i : Fin n) :
    (lexer.grammar i).stepCount + 2 ≤ lexer.burst := by
  have hmem : (lexer.grammar i).stepCount ∈ (List.ofFn lexer.grammar).map Definition.stepCount :=
    List.mem_map.2 ⟨_, List.mem_ofFn.2 ⟨i, rfl⟩, rfl⟩
  have hle := List.le_sum_of_mem hmem
  rw [burst]
  rw [← List.sum_eq_foldr]
  omega

theorem length_tokens_script_le (env : Env) (home : State n) (s : Script (State n)) (r : Reader) :
    (script env home s r).tokens.length ≤ s.steps.length := by
  have hsteps (r : Reader) := Run.length_tokens_andThen_pure_le
    (fun value r => ((Matcher.choose value s.next s.otherwise).resolve home, r))
    (Step.length_tokens_runAll_le env s.steps .nothing r)
  cases hend : s.atEnd with
  | none =>
    simp only [script, hend]
    exact hsteps r
  | some target =>
    rw [script_of_atEnd hend]
    split
    · exact Nat.zero_le _
    · exact hsteps _

/-- A state call offers few tokens. -/
theorem length_tokens_call_le (lexer : Lexer n) (env : Env) (q : State n) (r : Reader) :
    (lexer.call env q r).tokens.length ≤ lexer.burst := by
  have hburst : 1 ≤ lexer.burst := by rw [burst]; omega
  cases q with
  | standard q =>
    refine Nat.le_trans ?_ hburst
    cases q with
    | token k => exact Recognizer.length_tokens_call_le env _ k.recognizer _ r
    | dispatch =>
      cases hahead : r.peek.1 with
      | none =>
        rw [call, dispatch_of_end hahead]
        exact Run.length_tokens_andThen_pure_le (fun _ r => (none, r))
          (Run.length_tokens_emit_le env _ _)
      | some c =>
        rw [call, dispatch_of_rune hahead]
        exact Nat.zero_le 1
    | unknown =>
      rw [call, unknown_of_accept rfl]
      refine Run.length_tokens_andThen_le (a := 0) (b := 1) (Nat.le_refl 0) fun _ r => ?_
      exact Run.length_tokens_andThen_pure_le (fun _ r => (some lexer.home, r))
        (Run.length_tokens_emit_le env _ r)
  | custom i =>
    have hcount := stepCount_add_two_le_burst lexer i
    simp only [call]
    split
    · next recognizer t hdef =>
      refine Nat.le_trans (Recognizer.length_tokens_call_le env _ recognizer t r) ?_
      rw [hdef] at hcount
      simp only [Definition.stepCount] at hcount
      omega
    · next s hdef =>
      refine Nat.le_trans (length_tokens_script_le env _ s r) ?_
      rw [hdef] at hcount
      simp only [Definition.stepCount] at hcount
      omega

theorem length_tokens_calls_le (lexer : Lexer n) (env : Env) (k : Nat) (st : Option (State n))
    (r : Reader) : (lexer.calls env k st r).tokens.length ≤ k * lexer.burst := by
  induction k generalizing st r with
  | zero => simp
  | succ k ih =>
    cases st with
    | none => simp
    | some q =>
      rw [Nat.succ_mul, Nat.add_comm (k * _)]
      exact Run.length_tokens_andThen_le (length_tokens_call_le lexer env q r) ih

/-- A scan that has an end has no more tokens than its calls can offer. -/
theorem EndsWith.length_le {lexer : Lexer n} {settings : Settings} {input : ByteArray}
    {ts : List Token} {failure : Option Fault} (h : lexer.EndsWith settings input ts failure) :
    ts.length ≤ callCount n input.size * lexer.burst := by
  obtain ⟨k, hk, rfl⟩ := h.exists_le
  exact Nat.le_trans (length_tokens_calls_le ..) (Nat.mul_le_mul_right _ hk)

/-- If a scan has a token of some sort, then there is one among the first, as many as calls
    without repetition can offer. -/
theorem Emits.exists_lt {lexer : Lexer n} {settings : Settings} {input : ByteArray}
    {p : Token → Prop} {i : Nat} {t : Token} (h : lexer.Emits settings input i t) (hp : p t) :
    ∃ j < callCount n input.size * lexer.burst, ∃ t', lexer.Emits settings input j t' ∧ p t' := by
  obtain ⟨m, hm⟩ := h
  obtain ⟨k, hle, t', ht', hp'⟩ := exists_le_callCount (P := fun run => ∃ t ∈ run.tokens, p t)
    ⟨m, t, List.mem_of_getElem? hm, hp⟩ fun i j d q hi hj hreader hnone => by
      rintro ⟨t, ht, hp⟩
      rw [unbroken_add, Run.tokens_andThen_done hj, List.mem_append, ← hreader] at ht
      refine ⟨t, ?_, hp⟩
      rw [unbroken_add, Run.tokens_andThen_done hi]
      exact List.mem_append_right _ (ht.resolve_left fun ht => hnone ⟨t, ht, hp⟩)
  obtain ⟨j, hj, rfl⟩ := List.mem_iff_getElem.1 ht'
  have hlen := length_tokens_calls_le lexer { settings } k (some lexer.start) { input }
  exact ⟨j, Nat.lt_of_lt_of_le hj (hlen.trans (Nat.mul_le_mul_right _ hle)), _,
    ⟨k, List.getElem?_eq_getElem hj⟩, hp'⟩

end Lexer

end StateLexer
