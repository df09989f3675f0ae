import StateLexer.Proofs.Reader.Window
import StateLexer.Proofs.Wiring

/-!
# Empty tokens

The tokens of a wired grammar cover at least a byte, but for blanks and for the end of the
input. A recognizer accepts nothing it has not read, unless it looks for blanks, and what it
finds malformed it has read in part (`TokenClass.Fills`). There is one exception: `unknown` does
not ask whether anything is ahead, so at the end of the input it emits an empty error. It is
called there only by a lexer that names it, and this is the only way to an empty token
(`covers_bytes_iff`).
-/

namespace StateLexer

variable {n : Nat} {σ : Type} {input : ByteArray} {env : Env} {settings : Settings}
  {lexer : Lexer n} {kind : Kind} {k : TokenClass} {q : State n} {st : Option (State n)}
  {r : Reader} {c : Closing}

/-! ## Windows of a chain of calls -/

/-- The windows that a chain of calls closes are those that its calls close. -/
theorem Lexer.mem_chainClosings (lexer : Lexer n) (env : Env) (k : Nat) (st : Option (State n))
    (r : Reader) : c ∈ lexer.chainClosings env k st r ↔
      ∃ j < k, ∃ q, (lexer.calls env j st r).outcome = .done (some q) ∧
        c ∈ lexer.closings env q (lexer.calls env j st r).reader := by
  induction k generalizing st r with
  | zero => cases st <;> simp [chainClosings]
  | succ k ih =>
    cases st with
    | none => simp [chainClosings, Run.pure]
    | some q =>
      rw [Nat.exists_lt_succ_left]
      have hfirst : (∃ q', (lexer.calls env 0 (some q) r).outcome = .done (some q') ∧
          c ∈ lexer.closings env q' (lexer.calls env 0 (some q) r).reader) ↔
          c ∈ lexer.closings env q r := by
        simp [Run.pure]
      rw [hfirst, chainClosings, Run.closingsThen]
      cases houtcome : (lexer.call env q r).outcome with
      | done next =>
        simp only [List.mem_append, ih, calls_succ, Run.outcome_andThen_done houtcome,
          Run.reader_andThen_done houtcome]
      | raised fault => simp [calls_succ, Run.andThen, houtcome]
      | stuck => simp [calls_succ, Run.andThen, houtcome]

/-! ## Windows of one call -/

theorem Run.mem_offers_emit (h : c ∈ (Run.emit env kind r).offers) :
    c = ⟨r, some (r.token kind)⟩ := by
  rw [emit] at h
  split at h
  · simp [offers, raise] at h
  · simpa [offers] using h

/-- A recognizer makes a token of an empty window only where it has looked for blanks. -/
theorem Lexer.Recognizes.covers {t : Transition (State n)} (h : lexer.Recognizes q k t)
    (hempty : r.start = r.pos) (hc : c ∈ lexer.closings env q r) {token : Token}
    (htoken : token ∈ c.token) :
    token.kind = t.kind.getD .space ∨ c.reader.start < c.reader.pos := by
  have hfills := k.fills env.settings hempty
  rw [h.closings_eq, Recognizer.closings, Run.closingsThen, k.outcome_run, k.reader_run] at hc
  have hlt := hfills.lt_or
  cases hread : (k.read .plain env.settings r).1 with
  | rejected => simp [hread, Reading.verdict, TokenClass.recognizer, Matcher.closings] at hc
  | malformed flaw =>
    simp only [hread, Reading.verdict, TokenClass.recognizer, Matcher.closings,
      List.nil_append] at hc
    obtain rfl := Run.mem_offers_emit hc
    exact .inr ((hlt (by simp [hread])).resolve_right (by simp [hread]))
  | accepted =>
    have hspent := Recognizer.reads_exhausted (hfills.start_eq ▸ hfills.pos_le)
    simp only [hread, Reading.verdict, TokenClass.recognizer, Matcher.closings,
      List.nil_append, Recognizer.settleClosings] at hc
    split at hc
    · obtain rfl := Run.mem_offers_emit hc
      obtain rfl := Option.some.inj htoken
      rcases hlt (by simp [hread]) with hlt | ⟨-, hspace⟩
      · rw [← hspent.start_eq, ← hspent.pos_nil] at hlt
        exact .inr hlt
      · exact .inl (congrArg t.kind.getD hspace)
    · obtain rfl := List.mem_singleton.1 hc
      simp at htoken

/-- What `unknown` reads: something, unless nothing is ahead. -/
theorem Reader.reads_unknown (h : r.start ≤ r.pos) :
    ∃ cs, r.Reads cs (r.next.2.acceptUntilMatch beginsToken).2 ∧ (cs = [] ↔ r.ahead = []) := by
  cases hahead : r.ahead with
  | nil =>
    have hnext := (Reader.next_of_nil h hahead).2
    have hreads := Reader.reads_acceptWhile (fun c => !beginsToken c) hnext.start_le
    rw [← hnext.ahead_nil, hahead, List.takeWhile_nil] at hreads
    exact ⟨[], hnext.trans hreads, by simp⟩
  | cons c cs =>
    have hnext := (Reader.next_of_cons h hahead).2
    have hreads := Reader.reads_acceptWhile (fun c => !beginsToken c) hnext.start_le
    exact ⟨_, hnext.trans hreads, by simp⟩

/-- No recognizer of the grammar emits tokens of another kind than its own. -/
def Lexer.KeepsKinds (lexer : Lexer n) : Prop :=
  ∀ i r t, lexer.grammar i = .recognizer r t → t.kind = none

/-- A call of a wired grammar makes a token of an empty window only where it looks for blanks,
    at the end of the input in `dispatch`, or there in `unknown`. -/
theorem Lexer.IsWired.covers (hw : lexer.IsWired) (hkind : lexer.KeepsKinds) (hr : r.On input)
    (hempty : r.start = r.pos) (hahead : q = .standard .unknown → r.pos < input.size)
    (hc : c ∈ lexer.closings env q r) {token : Token} (htoken : token ∈ c.token) :
    token.kind = .endOfInput ∨ token.kind = .space ∨ c.reader.start < c.reader.pos := by
  rcases hw.cases q with ⟨k, t, h⟩ | rfl | rfl
  · refine .inr ((h.covers hempty hc htoken).imp_left fun htokens => ?_)
    have hnone : t.kind = none := by
      cases h with
      | standard => rfl
      | custom h => exact hkind _ _ _ h
    rw [htokens, hnone]
    rfl
  · simp only [closings] at hc
    split at hc
    · obtain rfl := Run.mem_offers_emit hc
      obtain rfl := Option.some.inj htoken
      exact .inl rfl
    · simp at hc
  · obtain rfl := Run.mem_offers_emit hc
    obtain ⟨cs, hreads, hcs⟩ := Reader.reads_unknown hempty.le
    have hlt := hahead rfl
    rw [← hr.input_eq] at hlt
    have hne := mt hcs.1 (Reader.pos_lt_size_iff.1 hlt)
    exact .inr (.inr ((hreads.start_eq.trans hempty).trans_lt (hreads.pos_lt hne)))

/-! ## Windows of a scan -/

theorem Reader.On.ahead_eq_nil (h : r.On input) (hend : r.pos = input.size) : r.ahead = [] := by
  by_contra hne
  have hlt := Reader.pos_lt_size_iff.2 hne
  rw [h.input_eq, hend] at hlt
  exact Nat.lt_irrefl _ hlt

theorem Reader.On.text_token_ne (h : r.On input) (hlt : r.start < r.pos) (kind : Kind) :
    (r.token kind).text ≠ "" := by
  have hsize : r.window.size ≠ 0 := by
    have hpos := h.pos_le_size
    rw [← h.input_eq] at hpos
    rw [Reader.window, ByteArray.size_extract]
    omega
  intro htext
  refine Utf8.text_ne_nil hsize ?_
  exact congrArg String.toList htext

/-- Every token covers at least a byte, unless it stands for the end of the input, or for
    blanks. -/
def Lexer.CoversBytes (lexer : Lexer n) (settings : Settings) (input : ByteArray) : Prop :=
  ∀ k, ∀ c ∈ lexer.scanClosings settings input k, ∀ t ∈ c.token,
    t.kind = .endOfInput ∨ t.kind = .space ∨ c.reader.start < c.reader.pos ∧ t.text ≠ ""

/-- A wired grammar, all of whose recognizers emit tokens of their own kinds, emits an empty
    token only if `unknown` is called at the end of the input, and so never if the lexer does
    not name it. -/
theorem covers_bytes_iff (hw : lexer.IsWired) (hkind : lexer.KeepsKinds) (settings : Settings)
    (input : ByteArray) :
    (lexer.CoversBytes settings input ↔
      ∀ k, (lexer.unbroken settings input k).outcome = .done (some (.standard .unknown)) →
        (lexer.unbroken settings input k).reader.pos < input.size) ∧
      (¬lexer.Names (.standard .unknown) → lexer.CoversBytes settings input) := by
  have hcovers (hahead : ∀ k,
      (lexer.unbroken settings input k).outcome = .done (some (.standard .unknown)) →
        (lexer.unbroken settings input k).reader.pos < input.size) :
      lexer.CoversBytes settings input := by
    intro k c hc t ht
    obtain ⟨j, -, q, hq, hcall⟩ := (lexer.mem_chainClosings _ k _ _).1 hc
    obtain ⟨st, hst, hpoised⟩ := Lexer.poised_unbroken hw settings input j
    have hpassage := (lexer.passes_call { settings } q
      (lexer.unbroken settings input j).reader).passage
    obtain ⟨kind, rfl⟩ := hpassage.exists_kind c hcall t ht
    have hwindow := (hpassage.on hpoised.on).2 c hcall
    have hmade := hw.covers hkind hpoised.on hpoised.empty
      (fun heq => hahead j (heq ▸ hq)) hcall ht
    exact hmade.imp_right fun h => h.imp_right fun hlt => ⟨hlt, hwindow.text_token_ne hlt kind⟩
  refine ⟨⟨fun hcovered k hk => ?_, hcovers⟩, fun hunnamed => hcovers fun k hk => ?_⟩
  · obtain ⟨st, -, hpoised⟩ := Lexer.poised_unbroken hw settings input k
    refine hpoised.on.pos_le_size.lt_of_ne fun hend => ?_
    -- The window of the error that `unknown` emits there is empty.
    obtain ⟨cs, hreads, hcs⟩ := Reader.reads_unknown hpoised.empty.le
    rw [hcs.2 (hpoised.on.ahead_eq_nil hend)] at hreads
    have hmem := (lexer.mem_chainClosings { settings } (k + 1) (some lexer.start) { input }).2
      ⟨k, k.lt_succ_self, _, hk, List.mem_singleton_self _⟩
    rcases hcovered (k + 1) _ hmem _ rfl with h | h | ⟨hlt, -⟩
    · simp [Reader.token] at h
    · simp [Reader.token] at h
    · exact absurd ((hreads.start_eq.trans hpoised.empty).trans hreads.pos_nil.symm) hlt.ne
  · obtain ⟨st, hst, hpoised⟩ := Lexer.poised_unbroken hw settings input k
    exact (hpoised.ahead _ (Outcome.done.inj (hst.symm.trans hk))).resolve_left hunnamed

/-- The lexer that reads an address, and goes on to `unknown` behind it. -/
def Lexer.trailing : Lexer 1 where
  grammar _ := .recognizer TokenClass.address.recognizer
    { onSuccess := .state (.standard .unknown) }
  start := .only
  home := .standard .dispatch

theorem Lexer.trailing_isWired : Lexer.trailing.IsWired :=
  fun _ => ⟨.address, _, rfl⟩

theorem Lexer.trailing_keepsKinds : Lexer.trailing.KeepsKinds := by
  intro i r t h
  obtain ⟨-, rfl⟩ := Definition.recognizer.inj h
  rfl

/-- Behind an address at the end of the input, `unknown` is called, and so there is an empty
    token. -/
theorem covers_bytes_iff_trailing :
    Lexer.trailing.IsWired ∧ Lexer.trailing.KeepsKinds ∧
      (Lexer.trailing.unbroken {} "1.2.3.4".toUTF8 1).outcome =
        .done (some (.standard .unknown)) ∧
      ¬Lexer.trailing.CoversBytes {} "1.2.3.4".toUTF8 := by
  have hcall : (Lexer.trailing.unbroken {} "1.2.3.4".toUTF8 1).outcome =
      .done (some (.standard .unknown)) := rfl
  have hiff := (covers_bytes_iff Lexer.trailing_isWired Lexer.trailing_keepsKinds {}
    "1.2.3.4".toUTF8).1
  refine ⟨Lexer.trailing_isWired, Lexer.trailing_keepsKinds, hcall, fun hcovers => ?_⟩
  exact absurd (hiff.1 hcovers 1 hcall) (by decide +kernel)

/-- This token is an error that covers nothing, in front of the end of the input. -/
theorem trailing_empty_error :
    Lexer.trailing.IsWired ∧ Lexer.trailing.KeepsKinds ∧
      (Lexer.trailing.scan {} false none "1.2.3.4".toUTF8).1 =
        .value [{ kind := .address, pos := 0, text := "1.2.3.4" },
          { kind := .error, pos := 7, text := "" },
          { kind := .endOfInput, pos := 7, text := "" }] := by
  refine ⟨Lexer.trailing_isWired, Lexer.trailing_keepsKinds, ?_⟩
  exact scan_of_endsWith none ⟨3, by decide +kernel, by decide +kernel⟩

end StateLexer
