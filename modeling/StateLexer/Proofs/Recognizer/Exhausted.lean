import Mathlib.Tactic.Choose
import StateLexer.Proofs.Windows

/-!
# Recognizers at the end of the input

At the end of the input nothing is left to read, and where the window is empty there is
nothing to give back. So a matcher does not get away from there, whatever it does
(`Run.Passes.at_end`): it may skip and emit, but its verdict is on an empty window. The
recognizer then finds the input exhausted and leads nowhere, which is what keeps it from being
called again and again.

There is one exception. An invalid verdict is acted upon before anyone looks whether the input is
exhausted, so the recognizer emits an empty error and goes on as the transition says, possibly
for ever (`invalid_endless`).

* `Recognizer.outcome_conclude`: where each verdict leads at the end of the input;
* `exhausted_halts`: a recognizer leads nowhere from there, unless the verdict is invalid.
-/

namespace StateLexer

variable {strict : Bool} {input : ByteArray} {env : Env} {r : Reader} {cs : List Closing}
  {σ : Type} {home : σ} {t : Transition σ} {kind : Kind} {verdict : Verdict}

/-! ## Procedures -/

/-- A matcher that sees what it does: it makes steps, each of them chosen by what those before
    have yielded, and then gives a verdict. -/
inductive Procedure
  | give (verdict : Verdict)
  | make (step : Step) (next : Value → Procedure)

namespace Procedure

/-- Makes the steps, and gives the verdict. -/
def run (env : Env) : Procedure → Reader → Run Verdict
  | give verdict, r => .pure verdict r
  | make step next, r => (step.run env r).andThen fun value r => (next value).run env r

theorem passes_run (env : Env) (p : Procedure) (r : Reader) :
    ∃ cs, (p.run env r).Passes env.settings.strictBackup r cs := by
  induction p generalizing r with
  | give verdict => exact ⟨[], Run.passes_pure verdict (.refl r)⟩
  | make step next ih =>
    choose cs hcs using fun value => ih value (step.run env r).reader
    exact ⟨_, (Step.passes_run env step r).andThen (g := fun value _ => cs value) hcs⟩

/-- Makes the steps in order, and gives the verdict on what the last one has yielded. -/
def ofSteps (judge : Value → Verdict) : List Step → Value → Procedure
  | [], value => .give (judge value)
  | step :: steps, _ => .make step (ofSteps judge steps)

theorem run_ofSteps (env : Env) (judge : Value → Verdict) (steps : List Step) (value : Value)
    (r : Reader) : (ofSteps judge steps value).run env r =
      (Step.runAll env steps value r).andThen fun value r => .pure (judge value) r := by
  induction steps generalizing value r with
  | nil => rfl
  | cons step steps ih => simp only [ofSteps, run, Step.runAll, Run.andThen_assoc, ih]

end Procedure

/-- The matchers of a grammar that are made of steps are procedures. -/
theorem Matcher.run_steps (env : Env) (steps : List Step) (result : Verdict)
    (otherwise : Option Verdict) (r : Reader) :
    (Matcher.steps steps result otherwise).run env r =
      (Procedure.ofSteps (choose · result otherwise) steps .nothing).run env r :=
  (Procedure.run_ofSteps env (choose · result otherwise) steps .nothing r).symm

/-! ## Verdicts -/

namespace Recognizer

/-- Calls the recognizer whose matcher is the procedure. -/
def callBy (env : Env) (home : σ) (kind : Kind) (t : Transition σ) (p : Procedure)
    (r : Reader) : Run (Option σ) :=
  (p.run env r).andThen (conclude env home kind t)

/-- With an empty window at the end, the input is exhausted. -/
theorem exhausted_of_end (hempty : r.start = r.pos) (hend : r.input.size ≤ r.pos) :
    (exhausted .plain r).1 = true := by
  simp [exhausted, hempty, Reader.peek_def, Reader.next, Nat.not_lt.2 hend]

/-- As long as tokens are accepted, what is accepted comes to be emitted or skipped. -/
theorem outcome_settle (hopen : env.refusal = none) (kind : Kind) (t : Transition σ)
    (r : Reader) : (settle env kind t r).outcome = .done () := by
  rw [settle]
  split
  · simp [Run.emit, hopen]
  · rfl

/-- To emit a window and to skip it leaves the reader at the same place. -/
theorem reader_settle (hopen : env.refusal = none) (kind : Kind) (t : Transition σ)
    (r : Reader) : (settle env kind t r).reader = r.renew := by
  rw [settle]
  split
  · simp [Run.emit, hopen]
  · rfl

/-- At the end of the input, a recognizer leads somewhere only if it is invalid. -/
theorem outcome_conclude (hopen : env.refusal = none) (home : σ) (kind : Kind)
    (t : Transition σ) (verdict : Verdict) (hempty : r.start = r.pos)
    (hend : r.input.size ≤ r.pos) : (conclude env home kind t verdict r).outcome =
      .done (if verdict = .invalid then t.onError.resolve home else none) := by
  have hspent := exhausted_of_end hempty hend
  cases verdict with
  | accepted =>
    rw [conclude_accepted, Run.outcome_andThen_done (outcome_settle hopen kind t _), hspent]
    rfl
  | rejected => simp [conclude_rejected, hspent, Run.pure]
  | invalid => simp [conclude, Run.emit, hopen, Run.andThen, Run.pure]

end Recognizer

/-! ## The end of the input -/

/-- What passes from an empty window at the end of the input is still there. -/
theorem Run.Passes.at_end {α : Type} {run : Run α} (h : run.Passes strict r cs)
    (hr : r.On input) (hempty : r.start = r.pos) (hend : r.pos = input.size) :
    run.reader.start = run.reader.pos ∧ run.reader.pos = input.size := by
  have hon := (h.on hr).on_reader
  have hstart := h.passage.start_le hr
  have hle := hon.start_le_pos
  have hsize := hon.pos_le_size
  omega

/-- So the verdict on an empty window at the end of the input decides. -/
theorem Run.Passes.outcome_conclude {run : Run Verdict} (h : run.Passes strict r cs)
    (hopen : env.refusal = none) (hr : r.On input) (hempty : r.start = r.pos)
    (hend : r.pos = input.size) (hverdict : run.outcome = .done verdict) :
    (run.andThen (Recognizer.conclude env home kind t)).outcome =
      .done (if verdict = .invalid then t.onError.resolve home else none) := by
  obtain ⟨hempty', hend'⟩ := h.at_end hr hempty hend
  rw [Run.outcome_andThen_done hverdict]
  refine Recognizer.outcome_conclude hopen home kind t verdict hempty' ?_
  rw [(h.on hr).on_reader.input_eq]
  exact Nat.le_of_eq hend'.symm

/-- A recognizer that is called with an empty window at the end of the input leads nowhere,
    whatever its matcher, its kind of token and its transition are, unless it finds the input
    invalid: then it goes where the transition leads on an error. -/
theorem exhausted_halts (env : Env) (hopen : env.refusal = none) (home : σ) (t : Transition σ)
    (hr : r.On input) (hempty : r.start = r.pos) (hend : r.pos = input.size) :
    (∀ (recognizer : Recognizer) (verdict : Verdict),
      (recognizer.matcher.run env r).outcome = .done verdict →
        (recognizer.matcher.run env r).reader.pos = r.pos ∧
          (recognizer.call env home t r).outcome =
            .done (if verdict = .invalid then t.onError.resolve home else none)) ∧
      ∀ (p : Procedure) (kind : Kind) (verdict : Verdict),
        (p.run env r).outcome = .done verdict →
          (p.run env r).reader.pos = r.pos ∧
            (Recognizer.callBy env home kind t p r).outcome =
              .done (if verdict = .invalid then t.onError.resolve home else none) := by
  refine ⟨fun recognizer verdict hverdict => ?_, fun p kind verdict hverdict => ?_⟩
  · have hpasses := Matcher.passes_run env recognizer.matcher r
    refine ⟨(hpasses.at_end hr hempty hend).2.trans hend.symm, ?_⟩
    exact hpasses.outcome_conclude hopen hr hempty hend hverdict
  · obtain ⟨cs, hpasses⟩ := p.passes_run env r
    exact ⟨(hpasses.at_end hr hempty hend).2.trans hend.symm,
      hpasses.outcome_conclude hopen hr hempty hend hverdict⟩

/-- A procedure that looks for a character and finds none rejects, and so does the recognizer
    of line endings: both lead nowhere behind the only letter. -/
theorem exhausted_halts_letter :
    let r : Reader := { pos := 1, start := 1, input := "a".toUTF8 }
    let env : Env := { settings := {} }
    let home : State 0 := .standard .dispatch
    let p : Procedure := .make .peek fun value =>
      .give (if value.isSuccess then .accepted else .rejected)
    (TokenClass.newline.recognizer.call env home {} r).outcome = .done none ∧
      (p.run env r).outcome = .done .rejected ∧
      (Recognizer.callBy env home .newline {} p r).outcome = .done none := by
  intro r env home p
  have hon : r.On "a".toUTF8 := ⟨rfl, by decide, by decide, by decide⟩
  obtain ⟨hrecognizer, hprocedure⟩ := exhausted_halts env rfl home {} hon rfl (by decide)
  have hverdict : (p.run env r).outcome = .done .rejected := rfl
  refine ⟨?_, hverdict, ?_⟩
  · exact (hrecognizer TokenClass.newline.recognizer .rejected rfl).2
  · exact (hprocedure p .newline .rejected hverdict).2

/-! ## Invalid without end -/

/-- The state of a grammar that defines no other. -/
abbrev State.only : State 1 :=
  .custom ⟨0, Nat.zero_lt_one⟩

/-- A recognizer that finds everything invalid, and reads none of it. -/
def Recognizer.barren : Recognizer :=
  { name := "barren", kind := .address, matcher := .steps [] .invalid none }

/-- The lexer that has this recognizer as its only state. -/
def Lexer.barren : Lexer 1 :=
  { grammar := fun _ => .recognizer .barren {}, start := .only, home := .only }

/-- Its matcher reads nothing on the empty input, and yet it leads home: there it is called
    again, and emits one empty error after the other. -/
theorem invalid_endless :
    let env : Env := { settings := {} }
    let run := Recognizer.barren.matcher.run env { input := .empty }
    (run.outcome = .done .invalid ∧ run.reader.pos = 0) ∧
      (Recognizer.barren.call env State.only {} { input := .empty }).outcome =
        .done (some .only) ∧
      ∀ k, (Lexer.barren.unbroken {} .empty k).outcome = .done (some .only) ∧
        (Lexer.barren.unbroken {} .empty k).tokens =
          List.replicate k { kind := .error, pos := 0, text := "" } := by
  intro env run
  have htoken : ({ input := .empty } : Reader).token .error =
      { kind := .error, pos := 0, text := "" } := by decide +kernel
  have hcall : Lexer.barren.call env Lexer.barren.start { input := .empty } =
      { events := [.offer { input := .empty } { kind := .error, pos := 0, text := "" }],
        reader := { input := .empty }, outcome := .done (some Lexer.barren.start) } := by
    rw [← htoken]
    rfl
  refine ⟨⟨rfl, rfl⟩, congrArg Run.outcome hcall, fun k => ?_⟩
  induction k with
  | zero => exact ⟨rfl, rfl⟩
  | succ k ih =>
    rw [Lexer.unbroken] at ih ⊢
    rw [Lexer.calls_succ, hcall, Run.outcome_andThen_done rfl, Run.tokens_andThen_done rfl, ih.2]
    exact ⟨ih.1, rfl⟩

end StateLexer
