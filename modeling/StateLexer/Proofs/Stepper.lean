import StateLexer.Proofs.Run.Passage
import StateLexer.Stepper

/-!
# What is done with a stepper

A stepper makes one move after the other, and its channel can be closed or cancelled in
between (`Stepper.Act`). A move may fail, and the next one goes on from there. So the acts
are any steps that a grammar can make, in any order, with calls of its states among them,
and each of them takes the reader on a passage (`passage_actAll`).
-/

namespace StateLexer.Stepper

variable {n : Nat}

/-- A stepper that has made no move. -/
def new (lexer : Lexer n) (settings : Settings) (input : ByteArray) (channel : Channel Token) :
    Stepper n :=
  { lexer, settings, reader := { input }, channel }

/-- What is done with a stepper: a move is made, or its channel comes to an end. -/
inductive Act (n : Nat)
  | move (m : Move n)
  | close
  | cancel

/-- The stepper after an act. -/
def act (s : Stepper n) : Act n → Stepper n
  | .move m => (s.move m).2
  | .close => s.close
  | .cancel => s.cancel

/-- The stepper after the acts. -/
def actAll (s : Stepper n) (acts : List (Act n)) : Stepper n :=
  acts.foldl act s

@[simp] theorem settings_act (s : Stepper n) (a : Act n) : (s.act a).settings = s.settings := by
  cases a <;> rfl

@[simp] theorem settings_actAll (s : Stepper n) (acts : List (Act n)) :
    (s.actAll acts).settings = s.settings := by
  induction acts generalizing s with
  | nil => rfl
  | cons a acts ih => exact (ih (s.act a)).trans (settings_act s a)

/-- The tokens that are taken during the acts. -/
def yield (s : Stepper n) : List (Act n) → List Token
  | [] => []
  | .move m :: acts => (s.move m).1.tokens ++ (s.act (.move m)).yield acts
  | a :: acts => (s.act a).yield acts

/-- The windows that a move closes. -/
def moveClosings (s : Stepper n) : Move n → List Closing
  | .step step => step.closings { settings := s.settings, refusal := s.channel.refusal } s.reader
  | .call q =>
    s.lexer.closings { settings := s.settings, refusal := s.channel.refusal } q s.reader

/-- The windows that are closed during the acts. -/
def closings (s : Stepper n) : List (Act n) → List Closing
  | [] => []
  | .move m :: acts => s.moveClosings m ++ (s.act (.move m)).closings acts
  | a :: acts => (s.act a).closings acts

theorem passes_move (s : Stepper n) (m : Move n) :
    (s.record m).Passes s.settings.strictBackup s.reader (s.moveClosings m) := by
  let env : Env := { settings := s.settings, refusal := s.channel.refusal }
  cases m with
  | step step => exact (Step.passes_run env step s.reader).map _
  | call q => exact (s.lexer.passes_call env q s.reader).map _

/-- Whatever is done with a stepper, its reader is on a passage. -/
theorem passage_actAll (s : Stepper n) (acts : List (Act n)) :
    Passage s.settings.strictBackup s.reader (s.closings acts) (s.actAll acts).reader ∧
      s.yield acts = (s.closings acts).filterMap Closing.token := by
  induction acts generalizing s with
  | nil => exact ⟨.refl _, rfl⟩
  | cons a acts ih =>
    obtain ⟨hpassage, hyield⟩ := ih (s.act a)
    cases a with
    | move m =>
      have hmove := s.passes_move m
      refine ⟨hmove.passage.trans hpassage, ?_⟩
      rw [yield, closings, List.filterMap_append, hyield, ← hmove.tokens_eq]
      rfl
    | close => exact ⟨hpassage, hyield⟩
    | cancel => exact ⟨hpassage, hyield⟩

end StateLexer.Stepper
