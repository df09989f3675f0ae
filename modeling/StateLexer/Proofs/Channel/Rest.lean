import Mathlib.Algebra.Ring.Nat
import Mathlib.Data.List.Induction
import Mathlib.Data.Prod.Lex
import StateLexer.Channel.Monitor

/-!
# Threads come to rest

However the threads at a channel take turns, sooner or later they rest
(`Monitor.wellFounded_step`). A thread that wakes the others does so for the last time, and a
thread that goes on without waking any is nearer to rest. So each turn takes the monitor down
in rank: how often the threads can still wake each other comes first, and how far they are
from rest comes second.

Hence any requests can come one after the other (`Monitor.exists_comes`).
-/

namespace StateLexer

namespace Stage

/-- How often the thread can still wake the others. -/
def calls : Stage → Nat
  | coming _ | receiving _ _ | late => 1
  | sending _ _ | gone _ => 0

/-- How far the thread is from rest, if nobody wakes it. -/
def effort : Stage → Nat
  | coming _ => 4
  | receiving _ true => 3
  | receiving _ false | sending _ true => 2
  | sending _ false | late => 1
  | gone _ => 0

theorem calls_wake (stage : Stage) : stage.wake.calls = stage.calls := by
  cases stage <;> rfl

end Stage

namespace Monitor

variable {m m' : Monitor} {i : Nat} {stage stage' : Stage}

theorem sum_map_set (f : Stage → Nat) {threads : List Stage} (hi : threads[i]? = some stage)
    (stage' : Stage) :
    ((threads.set i stage').map f).sum + f stage = (threads.map f).sum + f stage' := by
  induction threads generalizing i with
  | nil => exact absurd hi nofun
  | cons s threads ih =>
    cases i with
    | zero =>
      obtain rfl := Option.some.inj hi
      simp only [List.set_cons_zero, List.map_cons, List.sum_cons]
      omega
    | succ i =>
      have := ih hi
      simp only [List.set_cons_succ, List.map_cons, List.sum_cons]
      omega

/-- How often the threads can still wake each other, and how far they are from rest. -/
def rank (m : Monitor) : ℕ ×ₗ ℕ :=
  toLex ((m.threads.map Stage.calls).sum, (m.threads.map Stage.effort).sum)

/-- A thread that will wake the others less often takes the monitor down. -/
theorem rank_put_lt_of_calls (hi : m.threads[i]? = some stage)
    (hcalls : stage'.calls < stage.calls) : (m.put i stage').rank < m.rank := by
  have hsum := sum_map_set Stage.calls hi stage'
  exact Prod.Lex.toLex_lt_toLex.2 (.inl (by simp only [put]; omega))

/-- It does so even if it wakes the others now. -/
theorem rank_wakeAll_put_lt (hi : m.threads[i]? = some stage)
    (hcalls : stage'.calls < stage.calls) : (m.wakeAll.put i stage').rank < m.rank := by
  have hcomp : Stage.calls ∘ Stage.wake = Stage.calls := funext Stage.calls_wake
  have hwake : (m.threads.map Stage.wake)[i]? = some stage.wake := by simp [hi]
  have hsum := sum_map_set Stage.calls hwake stage'
  rw [List.map_map, hcomp, Stage.calls_wake] at hsum
  exact Prod.Lex.toLex_lt_toLex.2 (.inl (by simp only [put, wakeAll]; omega))

/-- A thread that comes nearer to rest takes the monitor down. -/
theorem rank_put_lt_of_effort (hi : m.threads[i]? = some stage)
    (hcalls : stage'.calls = stage.calls) (heffort : stage'.effort < stage.effort) :
    (m.put i stage').rank < m.rank := by
  have hsum := sum_map_set Stage.calls hi stage'
  have hsum' := sum_map_set Stage.effort hi stage'
  exact Prod.Lex.toLex_lt_toLex.2
    (.inr ⟨by simp only [put]; omega, by simp only [put]; omega⟩)

/-- To look for a token takes the monitor down, if to go on without one does. -/
theorem rank_look_lt (hi : m.threads[i]? = some stage) (hcalls : stage.calls = 1)
    (hput : (m.put i stage').rank < m.rank) : (m.look i stage').rank < m.rank := by
  have hgone (d : Departure) : (Stage.gone d).calls < stage.calls := hcalls ▸ Nat.zero_lt_one
  rw [look]
  split
  · next parcel hslot =>
    exact rank_wakeAll_put_lt (m := { m with channel := _ }) hi (hgone _)
  · split
    · exact rank_put_lt_of_calls hi (hgone _)
    · exact hput

/-- Every turn takes the monitor down. -/
theorem Step.rank_lt (hstep : Step m m') : m'.rank < m.rank := by
  cases hstep with
  | @go i stage hi hready =>
    cases stage with
    | coming request =>
      cases request with
      | send token =>
        rw [Monitor.go]
        split
        · exact rank_put_lt_of_calls hi Nat.zero_lt_one
        · -- A sender wakes the others when it comes, and never again.
          exact rank_wakeAll_put_lt (m := { m with channel := _ }) hi Nat.zero_lt_one
      | receive | receiveWithin =>
        exact rank_look_lt hi rfl (rank_put_lt_of_effort hi rfl (by simp [Stage.effort]))
      | close | cancel =>
        exact rank_wakeAll_put_lt (m := { m with channel := _ }) hi Nat.zero_lt_one
    | sending token awake =>
      obtain rfl : awake = true := hready
      rw [Monitor.go]
      split
      · split
        · exact rank_put_lt_of_effort (m := { m with channel := _ }) hi rfl (by simp [Stage.effort])
        · exact rank_put_lt_of_effort hi rfl (by simp [Stage.effort])
      · exact rank_put_lt_of_effort (m := { m with channel := _ }) hi rfl (by simp [Stage.effort])
    | receiving limited awake =>
      obtain rfl : awake = true := hready
      exact rank_look_lt hi rfl (rank_put_lt_of_effort hi rfl (by simp [Stage.effort]))
    | late => exact rank_look_lt hi rfl (rank_put_lt_of_calls hi Nat.zero_lt_one)
    | gone => exact absurd hready nofun
  | @expire i awake hi =>
    refine rank_put_lt_of_effort hi rfl ?_
    cases awake <;> simp [Stage.effort]

/-- However the threads take turns, they do not go on for ever. -/
theorem wellFounded_step : WellFounded fun m' m => Step m m' :=
  Subrelation.wf Step.rank_lt (InvImage.wf rank wellFounded_lt)

/-- Where not all rest, one can go on. -/
theorem exists_step (hrests : ¬m.Rests) : ∃ m', Step m m' := by
  simp only [Rests, not_forall] at hrests
  obtain ⟨stage, hstage, hnot⟩ := hrests
  obtain ⟨i, hi⟩ := List.mem_iff_getElem?.1 hstage
  cases stage with
  | coming | late => exact ⟨_, .go hi rfl⟩
  | sending token awake =>
    cases awake with
    | true => exact ⟨_, .go hi rfl⟩
    | false => exact absurd rfl hnot
  | receiving limited awake =>
    cases awake with
    | true => exact ⟨_, .go hi rfl⟩
    | false =>
      cases limited with
      | true => exact ⟨_, .expire hi⟩
      | false => exact absurd rfl hnot
  | gone => exact absurd rfl hnot

/-- They come to rest. -/
theorem exists_rests (m : Monitor) : ∃ m', Relation.ReflTransGen Step m m' ∧ m'.Rests := by
  induction m using wellFounded_step.induction with
  | _ m ih =>
    by_cases hrests : m.Rests
    · exact ⟨m, .refl, hrests⟩
    · obtain ⟨m', hstep⟩ := exists_step hrests
      obtain ⟨m'', hsteps, hrests'⟩ := ih m' hstep
      exact ⟨m'', .head hstep hsteps, hrests'⟩

/-- Any requests can come one after the other. -/
theorem exists_comes (requests : List Rendezvous.Request) : ∃ m, Comes requests m := by
  induction requests using List.reverseRecOn with
  | nil => exact ⟨_, .nil⟩
  | append_singleton requests request ih =>
    obtain ⟨m, hcomes⟩ := ih
    obtain ⟨m', hsteps, hrests⟩ := (m.accept request).exists_rests
    exact ⟨m', hcomes.snoc request hsteps hrests⟩

end Monitor

end StateLexer
