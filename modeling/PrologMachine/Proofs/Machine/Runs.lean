/-
  PrologMachine.Proofs.Machine.Runs ── **ALL ANSWERS OF A QUESTION.**

  A search is driven by runs, with as much budget as they need, and by requests for the next answer.  A
  run stops at an answer, or when there are no more.

    * `Machine.RunsTo`: what a run comes to.
    * `Machine.Answered`, `Machine.Reports`: so many answers, and what the next run comes to.
    * `Machine.Stops`: the instruction that ends a run.
-/
import PrologMachine.Proofs.Machine.Progress

namespace PrologMachine

namespace Machine

open Relation (TransGen)

variable {w : World} {m m' m₁ m₂ : Machine} {s : Status} {n : Nat}

/-! ## §1. Runs. -/

/-- A run that nobody cancels, and whose budget is large enough, reports this and leaves `m'`. -/
def RunsTo (w : World) (m : Machine) (s : Status) (m' : Machine) : Prop :=
  ∃ budget steps, m.run w false budget = (⟨s, steps, none⟩, m')

/-- The machine gives `n` answers, and is then asked for one more, which makes it `m'`. -/
inductive Answered (w : World) : Machine → Nat → Machine → Prop where
  /-- No answers yet. -/
  | zero {m : Machine} : Answered w m 0 m
  /-- One answer and then the others. -/
  | succ {m m₁ m' : Machine} {n : Nat} (hrun : RunsTo w m .answer m₁)
    (hrest : Answered w m₁.redo.2 n m') : Answered w m (n + 1) m'

/-- After `n` answers a run reports this and leaves `m'`. -/
def Reports (w : World) (m : Machine) (n : Nat) (s : Status) (m' : Machine) : Prop :=
  ∃ m₁, Answered w m n m₁ ∧ RunsTo w m₁ s m'

/-! ## §2. The end of a run. -/

/-- One instruction leads from the machine `m` to `m'` and stops it without an error. -/
structure Stops (w : World) (m m' : Machine) : Prop where
  /-- The search was going on. -/
  active : m.Active
  /-- The instruction. -/
  advance_eq : m.advance w = m'
  /-- There is no error. -/
  error : m'.error = none
  /-- The search has stopped. -/
  ended : m'.ended = true

/-- A run reports where it stops. -/
theorem Stops.runFrom (h : Stops w m m') (b t : Nat) :
    m.runFrom w (b + 1) t = (⟨m'.status, t + 1, none⟩, m') := by
  obtain ⟨hasked, herror, hended, -⟩ := h.active
  have hreport : m.step w = (⟨true, none⟩, m') := by
    simp only [Machine.step, herror, hasked, hended, h.advance_eq, h.error, h.ended]
    rfl
  unfold Machine.runFrom
  rw [hreport]

theorem run_of_active (h : m.Active) (budget : Nat) : m.run w false budget = m.runFrom w budget 0 := by
  obtain ⟨hasked, -, hended, -⟩ := h
  simp [Machine.run, hasked, hended]

theorem Reaches.active_left (h : Reaches w m m') (h' : m'.Active) : m.Active := by
  rcases h.cases_head with rfl | ⟨_, hstep, -⟩
  · exact h'
  · exact hstep.active

/-- **A run passes through what is reached and reports where it stops.** -/
theorem Reaches.finishes (h : Reaches w m m₁) (hstops : Stops w m₁ m') : RunsTo w m m'.status m' := by
  obtain ⟨n, hn⟩ := h.runFrom
  refine ⟨n + 1, n + 1, ?_⟩
  rw [run_of_active (h.active_left hstops.active), hn, hstops.runFrom, Nat.zero_add]

/-- A run of a machine that was exhausted says so again. -/
theorem finishes_of_exhausted (hasked : m.asked = true) (herror : m.error = none) (hended : m.ended = true) :
    RunsTo w m m.status m := by
  refine ⟨0, 0, ?_⟩
  simp [Machine.run, hasked, herror, hended]

end Machine

end PrologMachine
