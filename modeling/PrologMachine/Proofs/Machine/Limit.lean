/-
  PrologMachine.Proofs.Machine.Limit ── **RUNS WITH A STEP LIMIT.**

  A machine counts the instructions that it executes since it was asked, or asked again.  With a
  limit it does what it does without one for as long as the limit is not used up; the instruction
  behind the limit is fetched and not executed, and the error is reported in its place.

    * `World.unlimited`: the same surroundings without a limit.
    * `Machine.executes`, `Machine.executed`: whether a step executes an instruction, and how many
      of a number of steps do.
    * `Machine.runFrom_within`: a run within the limit is the run without it.
    * `Machine.runFrom_beyond`: a run that would go beyond the limit ends with the error, after as
      many steps as the limit allows.
-/
import PrologMachine.Proofs.Machine.Bookkeeping

namespace PrologMachine

/-- The same surroundings without a step limit. -/
def World.unlimited (w : World) : World := { w with maxSteps := 0 }

namespace Machine

variable {w : World} {m m' : Machine} {n t N : Nat} {e : Error}

/-! ## §1. One step. -/

/-- The machine is not stopped: it has a question, has not ended and has not failed. -/
structure Live (m : Machine) : Prop where
  /-- It has not failed. -/
  sound : m.error = none
  /-- A question was set. -/
  asked : m.asked = true
  /-- It has not ended. -/
  running : m.ended = false

/-- The next step executes an instruction: the machine is not stopped, there is an instruction, and
    the limit is not used up. -/
def executes (w : World) (m : Machine) : Bool :=
  m.error.isNone && m.asked && !m.ended && m.fetch.isOk && (m.count w).1.isOk

/-- How many of the next `n` steps execute an instruction. -/
def executed (w : World) : (n : Nat) → Machine → Nat
  | 0, _ => 0
  | n + 1, m => (m.executes w).toNat + executed w n (m.step w).2

/-- A live machine advances. -/
theorem Live.step (hm : m.Live) :
    m.step w = (⟨(m.advance w).ended, (m.advance w).error⟩, m.advance w) := by
  simp [Machine.step, hm.sound, hm.asked, hm.running]

/-- A machine that is stopped says so and stays as it is. -/
theorem step_of_not_live (hm : ¬ m.Live) :
    (m.step w).1.done = true ∧ (m.step w).2 = m ∧ m.executes w = false := by
  unfold Machine.step executes
  cases herror : m.error with
  | some e => exact ⟨rfl, rfl, rfl⟩
  | none =>
    cases hasked : m.asked with
    | false => exact ⟨rfl, rfl, rfl⟩
    | true =>
      cases hended : m.ended with
      | true => exact ⟨rfl, rfl, rfl⟩
      | false => exact absurd ⟨herror, hasked, hended⟩ hm

/-- A machine that is not live executes nothing. -/
theorem executed_of_not_live (hm : ¬ m.Live) (n : Nat) : m.executed w n = 0 := by
  induction n with
  | zero => rfl
  | succ n ih =>
    obtain ⟨-, hstep, hexecutes⟩ := step_of_not_live (w := w) hm
    rw [executed, hexecutes, hstep, ih]
    rfl

/-- A step that reports an error or an end leaves a machine that is stopped. -/
theorem not_live_of_step (h : (m.step w).1.error ≠ none ∨ (m.step w).1.done = true) :
    ¬ (m.step w).2.Live := by
  by_cases hm : m.Live
  · rw [hm.step] at h ⊢
    intro hlive
    rcases h with herror | hended
    · exact herror hlive.sound
    · rw [hlive.running] at hended
      cases hended
  · rwa [(step_of_not_live hm).2.1]

/-- A step that reports no error leaves none. -/
theorem sound_of_step (hm : m.error = none) (h : (m.step w).1.error = none) :
    (m.step w).2.error = none := by
  by_cases hlive : m.Live
  · rwa [hlive.step] at h ⊢
  · rwa [(step_of_not_live hlive).2.1]

/-- An instruction is executed when it is fetched and within the limit. -/
theorem executes_iff : m.executes w = true ↔
    m.Live ∧ m.fetch.isOk = true ∧ (m.count w).1.isOk = true := by
  simp only [executes, Bool.and_eq_true, Option.isNone_iff_eq_none, Bool.not_eq_true', and_assoc]
  exact ⟨fun ⟨h₁, h₂, h₃, h⟩ => ⟨⟨h₁, h₂, h₃⟩, h⟩, fun ⟨h, h'⟩ => ⟨h.sound, h.asked, h.running, h'⟩⟩

/-- The machine that is about to execute the instruction. -/
def entering (w : World) (i : Instruction) (m : Machine) : Machine :=
  { m with
    index := m.index + 1
    steps := m.steps + 1
    transcript := m.transcript.logIf w.debug (.step i m.codeSignature m.label m.depth) }

/-- The limit is used up. -/
def spent (w : World) (m : Machine) : Prop := 0 < w.maxSteps ∧ w.maxSteps < (m.steps + 1 : Nat)

/-- Beyond the limit it is not counted. -/
theorem count_of_spent (h : m.spent w) : m.count w =
    (.error (.stepLimit w.maxSteps), { m with index := m.index + 1, steps := m.steps + 1 }) := by
  have hcond : (decide (0 < w.maxSteps) && decide (w.maxSteps < (m.steps + 1 : Nat))) = true := by
    simpa [spent] using h
  simp only [count, hcond, if_true]

/-- Within the limit it is counted. -/
theorem count_of_not_spent (h : ¬ m.spent w) :
    m.count w = (.ok (), { m with index := m.index + 1, steps := m.steps + 1 }) := by
  have hcond : (decide (0 < w.maxSteps) && decide (w.maxSteps < (m.steps + 1 : Nat))) = false := by
    rw [← Bool.not_eq_true]
    simpa [spent] using h
  simp only [count, hcond, Bool.false_eq_true, if_false]

/-- Without a limit none is used up. -/
theorem not_spent_unlimited : ¬ m.spent w.unlimited := fun h => Int.lt_irrefl 0 h.1

/-- The limit is used up after so many steps. -/
theorem spent_iff (hN : w.maxSteps = N) (hpos : 0 < N) : m.spent w ↔ N ≤ m.steps := by
  rw [spent, hN]
  omega

/-- An instruction that cannot be fetched is a fault. -/
theorem advance_of_fetch {e : RunError} (h : m.fetch = .error e) :
    m.advance w = m.fault (.running e) := by
  simp only [advance, h]

/-- Beyond the limit it is a fault. -/
theorem advance_of_spent {i : Instruction} (h : m.fetch = .ok i) (hs : m.spent w) :
    m.advance w = { m with index := m.index + 1, steps := m.steps + 1 }.fault
      (.running (.stepLimit w.maxSteps)) := by
  simp only [advance, h, count_of_spent hs]

/-- Within the limit it is performed. -/
theorem advance_of_not_spent {i : Instruction} (h : m.fetch = .ok i) (hs : ¬ m.spent w) :
    m.advance w = (m.entering w i).perform (Exec.execute w i) := by
  simp only [advance, h, count_of_not_spent hs]
  rfl

/-- Without a limit every step that finds an instruction executes it. -/
theorem executes_unlimited_iff : m.executes w.unlimited = true ↔ m.Live ∧ ∃ i, m.fetch = .ok i := by
  rw [executes_iff, count_of_not_spent not_spent_unlimited]
  cases m.fetch <;> simp [Except.isOk, Except.toBool]

/-- With a limit only those steps do that are within it. -/
theorem executes_iff_unlimited (hN : w.maxSteps = N) (hpos : 0 < N) :
    m.executes w = true ↔ m.executes w.unlimited = true ∧ m.steps < N := by
  rw [executes_iff, executes_iff, and_assoc, and_assoc, count_of_not_spent not_spent_unlimited]
  by_cases hs : m.spent w
  · rw [count_of_spent hs]
    have hle := (spent_iff hN hpos).1 hs
    simp [Except.isOk, Except.toBool]
    omega
  · rw [count_of_not_spent hs]
    have hlt := mt (spent_iff hN hpos).2 hs
    simp [Except.isOk, Except.toBool]
    omega

/-- **A step within the limit is the step without it.** -/
theorem step_within (hN : w.maxSteps = N) (hpos : 0 < N)
    (h : m.executes w.unlimited = true → m.steps < N) : m.step w = m.step w.unlimited := by
  by_cases hm : m.Live
  · rw [hm.step, hm.step]
    suffices hadvance : m.advance w = m.advance w.unlimited by rw [hadvance]
    cases hfetch : m.fetch with
    | error e => rw [advance_of_fetch hfetch, advance_of_fetch hfetch]
    | ok i =>
      have hs : ¬ m.spent w := fun hs =>
        Nat.not_lt_of_le ((spent_iff hN hpos).1 hs) (h (executes_unlimited_iff.2 ⟨hm, i, hfetch⟩))
      rw [advance_of_not_spent hfetch hs, advance_of_not_spent hfetch not_spent_unlimited]
      rfl
  · unfold Machine.step
    cases herror : m.error with
    | some e => rfl
    | none =>
      cases hasked : m.asked with
      | false => rfl
      | true =>
        cases hended : m.ended with
        | true => rfl
        | false => exact absurd ⟨herror, hasked, hended⟩ hm

/-- **The step behind the limit reports it.** -/
theorem step_beyond (hN : w.maxSteps = N) (hpos : 0 < N) (h : m.executes w.unlimited = true)
    (hs : N ≤ m.steps) :
    (m.step w).1 = ⟨true, some (.running (.stepLimit N))⟩ ∧ ¬ (m.step w).2.Live := by
  obtain ⟨hm, i, hfetch⟩ := executes_unlimited_iff.1 h
  have hreport : (m.step w).1 = ⟨true, some (.running (.stepLimit N))⟩ := by
    rw [hm.step, advance_of_spent hfetch ((spent_iff hN hpos).2 hs), hN]
    simp [fault, hm.sound]
  exact ⟨hreport, not_live_of_step (by simp [hreport])⟩

/-- Without a limit a step counts when it executes an instruction. -/
theorem steps_step_unlimited :
    (m.step w.unlimited).2.steps = m.steps + (m.executes w.unlimited).toNat := by
  by_cases hm : m.Live
  · cases hfetch : m.fetch with
    | error e =>
      have hnone : m.executes w.unlimited = false := by
        rw [← Bool.not_eq_true, executes_unlimited_iff]
        simp [hfetch]
      rw [hm.step, advance_of_fetch hfetch, hnone]
      exact steps_fault _
    | ok i =>
      rw [executes_unlimited_iff.2 ⟨hm, i, hfetch⟩, hm.step,
        advance_of_not_spent hfetch not_spent_unlimited]
      exact (undisturbed (Exec.keeps_execute i)).steps
  · obtain ⟨-, hstep, hexecutes⟩ := step_of_not_live (w := w.unlimited) hm
    rw [hstep, hexecutes]
    rfl

/-- Fetching does not fail for the limit. -/
theorem fetch_ne {e : RunError} (h : m.fetch = .error e) (k : Int) : e ≠ .stepLimit k := by
  rintro rfl
  unfold fetch at h
  split at h
  · cases h
  split at h
  · cases h
  split at h <;> cases h

/-- Without a limit no step reports one. -/
theorem step_error_ne (hm : m.error = none) (k : Int) :
    (m.step w.unlimited).1.error ≠ some (.running (.stepLimit k)) := by
  by_cases hlive : m.Live
  · rw [hlive.step]
    cases hfetch : m.fetch with
    | error e =>
      rw [advance_of_fetch hfetch]
      simp only [error_fault hm, ne_eq, Option.some.injEq, Error.running.injEq]
      exact fetch_ne hfetch k
    | ok i =>
      rw [advance_of_not_spent hfetch not_spent_unlimited]
      exact (undisturbed (m := m.entering w.unlimited i) (Exec.keeps_execute i)).error hm k
  · simp only [Machine.step, hm]
    split
    · simp
    split
    · simp
    · next hasked hended => exact absurd ⟨hm, by simpa using hasked, by simpa using hended⟩ hlive

/-! ## §2. Runs. -/

/-- How many instructions a machine without a limit has counted when `n` more steps are taken. -/
theorem steps_add_executed (n : Nat) (m : Machine) : m.steps + m.executed w.unlimited (n + 1) =
    (m.step w.unlimited).2.steps + (m.step w.unlimited).2.executed w.unlimited n := by
  rw [executed, steps_step_unlimited, Nat.add_assoc]

/-- **A run within the limit is the run without it.** -/
theorem runFrom_within (hN : w.maxSteps = N) (hpos : 0 < N) (n t : Nat) (m : Machine)
    (h : m.steps + m.executed w.unlimited n ≤ N) :
    m.runFrom w n t = m.runFrom w.unlimited n t := by
  induction n generalizing t m with
  | zero => rfl
  | succ n ih =>
    have hstep : m.step w = m.step w.unlimited := step_within hN hpos fun hexecutes => by
      rw [executed, hexecutes] at h
      simp at h
      omega
    rw [steps_add_executed] at h
    unfold runFrom
    rw [hstep]
    rcases hs : m.step w.unlimited with ⟨⟨_ | _, _ | e⟩, m'⟩
    · rw [hs] at h
      exact ih (t + 1) m' h
    all_goals rfl

/-- A step of a machine that is not stopped executes an instruction unless it reports an error. -/
theorem Live.executes (hm : m.Live) (h : (m.step w).1.error = none) : m.executes w = true := by
  rw [executes_iff]
  refine ⟨hm, ?_⟩
  rw [hm.step] at h
  simp only at h
  cases hfetch : m.fetch with
  | error e =>
    rw [advance_of_fetch hfetch, error_fault hm.sound] at h
    cases h
  | ok i =>
    by_cases hs : m.spent w
    · rw [advance_of_spent hfetch hs, fault] at h
      simp [hm.sound] at h
    · rw [count_of_not_spent hs]
      exact ⟨rfl, rfl⟩

/-- Before a step that goes on a machine is not stopped, nor is it afterwards. -/
theorem live_of_step (h : m.step w = (⟨false, none⟩, m')) : m.Live ∧ m'.Live := by
  have hm : m.Live := by
    by_contra hm
    have hdone := (step_of_not_live (w := w) hm).1
    rw [h] at hdone
    cases hdone
  rw [hm.step] at h
  obtain ⟨hreport, rfl⟩ := Prod.mk.inj h
  obtain ⟨hended, herror⟩ := Report.mk.inj hreport
  exact ⟨hm, herror, asked_advance.trans hm.asked, hended⟩

/-- A step that goes on has executed its instruction. -/
theorem executes_of_step (h : m.step w = (⟨false, none⟩, m')) : m.executes w = true :=
  (live_of_step h).1.executes (by rw [h])

/-- **A run that goes beyond the limit ends with its error**, after the steps that it allows. -/
theorem runFrom_beyond (hN : w.maxSteps = N) (hpos : 0 < N) (n t : Nat) (m : Machine)
    (hm : m.steps ≤ N) (h : N < m.steps + m.executed w.unlimited n) :
    (m.runFrom w n t).1 = ⟨.paused, t + (N - m.steps), some (.running (.stepLimit N))⟩ := by
  induction n generalizing t m with
  | zero => simp [executed] at h; omega
  | succ n ih =>
    by_cases hnow : m.executes w.unlimited = true ∧ N ≤ m.steps
    · obtain ⟨hreport, -⟩ := step_beyond hN hpos hnow.1 hnow.2
      have hsteps : m.steps = N := Nat.le_antisymm hm hnow.2
      unfold runFrom
      rcases hs : m.step w with ⟨r, m'⟩
      rw [hs] at hreport
      obtain rfl : r = ⟨true, some (.running (.stepLimit N))⟩ := hreport
      simp [hsteps]
    · have hstep : m.step w = m.step w.unlimited :=
        step_within hN hpos fun hexecutes => Nat.lt_of_not_le fun hle => hnow ⟨hexecutes, hle⟩
      have hsteps := steps_step_unlimited (w := w) (m := m)
      have hle : (m.step w.unlimited).2.steps ≤ N := by
        rw [hsteps]
        cases hexecutes : m.executes w.unlimited with
        | false => simpa using hm
        | true => exact Nat.lt_of_not_le fun hle => hnow ⟨hexecutes, hle⟩
      rw [steps_add_executed] at h
      -- A machine that has stopped executes nothing more.
      have hgoes : (m.step w.unlimited).2.Live := by
        by_contra hstopped
        rw [executed_of_not_live hstopped] at h
        omega
      unfold runFrom
      rw [hstep]
      rcases hs : m.step w.unlimited with ⟨⟨_ | _, _ | e⟩, m'⟩ <;> rw [hs] at h hle hgoes hsteps
      · rw [executes_of_step hs, Bool.toNat_true] at hsteps
        simp only at hsteps hle h
        simp only
        rw [ih (t + 1) m' hle h, show t + 1 + (N - m'.steps) = t + (N - m.steps) by omega]
      all_goals
        refine absurd hgoes ?_
        have := not_live_of_step (w := w.unlimited) (m := m)
        rw [hs] at this
        exact this (by simp)

/-- **With a limit no more instructions are executed than it allows.** -/
theorem executed_le (hN : w.maxSteps = N) (hpos : 0 < N) (n : Nat) (m : Machine)
    (hm : m.steps ≤ N) : m.steps + m.executed w n ≤ N := by
  induction n generalizing m with
  | zero => exact hm
  | succ n ih =>
    -- Either the limit is met in this step, or the step is the one without a limit.
    by_cases hbeyond : m.executes w.unlimited = true ∧ N ≤ m.steps
    · have hnone : m.executes w = false := by
        rw [← Bool.not_eq_true, executes_iff_unlimited hN hpos]
        omega
      rw [executed, hnone, executed_of_not_live (step_beyond hN hpos hbeyond.1 hbeyond.2).2]
      exact hm
    · have hwithin : m.executes w.unlimited = true → m.steps < N := fun hexecutes =>
        Nat.lt_of_not_le fun hle => hbeyond ⟨hexecutes, hle⟩
      have hsame : m.executes w = m.executes w.unlimited := by
        rw [Bool.eq_iff_iff, executes_iff_unlimited hN hpos]
        exact ⟨fun h => h.1, fun h => ⟨h, hwithin h⟩⟩
      have hsteps := steps_step_unlimited (w := w) (m := m)
      have hle : (m.step w.unlimited).2.steps ≤ N := by
        rw [hsteps]
        cases hexecutes : m.executes w.unlimited with
        | false => simpa using hm
        | true => exact hwithin hexecutes
      rw [executed, step_within hN hpos hwithin, hsame, ← Nat.add_assoc, ← hsteps]
      exact ih _ hle

/-- **A run reports as many steps as it executes instructions**, up to the one that fails. -/
theorem steps_runFrom (n t : Nat) (m : Machine) (hm : m.Live) :
    (m.runFrom w n t).1.steps ≤ t + m.executed w n ∧
      ((m.runFrom w n t).1.error = none → (m.runFrom w n t).1.steps = t + m.executed w n) := by
  induction n generalizing t m with
  | zero => exact ⟨Nat.le_refl t, fun _ => rfl⟩
  | succ n ih =>
    have hexecutes := hm.executes (w := w)
    have hstopped := not_live_of_step (w := w) (m := m)
    unfold runFrom
    rcases hs : m.step w with ⟨⟨_ | _, _ | e⟩, m'⟩ <;> rw [hs] at hexecutes hstopped
    · have hexecuted : m.executed w (n + 1) = 1 + m'.executed w n := by
        rw [executed, hexecutes rfl, hs, Bool.toNat_true]
      rw [hexecuted, ← Nat.add_assoc]
      exact ih (t + 1) m' (live_of_step hs).2
    · exact ⟨Nat.le_add_right t _, nofun⟩
    · have hexecuted : m.executed w (n + 1) = 1 := by
        rw [executed, hexecutes rfl, hs, executed_of_not_live (hstopped (.inr rfl))]
        rfl
      rw [hexecuted]
      exact ⟨Nat.le_refl (t + 1), fun _ => rfl⟩
    · exact ⟨Nat.le_add_right t _, nofun⟩

/-- A run without a limit reports none. -/
theorem runFrom_error_ne (n t : Nat) (m : Machine) (hm : m.error = none) (k : Int) :
    (m.runFrom w.unlimited n t).1.error ≠ some (.running (.stepLimit k)) := by
  induction n generalizing t m with
  | zero => simp [runFrom]
  | succ n ih =>
    have hne := step_error_ne (w := w) hm k
    have hsound := sound_of_step (w := w.unlimited) hm
    unfold runFrom
    rcases hs : m.step w.unlimited with ⟨⟨_ | _, _ | e⟩, m'⟩ <;> rw [hs] at hne hsound
    · exact ih (t + 1) m' (hsound rfl)
    · exact hne
    · simp
    · exact hne

end Machine

end PrologMachine
