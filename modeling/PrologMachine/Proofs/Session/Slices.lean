/-
  PrologMachine.Proofs.Session.Slices ── **SLICES OF A SEARCH.**

  A search may be driven in slices of any sizes, some of them with a context that is canceled
  already.  What it finds does not depend on them.

    * `Machine.runFrom_add`, `Machine.runFrom_stable`: a run that is suspended goes on as if it had
      not been, and a larger budget changes nothing about a run that was not.
    * `Behind` relates the search that a run would start from to the one that some slices have
      reached; a suspended slice (`behind_of_suspended`) and a canceled one (`canceled_run`) keep
      it, so `Gives.advance` says what any slice does.
    * `Drives.finds`, `Drives.exhausts`: the slices find nothing else than the search.
    * `exists_drives_of_finds`, `exists_drives_of_exhausts`: they find all of it.
    * `slices_find_all` puts both together with asking for all solutions.
-/
import PrologMachine.Proofs.Machine.Bookkeeping
import PrologMachine.Session.Solutions

namespace PrologMachine

/-! ## §1. Budgets of machine runs. -/

namespace Machine

variable {w : World} {m m' : Machine} {o : Outcome}

/-- A run was suspended when its budget was used up and nothing had happened. -/
def Outcome.Suspended (o : Outcome) : Prop := o.status = .paused ∧ o.error = none

/-- The outcome of a run that started `k` steps earlier. -/
def Outcome.later (k : Nat) (o : Outcome) : Outcome := { o with steps := k + o.steps }

/-- A machine that says so has ended, or has failed. -/
theorem ended_of_step (h : m.step w = (⟨true, none⟩, m')) : m'.ended = true := by
  unfold step at h
  split at h
  · cases h
  split at h
  · cases h
  split at h
  · next hended =>
    cases h
    exact hended
  · simp only [Prod.mk.injEq, Report.mk.injEq] at h
    obtain ⟨⟨hended, -⟩, rfl⟩ := h
    exact hended

/-- A machine that goes on has neither ended nor failed. -/
theorem running_of_step (h : m.step w = (⟨false, none⟩, m')) :
    m'.ended = false ∧ m'.error = none := by
  unfold step at h
  split at h
  · cases h
  split at h
  · cases h
  split at h
  · cases h
  · simp only [Prod.mk.injEq, Report.mk.injEq] at h
    obtain ⟨⟨hended, herror⟩, rfl⟩ := h
    exact ⟨hended, herror⟩

/-- A search that has ended is not paused. -/
theorem status_ne_paused (h : m.ended = true) : m.status ≠ .paused := by
  unfold status
  cases m.exhausted <;> simp [h]

/-- The steps already taken are only counted on. -/
theorem runFrom_later (n k t : Nat) (m : Machine) :
    m.runFrom w n (k + t) = ((m.runFrom w n t).1.later k, (m.runFrom w n t).2) := by
  induction n generalizing t m with
  | zero => rfl
  | succ n ih =>
    unfold runFrom
    rcases h : m.step w with ⟨⟨_ | _, _ | e⟩, m'⟩
    · exact ih (t + 1) m'
    all_goals rfl

/-- **A suspended run goes on as if it had not been suspended.** -/
theorem runFrom_add {n t : Nat} (h : m.runFrom w n t = (o, m')) (hs : o.Suspended) :
    o.steps = t + n ∧ ∀ b, m.runFrom w (n + b) t = m'.runFrom w b (t + n) := by
  induction n generalizing t m with
  | zero =>
    cases h
    exact ⟨rfl, fun b => by rw [Nat.zero_add, Nat.add_zero]⟩
  | succ n ih =>
    unfold runFrom at h
    rcases hstep : m.step w with ⟨⟨_ | _, _ | e⟩, m₁⟩ <;> rw [hstep] at h <;> dsimp only at h
    -- The first step does not end the run, so that the rest goes on.
    case false.none =>
      obtain ⟨hsteps, hgo⟩ := ih h
      refine ⟨by omega, fun b => ?_⟩
      have hone : m.runFrom w (n + 1 + b) t = m₁.runFrom w (n + b) (t + 1) := by
        rw [show n + 1 + b = (n + b) + 1 by omega]
        conv_lhs => unfold runFrom
        rw [hstep]
      rw [hone, hgo b, show t + 1 + n = t + (n + 1) by omega]
    case true.none =>
      cases h
      exact absurd hs.1 (status_ne_paused (ended_of_step hstep))
    all_goals
      cases h
      exact absurd hs.2 (by simp)

/-- A suspended run leaves a machine that can go on. -/
theorem runFrom_running {n t : Nat} (h : m.runFrom w n t = (o, m')) (hs : o.Suspended)
    (hm : m.ended = false ∧ m.error = none) : m'.ended = false ∧ m'.error = none := by
  induction n generalizing t m with
  | zero =>
    cases h
    exact hm
  | succ n ih =>
    unfold runFrom at h
    rcases hstep : m.step w with ⟨⟨_ | _, _ | e⟩, m₁⟩ <;> rw [hstep] at h <;> dsimp only at h
    case false.none => exact ih h (running_of_step hstep)
    case true.none =>
      cases h
      exact absurd hs.1 (status_ne_paused (ended_of_step hstep))
    all_goals
      cases h
      exact absurd hs.2 (by simp)

/-- **A run that was not suspended is the same with any larger budget.** -/
theorem runFrom_stable {n t : Nat} (h : m.runFrom w n t = (o, m')) (hs : ¬ o.Suspended) {b : Nat}
    (hb : n ≤ b) : m.runFrom w b t = (o, m') := by
  induction n generalizing t m b with
  | zero =>
    cases h
    exact absurd ⟨rfl, rfl⟩ hs
  | succ n ih =>
    obtain ⟨b, rfl⟩ : ∃ b', b = b' + 1 := ⟨b - 1, by omega⟩
    unfold runFrom at h ⊢
    rcases hstep : m.step w with ⟨⟨_ | _, _ | e⟩, m₁⟩ <;> rw [hstep] at h <;> dsimp only at h ⊢
    case false.none => exact ih h (by omega)
    all_goals exact h

/-- A run keeps the question. -/
theorem asked_runFrom (n t : Nat) (m : Machine) : (m.runFrom w n t).2.asked = m.asked := by
  induction n generalizing t m with
  | zero => rfl
  | succ n ih =>
    unfold runFrom
    have hstep := asked_step (w := w) (m := m)
    rcases h : m.step w with ⟨⟨_ | _, _ | e⟩, m'⟩ <;> rw [h] at hstep
    · exact (ih (t + 1) m').trans hstep
    all_goals exact hstep

theorem asked_run (canceled : Bool) (n : Nat) (m : Machine) :
    (m.run w canceled n).2.asked = m.asked := by
  unfold run
  split
  · rfl
  split
  · rfl
  split
  · rfl
  · exact asked_runFrom n 0 m

/-- A run that was not suspended reports an error or leaves a machine that has ended. -/
theorem runFrom_closed {n t : Nat} (h : m.runFrom w n t = (o, m')) (hs : ¬ o.Suspended) :
    o.error.isSome = true ∨ m'.ended = true := by
  induction n generalizing t m with
  | zero =>
    cases h
    exact absurd ⟨rfl, rfl⟩ hs
  | succ n ih =>
    unfold runFrom at h
    rcases hstep : m.step w with ⟨⟨_ | _, _ | e⟩, m₁⟩ <;> rw [hstep] at h <;> dsimp only at h
    case false.none => exact ih h
    case true.none =>
      cases h
      exact .inr (ended_of_step hstep)
    all_goals
      cases h
      exact .inl rfl

/-- A run that is not suspended has ended, or stopped with an error. -/
theorem run_closed {n : Nat} (hasked : m.asked = true) (h : m.run w false n = (o, m'))
    (hs : ¬ o.Suspended) : o.error.isSome = true ∨ m'.ended = true := by
  unfold run at h
  rw [if_neg (by simp [hasked])] at h
  split at h
  · next hended =>
    cases h
    exact .inr hended
  · exact runFrom_closed h hs

end Machine

/-! ## §2. One run of a search. -/

/-- A snapshot of a search whose budget was used up and to which nothing had happened. -/
def Snapshot.Suspended (s : Snapshot) : Prop := s.status = .paused ∧ s.error = none

/-- The snapshot of a run that started `k` steps earlier. -/
def Snapshot.later (k : Nat) (s : Snapshot) : Snapshot := { s with steps := k + s.steps }

@[simp] theorem Snapshot.later_suspended (k : Nat) (s : Snapshot) :
    (s.later k).Suspended ↔ s.Suspended := Iff.rfl

@[simp] theorem Snapshot.later_zero (s : Snapshot) : s.later 0 = s := by
  simp [Snapshot.later]

/-- Steps that came before add up. -/
theorem Snapshot.later_later (j k : Nat) (s : Snapshot) :
    (s.later k).later j = s.later (j + k) := by
  simp [Snapshot.later, Nat.add_assoc]

namespace Solutions

variable {w : World} {q q' q₁ : Solutions} {s : Snapshot} {c : Bool} {n : Nat}

/-- The flags of a search agree with those of its machine: a question is set, and a machine that
    has failed has ended. -/
structure Coherent (q : Solutions) : Prop where
  /-- A question is set. -/
  asked : q.machine.asked = true
  /-- A failed machine has ended. -/
  stopped : q.done = false → q.machine.error.isSome = true → q.machine.ended = true

/-- The search goes on with its machine. -/
structure Poised (q : Solutions) : Prop extends Coherent q where
  /-- It is not over. -/
  open_ : q.done = false
  /-- It is not at an answer. -/
  between : q.answered = false

/-- The snapshot of a search whose machine has reported, and the search then. -/
def concluded (c : Bool) (q : Solutions) (r : Machine.Outcome × Machine) : Snapshot × Solutions :=
  let q := { q with machine := r.2 }
  match r.1.error with
  | some e =>
    if c && r.2.error.isNone then (⟨.paused, r.1.steps, none, some e⟩, q)
    else (⟨.exhausted, r.1.steps, none, some e⟩, q.finish (some e))
  | none =>
    match r.1.status with
    | .answer => (⟨.answer, r.1.steps, some r.2.solution, none⟩, { q with answered := true })
    | .exhausted => (⟨.exhausted, r.1.steps, none, none⟩, q.finish none)
    | .paused => (⟨.paused, r.1.steps, none, none⟩, q)

/-- What a search does before its machine runs: behind an answer it asks for the next one.  The
    result is the search to go on with, or how it ended. -/
def prepared (q : Solutions) : Solutions ⊕ (Snapshot × Solutions) :=
  if q.done then .inr (⟨.exhausted, 0, none, q.error⟩, q)
  else if q.answered then
    let q' := { q with machine := q.machine.redo.2, answered := false }
    if q.machine.redo.1 then .inl q'
    else .inr (⟨.exhausted, 0, none, q'.machine.error⟩, q'.finish q'.machine.error)
  else .inl q

/-- A run of the search is a run of the machine, unless the search needs none. -/
theorem run_eq (c : Bool) (n : Nat) (q : Solutions) : q.run w c n =
    match q.prepared with
    | .inl q' => q'.concluded c (q'.machine.run w c n)
    | .inr r => r := by
  unfold run prepared
  split
  · rfl
  split
  · rcases h : q.machine.redo with ⟨_ | _, m⟩
    · simp
    · simp
      rfl
  · rfl

/-- A machine that can be redone has not failed. -/
theorem error_of_redo {m : Machine} (h : m.redo.1 = true) : m.redo.2.error = none := by
  unfold Machine.redo at h ⊢
  split at h
  · cases h
  · next hguard =>
    rw [if_neg hguard]
    simp only [Bool.and_eq_true] at h
    exact Option.isNone_iff_eq_none.mp h.1

/-- A search that goes on is poised. -/
theorem Coherent.poised (hq : q.Coherent) (h : q.prepared = .inl q') : q'.Poised := by
  unfold prepared at h
  split at h
  · cases h
  next hdone =>
  split at h
  · split at h
    · next hmore =>
      cases h
      refine ⟨⟨?_, fun _ herror => ?_⟩, by simpa using hdone, rfl⟩
      · exact Machine.asked_redo.trans hq.asked
      · rw [error_of_redo hmore] at herror
        cases herror
    · cases h
  · next hanswered =>
    cases h
    exact ⟨hq, by simpa using hdone, by simpa using hanswered⟩

/-- A search that is poised needs no preparation. -/
theorem Poised.prepared (hq : q.Poised) : q.prepared = .inl q := by
  simp [Solutions.prepared, hq.open_, hq.between]

/-- A search that does not go on is over. -/
theorem over_of_prepared (h : q.prepared = .inr (s, q')) :
    s = ⟨.exhausted, 0, none, q'.error⟩ ∧ q'.done = true ∧
      q'.machine.asked = q.machine.asked := by
  unfold Solutions.prepared at h
  split at h
  · next hdone =>
    cases h
    exact ⟨rfl, hdone, rfl⟩
  split at h
  · split at h
    · cases h
    · cases h
      exact ⟨rfl, rfl, Machine.asked_redo⟩
  · cases h

/-- Its machine is the one that the run has left. -/
theorem machine_concluded (c : Bool) (q : Solutions) (r : Machine.Outcome × Machine) :
    (q.concluded c r).2.machine = r.2 := by
  unfold concluded
  split
  · split <;> rfl
  · split <;> rfl

/-- The machine is suspended exactly when the search is. -/
theorem suspended_concluded {r : Machine.Outcome × Machine} (h : q.concluded c r = (s, q')) :
    s.Suspended ↔ r.1.Suspended := by
  rcases r with ⟨⟨status, steps, error⟩, m⟩
  unfold concluded at h
  split at h
  · next heq =>
    simp only at heq
    subst heq
    split at h <;> cases h <;> simp [Snapshot.Suspended, Machine.Outcome.Suspended]
  · next heq =>
    simp only at heq
    subst heq
    split at h
    all_goals
      next hstatus =>
      simp only at hstatus
      subst hstatus
      cases h
      simp [Snapshot.Suspended, Machine.Outcome.Suspended]

/-- The search keeps the count that its machine reports. -/
theorem concluded_later (k : Nat) (r : Machine.Outcome × Machine) (q : Solutions) :
    q.concluded c (r.1.later k, r.2) =
      ((q.concluded c r).1.later k, (q.concluded c r).2) := by
  rcases r with ⟨⟨status, steps, error⟩, m⟩
  unfold concluded
  simp only [Machine.Outcome.later]
  cases error with
  | some e =>
    simp only
    split <;> rfl
  | none =>
    cases status <;> rfl

/-! ## §3. Suspended, canceled and finished runs. -/

/-- The search `q'` is where a run of `q` is after `k` steps: going on from there is as if the run
    of `q` had not stopped. -/
def Behind (w : World) (k : Nat) (q q' : Solutions) : Prop :=
  ∀ n, q.run w false (k + n) = ((q'.run w false n).1.later k, (q'.run w false n).2)

theorem Behind.refl (w : World) (q : Solutions) : Behind w 0 q q := by
  intro n
  simp

theorem Behind.trans {j k : Nat} (h : Behind w j q q₁) (h' : Behind w k q₁ q') :
    Behind w (j + k) q q' := by
  intro n
  rw [Nat.add_assoc, h (k + n), h' n, Snapshot.later_later]

/-- A search that is over stays so. -/
theorem run_of_over (h : q.done = true) (c : Bool) (n : Nat) :
    q.run w c n = (⟨.exhausted, 0, none, q.error⟩, q) := by
  simp [run, h]

/-- A search that is poised runs its machine. -/
theorem Poised.run_eq (hq : q.Poised) (c : Bool) (n : Nat) :
    q.run w c n = q.concluded c (
      if q.machine.ended then (⟨q.machine.status, 0, q.machine.error⟩, q.machine)
      else if c then (⟨.paused, 0, some .canceled⟩, q.machine)
      else q.machine.runFrom w n 0) := by
  simp [Solutions.run_eq, hq.prepared, Machine.run, hq.asked]

/-- A run begins with the search that its start prepares. -/
theorem run_of_prepared (hq : q.Coherent) (h : q.prepared = .inl q₁) (c : Bool) (n : Nat) :
    q.run w c n = q₁.run w c n := by
  rw [run_eq, run_eq, h, (hq.poised h).prepared]

/-- A poised search whose budget is used up has a machine that runs. -/
theorem Poised.running_of_suspended (hq : q.Poised) (h : q.run w c n = (s, q'))
    (hs : s.Suspended) : q.machine.ended = false ∧ q.machine.error = none ∧
      q.concluded c (q.machine.runFrom w n 0) = (s, q') ∧
      (q.machine.runFrom w n 0).1.Suspended := by
  rw [hq.run_eq] at h
  have hm := (suspended_concluded h).mp hs
  split at hm
  · next hended => exact absurd hm.1 (Machine.status_ne_paused hended)
  next hended =>
  split at hm
  · exact absurd hm.2 (by simp)
  · next hlive =>
    refine ⟨by simpa using hended, ?_, by simpa [hended, hlive] using h, hm⟩
    by_contra herror
    exact hended (hq.stopped hq.open_ (by simpa [Option.isSome_iff_ne_none] using herror))

/-- **A suspended run leaves a search that goes on as if it had not been suspended.** -/
theorem Poised.behind_of_suspended (hq : q.Poised) (h : q.run w c n = (s, q'))
    (hs : s.Suspended) : s = ⟨.paused, n, none, none⟩ ∧ q'.Poised ∧ Behind w n q q' := by
  obtain ⟨hended, herror, hconcluded, hm⟩ := hq.running_of_suspended h hs
  rcases hrun : q.machine.runFrom w n 0 with ⟨o, m⟩
  rw [hrun] at hconcluded hm
  -- The machine has used up its budget, so a longer run goes through this one and on.
  obtain ⟨hsteps, hgo⟩ := Machine.runFrom_add hrun hm
  obtain ⟨hended', herror'⟩ := Machine.runFrom_running hrun hm ⟨hended, herror⟩
  have hasked : m.asked = true := by
    have := Machine.asked_runFrom (w := w) n 0 q.machine
    rw [hrun] at this
    exact this.trans hq.asked
  have hshape : (⟨.paused, n, none, none⟩, { q with machine := m }) = (s, q') := by
    rcases o with ⟨status, steps, error⟩
    obtain ⟨rfl, rfl⟩ : status = .paused ∧ error = none := hm
    simp only [Nat.zero_add] at hsteps
    rw [← hconcluded, ← hsteps]
    rfl
  cases hshape
  have hpoised : Solutions.Poised { q with machine := m } :=
    ⟨⟨hasked, fun _ he => by rw [herror'] at he; cases he⟩, hq.open_, hq.between⟩
  refine ⟨rfl, hpoised, fun b => ?_⟩
  rw [hq.run_eq, hpoised.run_eq, if_neg (by simp [hended]), if_neg (by simp),
    if_neg (by simp [hended']), if_neg (by simp), hgo b, Nat.add_comm 0 n,
    ← Nat.add_zero n, Machine.runFrom_later, Nat.add_zero]
  exact concluded_later n _ { q with machine := m }

/-- A canceled run takes no step: it finds what every run finds, or leaves the search as it is. -/
theorem Poised.canceled_run (hq : q.Poised) (n : Nat) :
    (∀ b, q.run w false b = q.run w true n) ∨
      q.run w true n = (⟨.paused, 0, none, some .canceled⟩, q) := by
  by_cases hended : q.machine.ended = true
  · refine .inl fun b => ?_
    rw [hq.run_eq, hq.run_eq, if_pos hended, if_pos hended]
    -- an error the machine has is not one of the context
    cases herror : q.machine.error <;> simp [concluded, herror]
  · have herror : q.machine.error = none := by
      by_contra herror
      exact hended (hq.stopped hq.open_ (by simpa [Option.isSome_iff_ne_none] using herror))
    refine .inr ?_
    rw [hq.run_eq, if_neg hended, if_pos rfl]
    simp [concluded, herror]

/-- **A run that was not suspended is the same with any larger budget.** -/
theorem Coherent.run_stable (hq : q.Coherent) (h : q.run w false n = (s, q'))
    (hs : ¬ s.Suspended) {b : Nat} (hb : n ≤ b) : q.run w false b = (s, q') := by
  rcases hprepared : q.prepared with q₁ | r
  · have hq₁ := hq.poised hprepared
    rw [run_of_prepared hq hprepared, hq₁.run_eq] at h ⊢
    split at h
    · next hended =>
      rw [if_pos hended]
      exact h
    · next hended =>
      rw [if_neg hended, if_neg (by simp)]
      rw [if_neg (by simp)] at h
      have hm := fun hm => hs ((suspended_concluded h).mpr hm)
      rw [Machine.runFrom_stable rfl hm hb]
      exact h
  · rw [Solutions.run_eq, hprepared] at h ⊢
    exact h

/-- **A suspended run leaves a search that goes on as if it had not been suspended.** -/
theorem Coherent.behind_of_suspended (hq : q.Coherent) (h : q.run w false n = (s, q'))
    (hs : s.Suspended) :
    s = ⟨.paused, n, none, none⟩ ∧ q'.Poised ∧ Behind w n q q' := by
  rcases hprepared : q.prepared with q₁ | ⟨s₁, q₁⟩
  · rw [run_of_prepared hq hprepared] at h
    obtain ⟨rfl, hq', hbehind⟩ := (hq.poised hprepared).behind_of_suspended h hs
    refine ⟨rfl, hq', fun b => ?_⟩
    rw [run_of_prepared hq hprepared]
    exact hbehind b
  · rw [Solutions.run_eq, hprepared] at h
    cases h
    obtain ⟨rfl, -, -⟩ := over_of_prepared hprepared
    cases hs.1

/-- **A canceled run finds what every run finds, or loses nothing.** -/
theorem Coherent.canceled_run (hq : q.Coherent) (n : Nat) :
    (∀ b, q.run w false b = q.run w true n) ∨ ∃ q₁,
      q.run w true n = (⟨.paused, 0, none, some .canceled⟩, q₁) ∧ q₁.Coherent ∧
        Behind w 0 q q₁ := by
  rcases hprepared : q.prepared with q₁ | r
  · have hq₁ := hq.poised hprepared
    simp only [run_of_prepared hq hprepared]
    refine (hq₁.canceled_run n).imp id fun h => ⟨q₁, h, hq₁.toCoherent, fun b => ?_⟩
    rw [run_of_prepared hq hprepared, Nat.zero_add, Snapshot.later_zero]
  · refine .inl fun b => ?_
    rw [Solutions.run_eq, Solutions.run_eq, hprepared]

/-- What a search leaves that was not suspended and whose context was not canceled: an answer, or
    the end. -/
inductive Closed : Snapshot → Solutions → Prop where
  /-- An answer was found. -/
  | answer {k : Nat} {a : Solution} {q : Solutions} (hopen : q.done = false) :
      Closed ⟨.answer, k, some a, none⟩ q
  /-- The search is over, or has failed. -/
  | finished {k : Nat} {q : Solutions} (hdone : q.done = true) :
      Closed ⟨.exhausted, k, none, q.error⟩ q

/-- A run that is not suspended closes the search or finds an answer. -/
theorem closed_concluded {r : Machine.Outcome × Machine} (hopen : q.done = false)
    (h : q.concluded false r = (s, q')) (hs : ¬ s.Suspended) : Closed s q' := by
  rcases r with ⟨⟨status, steps, error⟩, m⟩
  cases error with
  | some e =>
    cases h
    exact .finished (q := { q with machine := m, done := true, error := some e }) rfl
  | none =>
    cases status with
    | paused =>
      cases h
      exact absurd ⟨rfl, rfl⟩ hs
    | answer =>
      cases h
      exact .answer hopen
    | exhausted =>
      cases h
      exact .finished (q := { q with machine := m, done := true, error := none }) rfl

/-- **A live run without a limit ends at an answer or ends the search.** -/
theorem Coherent.closed (hq : q.Coherent) (h : q.run w false n = (s, q')) (hs : ¬ s.Suspended) :
    Closed s q' ∧ q'.Coherent := by
  rcases hprepared : q.prepared with q₁ | ⟨s₁, q₁⟩ <;> rw [Solutions.run_eq, hprepared] at h
  -- The machine that the search is left with is the one that ran.
  · have hq₁ := hq.poised hprepared
    have hmachine : (q₁.machine.run w false n).2 = q'.machine := by
      rw [← machine_concluded false q₁]
      exact congrArg (·.2.machine) h
    refine ⟨closed_concluded hq₁.open_ h hs, ?_, fun hopen _ => ?_⟩
    · rw [← hmachine, Machine.asked_run]
      exact hq₁.asked
    · rcases hrun : q₁.machine.run w false n with ⟨⟨status, steps, error⟩, m⟩
      simp only [hrun] at h hmachine
      rw [suspended_concluded h] at hs
      rcases Machine.run_closed hq₁.asked hrun hs with herror | hended
      · -- a run that fails ends the search
        obtain ⟨e, rfl⟩ := Option.isSome_iff_exists.mp herror
        cases h
        cases hopen
      · rw [← hmachine]
        exact hended
  · cases h
    -- A search that is over reports its end.
    obtain ⟨rfl, hdone, hasked⟩ := over_of_prepared hprepared
    exact ⟨.finished hdone, hasked.trans hq.asked, fun hopen => by rw [hdone] at hopen; cases hopen⟩

/-! ## §4. Slices. -/

end Solutions

/-- One call of a run: with a context that is canceled already, or with a live one, and with a
    limit of steps or, written as zero, without one. -/
structure Slice where
  /-- The context is canceled. -/
  canceled : Bool
  /-- The limit; zero for none. -/
  budget : Nat

/-- A live run without a limit. -/
def Slice.whole : Slice := ⟨false, 0⟩

namespace Solutions

variable {w : World} {q q' q₁ q₂ : Solutions} {s : Snapshot} {x : Slice} {k n : Nat}

/-- **What a slice gives.**  One without a limit is a run with a budget that is not used up; where
    the search does not end, it gives nothing. -/
def Gives (w : World) (x : Slice) (q : Solutions) (s : Snapshot) (q' : Solutions) : Prop :=
  if x.budget = 0 then ∃ n, q.run w x.canceled n = (s, q') ∧ ¬ s.Suspended
  else q.run w x.canceled x.budget = (s, q')

/-- What is given is given by a run of some length. -/
theorem Gives.exists_run (h : Gives w x q s q') : ∃ n, q.run w x.canceled n = (s, q') := by
  unfold Gives at h
  split at h
  · exact h.imp fun _ h => h.1
  · exact ⟨_, h⟩

/-- How a slice takes a search on. -/
inductive Advance (w : World) : Solutions → Snapshot → Solutions → Prop where
  /-- Its steps were used up. -/
  | paused {q q' : Solutions} {k : Nat} (h : Behind w k q q') :
      Advance w q ⟨.paused, k, none, none⟩ q'
  /-- Its context was canceled. -/
  | canceled {q q' : Solutions} (h : Behind w 0 q q') :
      Advance w q ⟨.paused, 0, none, some .canceled⟩ q'
  /-- It ended as every larger slice does. -/
  | closed {q q' : Solutions} {s : Snapshot} (n : Nat) (h : ∀ b, n ≤ b → q.run w false b = (s, q'))
      (hs : Closed s q') : Advance w q s q'

/-- **What a slice does**, whatever its limit and its context. -/
theorem Gives.advance (hq : q.Coherent) (h : Gives w x q s q') :
    Advance w q s q' ∧ q'.Coherent := by
  obtain ⟨n, hrun⟩ := h.exists_run
  have hlive : ∀ b, q.run w false b = (s, q') → Advance w q s q' ∧ q'.Coherent := by
    intro b hrun
    by_cases hs : s.Suspended
    · obtain ⟨rfl, hq', hbehind⟩ := hq.behind_of_suspended hrun hs
      exact ⟨.paused hbehind, hq'.toCoherent⟩
    · obtain ⟨hclosed, hq'⟩ := hq.closed hrun hs
      exact ⟨.closed b (fun c hc => hq.run_stable hrun hs hc) hclosed, hq'⟩
  cases hcanceled : x.canceled <;> rw [hcanceled] at hrun
  case false => exact hlive n hrun
  case true =>
    rcases hq.canceled_run (w := w) n with hall | ⟨q₁, hrun', hq', hbehind⟩
    · exact hlive 0 ((hall 0).trans hrun)
    · cases hrun.symm.trans hrun'
      exact ⟨.canceled hbehind, hq'⟩

/-! ## §5. What a search finds. -/

/-- **The first answers of a search** asked with live runs without a limit, each with the steps
    that its run took. -/
inductive Finds (w : World) : Solutions → List (Solution × Nat) → Solutions → Prop where
  /-- Nothing was asked. -/
  | nil (q : Solutions) : Finds w q [] q
  /-- The first run finds an answer. -/
  | cons {q q₁ q₂ : Solutions} {a : Solution} {k : Nat} {as : List (Solution × Nat)}
      (h : Gives w .whole q ⟨.answer, k, some a, none⟩ q₁) (hrest : Finds w q₁ as q₂) :
      Finds w q ((a, k) :: as) q₂

/-- **All answers of a search**, and the error that ended it. -/
def Exhausts (w : World) (q : Solutions) (as : List (Solution × Nat)) (e : Option Error) : Prop :=
  ∃ q₁ k q₂, Finds w q as q₁ ∧ Gives w .whole q₁ ⟨.exhausted, k, none, e⟩ q₂

/-- What a search gives that is driven in slices. -/
inductive Drives (w : World) : Solutions → List Slice → List Snapshot → Solutions → Prop where
  /-- No slice. -/
  | nil (q : Solutions) : Drives w q [] [] q
  /-- One slice more. -/
  | cons {q q₁ q₂ : Solutions} {x : Slice} {xs : List Slice} {s : Snapshot} {ss : List Snapshot}
      (h : Gives w x q s q₁) (hrest : Drives w q₁ xs ss q₂) : Drives w q (x :: xs) (s :: ss) q₂

/-- Drive a search in slices that have a limit. -/
def drive (w : World) : List Slice → Solutions → List Snapshot × Solutions
  | [], q => ([], q)
  | x :: xs, q =>
    let (s, q) := q.run w x.canceled x.budget
    let (ss, q) := drive w xs q
    (s :: ss, q)

/-- Slices that have a limit always give something. -/
theorem drives_drive (w : World) : ∀ (slices : List Slice), (∀ x ∈ slices, x.budget ≠ 0) →
    ∀ q, Drives w q slices (drive w slices q).1 (drive w slices q).2
  | [], _, _ => .nil _
  | x :: xs, h, _ =>
    .cons ((if_neg (h x List.mem_cons_self)).mpr rfl)
      (drives_drive w xs (fun y hy => h y (List.mem_cons_of_mem x hy)) _)

/-- **The answers among snapshots**, each with the steps that the runs without an error took since
    the answer before; `k` of them were taken before the first snapshot. -/
def tally : (k : Nat) → List Snapshot → List (Solution × Nat)
  | _, [] => []
  | k, ⟨.answer, n, some a, none⟩ :: ss => (a, k + n) :: tally 0 ss
  | k, ⟨_, n, _, none⟩ :: ss => tally (k + n) ss
  | k, ⟨_, _, _, some _⟩ :: ss => tally k ss

@[simp] theorem tally_answer (k n : Nat) (a : Solution) (ss : List Snapshot) :
    tally k (⟨.answer, n, some a, none⟩ :: ss) = (a, k + n) :: tally 0 ss := rfl

@[simp] theorem tally_paused (k n : Nat) (ss : List Snapshot) :
    tally k (⟨.paused, n, none, none⟩ :: ss) = tally (k + n) ss := rfl

@[simp] theorem tally_error (k n : Nat) (st : Status) (a : Option Solution) (e : Error)
    (ss : List Snapshot) : tally k (⟨st, n, a, some e⟩ :: ss) = tally k ss := by
  cases st <;> cases a <;> rfl

/-- No answer is found at the end of a search or later. -/
theorem tally_over : ∀ (ss : List Snapshot) (k : Nat),
    (∀ s ∈ ss, s.status = .exhausted) → tally k ss = []
  | [], _, _ => rfl
  | ⟨st, n, a, e⟩ :: ss, k, h => by
    obtain rfl : st = .exhausted := h _ List.mem_cons_self
    have hrest := fun k => tally_over ss k (fun s hs => h s (List.mem_cons_of_mem _ hs))
    cases e with
    | some e => rw [tally_error, hrest]
    | none =>
      show tally (k + n) ss = []
      exact hrest _

/-- **Once a search is over, every slice says so again.** -/
theorem Drives.over {xs : List Slice} {ss : List Snapshot} (hdone : q.done = true)
    (h : Drives w q xs ss q') : ∀ s ∈ ss, s = ⟨.exhausted, 0, none, q.error⟩ := by
  induction h with
  | nil => simp
  | cons hgives _ ih =>
    obtain ⟨n, hrun⟩ := hgives.exists_run
    rw [run_of_over hdone] at hrun
    cases hrun
    simpa using ih hdone

/-- Behind the end of a search nothing is found. -/
theorem tally_finished {ss : List Snapshot} {e : Option Error}
    (h : ∀ s ∈ ss, s = ⟨.exhausted, 0, none, e⟩) (k n : Nat) :
    tally k (⟨.exhausted, n, none, e⟩ :: ss) = [] := by
  refine tally_over _ k fun s hs => ?_
  obtain rfl | hs := List.mem_cons.mp hs
  · rfl
  · rw [h s hs]

/-- What is closed is not suspended. -/
theorem Closed.not_suspended (h : Closed s q) : ¬ s.Suspended := by
  cases h <;> simp [Snapshot.Suspended]

/-- What a search finds `k` steps behind, it finds. -/
theorem Behind.gives_whole (h : Behind w k q q₁) (hrun : ∀ b, n ≤ b → q₁.run w false b = (s, q'))
    (hs : Closed s q') : Gives w .whole q (s.later k) q' := by
  have hlater : q.run w false (k + n) = (s.later k, q') := by rw [h n, hrun n le_rfl]
  exact (if_pos rfl).mpr ⟨k + n, hlater, hs.not_suspended⟩

/-! ## §6. Slices find nothing else. -/

/-- **The answers of the slices are the first answers of the search**, in their order, and between
    two of them the slices take the steps of one run.  The induction is on the slices; `q₁` is the
    search at the last answer and the slices since have taken `k` steps. -/
theorem Drives.finds {xs : List Slice} {ss : List Snapshot} (h : Drives w q xs ss q')
    (hq : q.Coherent) (hbehind : Behind w k q₁ q) : ∃ q₂, Finds w q₁ (tally k ss) q₂ := by
  induction h generalizing k q₁ with
  | nil => exact ⟨q₁, .nil q₁⟩
  | cons hgives hrest ih =>
    obtain ⟨hadvance, hq'⟩ := hgives.advance hq
    -- By what the slice did: it paused, it was cancelled, or it closed the search for an answer.
    cases hadvance with
    | paused h => exact ih hq' (hbehind.trans h)
    | canceled h =>
      rw [tally_error]
      exact ih hq' (hbehind.trans h)
    | closed n hrun hs =>
      have hfound := hbehind.gives_whole hrun hs
      cases hs with
      | answer =>
        rw [tally_answer]
        obtain ⟨q₂, hfinds⟩ := ih hq' (Behind.refl w _)
        exact ⟨q₂, .cons hfound hfinds⟩
      | finished hdone =>
        rw [tally_finished (hrest.over hdone)]
        exact ⟨q₁, .nil q₁⟩

/-- **When a slice ends the search, the slices have found all its answers**, the error is that of
    the search, and all later slices repeat it. -/
theorem Drives.exhausts {xs : List Slice} {ss before after : List Snapshot}
    (h : Drives w q xs ss q') (hq : q.Coherent) (hbehind : Behind w k q₁ q)
    (hss : ss = before ++ s :: after) (hstatus : s.status = .exhausted) :
    Exhausts w q₁ (tally k ss) s.error ∧ ∀ t ∈ after, t = ⟨.exhausted, 0, none, s.error⟩ := by
  induction h generalizing k q₁ before with
  | nil => simp at hss
  | cons hgives hrest ih =>
    obtain ⟨hadvance, hq'⟩ := hgives.advance hq
    rw [List.cons_eq_append_iff] at hss
    cases hadvance with
    | paused h =>
      -- a slice that did not end the search is not the one meant
      obtain ⟨-, hhead⟩ | ⟨before, -, hss⟩ := hss
      · cases hhead
        cases hstatus
      · exact ih hq' (hbehind.trans h) hss
    | canceled h =>
      obtain ⟨-, hhead⟩ | ⟨before, -, hss⟩ := hss
      · cases hhead
        cases hstatus
      · rw [tally_error]
        exact ih hq' (hbehind.trans h) hss
    | closed n hrun hs =>
      have hfound := hbehind.gives_whole hrun hs
      cases hs with
      | answer =>
        obtain ⟨-, hhead⟩ | ⟨before, -, hss⟩ := hss
        · cases hhead
          cases hstatus
        · rw [tally_answer]
          obtain ⟨⟨q₂, j, q₃, hfinds, hlast⟩, hlater⟩ := ih hq' (Behind.refl w _) hss
          exact ⟨⟨q₂, j, q₃, .cons hfound hfinds, hlast⟩, hlater⟩
      | finished hdone =>
        have hlater := hrest.over hdone
        rw [tally_finished hlater]
        -- the slice meant is this one, or a later one that repeats it
        obtain ⟨-, hhead⟩ | ⟨before, -, hss⟩ := hss
        · cases hhead
          exact ⟨⟨q₁, _, _, .nil q₁, hfound⟩, hlater⟩
        · have hs := hlater s (by simp [hss])
          subst hs
          exact ⟨⟨q₁, _, _, .nil q₁, hfound⟩, fun t ht => hlater t (by simp [hss, ht])⟩

/-! ## §7. Slices find everything. -/

/-- The first `n` slices of an endless sequence. -/
def firstSlices (schedule : Nat → Slice) (n : Nat) : List Slice := (List.range n).map schedule

/-- The first slices of a schedule, in two parts. -/
theorem firstSlices_add (schedule : Nat → Slice) (j n : Nat) :
    firstSlices schedule (j + n) =
      firstSlices schedule j ++ firstSlices (fun i => schedule (j + i)) n := by
  simp [firstSlices, List.range_add, Function.comp_def]

theorem Drives.append {xs ys : List Slice} {ss ts : List Snapshot} (h : Drives w q xs ss q₁)
    (h' : Drives w q₁ ys ts q') : Drives w q (xs ++ ys) (ss ++ ts) q' := by
  induction h with
  | nil => exact h'
  | cons hgives _ ih => exact .cons hgives (ih h')

/-- Slices go on as long as one of them is live every now and then. -/
def Fair (schedule : Nat → Slice) : Prop := ∀ n, ∃ i, (schedule (n + i)).canceled = false

/-- A fair schedule stays fair from any point on. -/
theorem Fair.shift {schedule : Nat → Slice} (h : Fair schedule) (j : Nat) :
    Fair (fun i => schedule (j + i)) := by
  intro n
  simpa [Nat.add_assoc] using h (j + n)

/-- The snapshots only count on: `k` steps, and no answer. -/
def Idle (k : Nat) (ss : List Snapshot) : Prop :=
  ∀ j rest, tally j (ss ++ rest) = tally (j + k) rest

/-- Runs that are not suspended find the same. -/
theorem Coherent.run_unique {b : Nat} {s' : Snapshot} (hq : q.Coherent)
    (h : q.run w false n = (s, q')) (hs : ¬ s.Suspended) (h' : q.run w false b = (s', q₁))
    (hs' : ¬ s'.Suspended) : s' = s ∧ q₁ = q' := by
  have hfar := hq.run_stable h hs (Nat.le_max_left n b)
  have hfar' := hq.run_stable h' hs' (Nat.le_max_right n b)
  cases hfar.symm.trans hfar'
  exact ⟨rfl, rfl⟩

/-- A run that is not suspended, seen from `k` steps behind. -/
theorem Behind.run_rest (h : Behind w k q q₁) (hq : q.Coherent) (hrun : q.run w false n = (s, q'))
    (hs : ¬ s.Suspended) : ∃ s', q₁.run w false n = (s', q') ∧ s = s'.later k := by
  have hfar := hq.run_stable hrun hs (Nat.le_add_left n k)
  rw [h n, Prod.mk.injEq] at hfar
  exact ⟨_, Prod.ext rfl hfar.2, hfar.1.symm⟩

/-- A search is closed whatever steps came before. -/
theorem Closed.of_later (h : Closed (s.later k) q) : Closed s q := by
  rcases s with ⟨st, n, a, e⟩
  cases h with
  | answer hopen => exact .answer hopen
  | finished hdone => exact .finished hdone

/-- A live slice finds what a run finds, or takes some of the steps to it. -/
theorem Coherent.gives_live (hq : q.Coherent) (hrun : q.run w false n = (s, q'))
    (hs : ¬ s.Suspended) (hx : x.canceled = false) : Gives w x q s q' ∨
      ∃ k q₁ s', Gives w x q ⟨.paused, k, none, none⟩ q₁ ∧ 0 < k ∧ q₁.Coherent ∧
        q₁.run w false n = (s', q') ∧ s = s'.later k := by
  unfold Gives
  rw [hx]
  split
  · exact .inl ⟨n, hrun, hs⟩
  next hbudget =>
  rcases hslice : q.run w false x.budget with ⟨s₁, q₁⟩
  by_cases hs₁ : s₁.Suspended
  · obtain ⟨rfl, hq₁, hbehind⟩ := hq.behind_of_suspended hslice hs₁
    obtain ⟨s', hrest, hlater⟩ := hbehind.run_rest hq hrun hs
    exact .inr ⟨x.budget, q₁, s', rfl, Nat.pos_of_ne_zero hbudget, hq₁.toCoherent, hrest, hlater⟩
  · obtain ⟨rfl, rfl⟩ := hq.run_unique hrun hs hslice hs₁
    exact .inl rfl

/-- A canceled slice finds what a run finds, or leaves it to be found. -/
theorem Coherent.gives_canceled (hq : q.Coherent) (hrun : q.run w false n = (s, q'))
    (hs : ¬ s.Suspended) (hx : x.canceled = true) : Gives w x q s q' ∨
      ∃ q₁, Gives w x q ⟨.paused, 0, none, some .canceled⟩ q₁ ∧ q₁.Coherent ∧
        q₁.run w false n = (s, q') := by
  have hgives : ∀ {s₁ q₁}, q.run w true x.budget = (s₁, q₁) → ¬ s₁.Suspended →
      Gives w x q s₁ q₁ := by
    intro s₁ q₁ hrun hs₁
    unfold Gives
    rw [hx]
    split
    · exact ⟨_, hrun, hs₁⟩
    · exact hrun
  rcases hq.canceled_run (w := w) x.budget with hall | ⟨q₁, hrun', hq₁, hbehind⟩
  · exact .inl (hgives ((hall n).symm.trans hrun) hs)
  · obtain ⟨s', hrest, rfl⟩ := hbehind.run_rest hq hrun hs
    rw [Snapshot.later_zero]
    exact .inr ⟨q₁, hgives hrun' (by simp [Snapshot.Suspended]), hq₁, hrest⟩

/-- What is reached behind a first slice without an answer is reached with it. -/
theorem exists_drives_cons {schedule : Nat → Slice} {s₁ s' : Snapshot}
    (hgives : Gives w (schedule 0) q s₁ q₁) (hidle : Idle k [s₁]) (hlater : s = s'.later k)
    (hrest : ∃ j ss k t, Drives w q₁ (firstSlices (fun i => schedule (1 + i)) j) (ss ++ [t]) q' ∧
      Idle k ss ∧ s' = t.later k) :
    ∃ j ss k t, Drives w q (firstSlices schedule j) (ss ++ [t]) q' ∧ Idle k ss ∧
      s = t.later k := by
  obtain ⟨j, ss, k', t, hdrives, hidle', rfl⟩ := hrest
  refine ⟨1 + j, s₁ :: ss, k + k', t, ?_, fun i rest => ?_, ?_⟩
  · rw [firstSlices_add]
    exact .cons hgives hdrives
  · have hone := hidle i (ss ++ rest)
    rw [List.singleton_append] at hone
    rw [List.cons_append, hone, hidle', Nat.add_assoc]
  · rw [hlater, Snapshot.later_later]

/-- **What a run finds, the slices reach.**  A live slice leaves fewer of the steps to it, a
    canceled one brings the next live slice, number `d` of those to come, nearer. -/
theorem exists_drives_of_run {w : World} {q q' : Solutions} {s : Snapshot} {n : Nat}
    {schedule : Nat → Slice} (hfair : Fair schedule) (d : Nat)
    (hd : (schedule d).canceled = false) (hq : q.Coherent) (hrun : q.run w false n = (s, q'))
    (hs : Closed s q') : ∃ j ss k t,
      Drives w q (firstSlices schedule j) (ss ++ [t]) q' ∧ Idle k ss ∧ s = t.later k := by
  have hfirst : Gives w (schedule 0) q s q' → ∃ j ss k t,
      Drives w q (firstSlices schedule j) (ss ++ [t]) q' ∧ Idle k ss ∧ s = t.later k :=
    fun hgives => ⟨1, [], 0, s, .cons hgives (.nil q'), fun _ _ => rfl, s.later_zero.symm⟩
  -- A live slice makes progress or finishes; a canceled one makes none, but the next live slice is
  -- nearer.
  cases hx : (schedule 0).canceled with
  | false =>
    rcases hq.gives_live hrun hs.not_suspended hx with
      hgives | ⟨k, q₁, s', hgives, hk, hq₁, hrest, hlater⟩
    · exact hfirst hgives
    · have hfewer : s'.steps < s.steps := by
        rw [hlater]
        exact Nat.lt_add_of_pos_left hk
      rw [hlater] at hs
      obtain ⟨d', hd'⟩ := hfair 1
      exact exists_drives_cons hgives (fun _ _ => tally_paused _ _ _) hlater
        (exists_drives_of_run (hfair.shift 1) d' hd' hq₁ hrest hs.of_later)
  | true =>
    have hpos : 0 < d := by
      refine Nat.pos_of_ne_zero fun hzero => ?_
      rw [← hzero, hd] at hx
      cases hx
    rcases hq.gives_canceled hrun hs.not_suspended hx with hgives | ⟨q₁, hgives, hq₁, hrest⟩
    · exact hfirst hgives
    · rw [← Nat.add_sub_of_le hpos] at hd
      exact exists_drives_cons hgives (fun _ _ => tally_error _ _ _ _ _ _) s.later_zero.symm
        (exists_drives_of_run (hfair.shift 1) (d - 1) hd hq₁ hrest hs)
termination_by (s.steps, d)

/-- What an unlimited run finds, the slices reach. -/
theorem exists_drives_of_whole {schedule : Nat → Slice} (hfair : Fair schedule) (hq : q.Coherent)
    (h : Gives w .whole q s q') : q'.Coherent ∧ ∃ j ss k t,
      Drives w q (firstSlices schedule j) (ss ++ [t]) q' ∧ Idle k ss ∧ s = t.later k := by
  obtain ⟨n, hrun, hs⟩ := (if_pos rfl).mp h
  obtain ⟨hclosed, hq'⟩ := hq.closed hrun hs
  obtain ⟨d, hd⟩ := hfair 0
  rw [Nat.zero_add] at hd
  exact ⟨hq', exists_drives_of_run hfair d hd hq hrun hclosed⟩

/-- **The slices reach every answer of the search.** -/
theorem exists_drives_of_finds {as : List (Solution × Nat)} (h : Finds w q as q')
    {schedule : Nat → Slice} (hfair : Fair schedule) (hq : q.Coherent) : q'.Coherent ∧
      ∃ j ss, Drives w q (firstSlices schedule j) ss q' ∧
        ∀ rest, tally 0 (ss ++ rest) = as ++ tally 0 rest := by
  induction h generalizing schedule with
  | nil => exact ⟨hq, 0, [], .nil _, fun _ => rfl⟩
  | @cons q q₁ q₂ a k as hgives _ ih =>
    obtain ⟨hq₁, j, ss, k', t, hdrives, hidle, hlater⟩ := exists_drives_of_whole hfair hq hgives
    obtain ⟨hq', j', ss', hdrives', htally⟩ := ih (hfair.shift j) hq₁
    refine ⟨hq', j + j', (ss ++ [t]) ++ ss', ?_, fun rest => ?_⟩
    · rw [firstSlices_add]
      exact hdrives.append hdrives'
    · rcases t with ⟨st, n, a', e⟩
      cases hlater
      rw [List.append_assoc, List.append_assoc, hidle, List.singleton_append, tally_answer,
        htally, List.cons_append, Nat.zero_add]

/-- **The slices reach the end of the search.** -/
theorem exists_drives_of_exhausts {as : List (Solution × Nat)} {e : Option Error}
    (h : Exhausts w q as e) {schedule : Nat → Slice} (hfair : Fair schedule) (hq : q.Coherent) :
    ∃ j ss t q', Drives w q (firstSlices schedule j) (ss ++ [t]) q' ∧ tally 0 (ss ++ [t]) = as ∧
      t.status = .exhausted ∧ t.error = e := by
  obtain ⟨q₁, k, q₂, hfinds, hlast⟩ := h
  obtain ⟨hq₁, j, ss, hdrives, htally⟩ := exists_drives_of_finds hfinds hfair hq
  obtain ⟨-, j', ss', k', ⟨st, n, a, e'⟩, hdrives', hidle, hlater⟩ :=
    exists_drives_of_whole (hfair.shift j) hq₁ hlast
  cases hlater
  refine ⟨j + j', ss ++ ss', _, q₂, ?_, ?_, rfl, rfl⟩
  · rw [firstSlices_add, List.append_assoc]
    exact hdrives.append hdrives'
  · rw [List.append_assoc, htally, hidle, tally_over _ _ (by simp), List.append_nil]

/-! ## §8. All answers at once. -/

/-- Asking for one answer after the other finds those of the search, with any patience that is
    large enough. -/
theorem Finds.upTo {as : List (Solution × Nat)} (h : Finds w q as q') (hq : q.Coherent) :
    q'.Coherent ∧ ∃ enough, ∀ patience, enough ≤ patience → ∀ n,
      q.upTo w false patience (as.length + n) =
        (as.map Prod.fst ++ (q'.upTo w false patience n).1, (q'.upTo w false patience n).2) := by
  induction h with
  | nil => exact ⟨hq, 0, fun patience _ n => by simp⟩
  | @cons q q₁ q₂ a k as hgives _ ih =>
    obtain ⟨b, hrun, hs⟩ := (if_pos rfl).mp hgives
    obtain ⟨-, hq₁⟩ := hq.closed hrun hs
    obtain ⟨hq', enough, hrest⟩ := ih hq₁
    refine ⟨hq', max b enough, fun patience hpatience n => ?_⟩
    have hone := hq.run_stable hrun hs ((le_max_left _ _).trans hpatience)
    have hrest := hrest patience ((le_max_right _ _).trans hpatience) n
    rw [List.length_cons, Nat.add_right_comm, Solutions.upTo]
    simp [next, hone, hrest]

/-- **The first answers of a search are those that asking one by one finds.** -/
theorem exists_finds_iff_upTo (hq : q.Coherent) (as : List Solution) :
    (∃ bs q₁, bs.map Prod.fst = as ∧ Finds w q bs q₁) ↔
      ∃ patience, (q.upTo w false patience as.length).1 = as := by
  constructor
  -- Answers that slices find are found with enough patience.
  · rintro ⟨bs, q₁, rfl, hfinds⟩
    obtain ⟨-, enough, hall⟩ := hfinds.upTo hq
    refine ⟨enough, ?_⟩
    have hnone := hall enough le_rfl 0
    rw [Nat.add_zero] at hnone
    rw [List.length_map, hnone]
    simp [upTo]
  -- Conversely every answer of `upTo` is one run that is not suspended.
  · rintro ⟨patience, h⟩
    induction as generalizing q with
    | nil => exact ⟨[], q, rfl, .nil q⟩
    | cons a as ih =>
      rcases hrun : q.run w false patience with ⟨s, q₁⟩
      rw [List.length_cons, upTo, next, hrun] at h
      have hs : ¬ s.Suspended := by
        intro hs
        obtain ⟨rfl, -, -⟩ := hq.behind_of_suspended hrun hs
        cases h
      obtain ⟨hclosed, hq₁⟩ := hq.closed hrun hs
      cases hclosed with
      | answer =>
        simp only [List.cons.injEq] at h
        obtain ⟨rfl, hrest⟩ := h
        obtain ⟨bs, q₂, hbs, hfinds⟩ := ih hq₁ hrest
        refine ⟨_ :: bs, q₂, ?_, .cons ((if_pos rfl).mpr ⟨patience, hrun, hs⟩) hfinds⟩
        rw [List.map_cons, hbs]
      | finished =>
        cases herror : q₁.error <;> simp [herror] at h

/-- **All answers of a search and its error are those that asking to the end finds.** -/
theorem exists_exhausts_iff_upTo (hq : q.Coherent) (hopen : q.done = false) (as : List Solution)
    (e : Option Error) : (∃ bs, bs.map Prod.fst = as ∧ Exhausts w q bs e) ↔
      ∃ patience n q', q.upTo w false patience n = (as, e, q') ∧ q'.done = true := by
  constructor
  -- The search is over one call after its last answer.
  · rintro ⟨bs, rfl, q₁, k, q₂, hfinds, hlast⟩
    obtain ⟨hq₁, enough, hall⟩ := hfinds.upTo hq
    obtain ⟨b, hrun, hs⟩ := (if_pos rfl).mp hlast
    obtain ⟨hclosed, -⟩ := hq₁.closed hrun hs
    have hend := hq₁.run_stable hrun hs (le_max_left b enough)
    refine ⟨max b enough, bs.length + 1, q₂, ?_, ?_⟩
    · rw [hall _ (le_max_right _ _) 1]
      cases e <;> simp [upTo, next, hend]
    · cases hclosed with
      | finished hdone => exact hdone
  -- Every call before the last one has found an answer; the last one has found the end.
  · rintro ⟨patience, n, q', h, hdone⟩
    induction n generalizing q as with
    | zero =>
      cases h
      rw [hopen] at hdone
      cases hdone
    | succ n ih =>
      rcases hrun : q.run w false patience with ⟨s, q₁⟩
      rw [upTo, next, hrun] at h
      have hs : ¬ s.Suspended := by
        intro hs
        obtain ⟨rfl, hq₁, -⟩ := hq.behind_of_suspended hrun hs
        cases h
        rw [hq₁.open_] at hdone
        cases hdone
      have hgives : Gives w .whole q s q₁ := (if_pos rfl).mpr ⟨patience, hrun, hs⟩
      obtain ⟨hclosed, hq₁⟩ := hq.closed hrun hs
      cases hclosed with
      | answer hopen₁ =>
        simp only at h
        cases h
        obtain ⟨bs, hbs, q₂, k, q₃, hfinds, hlast⟩ := ih hq₁ hopen₁ _ rfl
        refine ⟨_ :: bs, ?_, q₂, k, q₃, .cons hgives hfinds, hlast⟩
        rw [List.map_cons, hbs]
      | finished =>
        have hresult : as = [] ∧ e = q₁.error := by
          cases herror : q₁.error <;> rw [herror] at h <;> cases h <;> exact ⟨rfl, rfl⟩
        obtain ⟨rfl, rfl⟩ := hresult
        exact ⟨[], rfl, q, _, q₁, .nil q, hgives⟩

/-- A search for the answers of a question that was just set. -/
theorem coherent_of_ask {m₀ m : Machine} {kb kb' : KnowledgeBase} {question : Option Clause}
    (hask : m₀.ask kb question = (none, kb', m)) : Coherent { machine := m } := by
  rcases hset : kb.setQuery question with ⟨_ | e, kb₁⟩ <;>
    simp only [Machine.ask, hset, Prod.mk.injEq, reduceCtorEq, false_and, true_and] at hask
  obtain ⟨-, rfl⟩ := hask
  exact ⟨rfl, fun _ herror => by cases herror⟩

/-- **SLICES FIND ALL ANSWERS.**  However the search of a question is driven, by slices of any
    limits and with contexts that are canceled anywhere in between:

    * the answers are the first answers of the search, and between two of them the runs without an
      error take the steps of one unlimited run; when a slice ends the search, its answers are all
      answers, its error is that of the search, and every later slice repeats it;
    * slices that go on reach each answer, and the end, with what the search finds until then;
    * what the search finds is what asking for all its solutions returns. -/
theorem slices_find_all {m₀ m : Machine} {kb kb' : KnowledgeBase} {question : Option Clause}
    (hask : m₀.ask kb question = (none, kb', m)) (w : World) :
    (∀ slices ss q', Drives w { machine := m } slices ss q' →
      (∃ q₁, Finds w { machine := m } (tally 0 ss) q₁) ∧
      ∀ before s after, ss = before ++ s :: after → s.status = .exhausted →
        Exhausts w { machine := m } (tally 0 ss) s.error ∧
        ∀ t ∈ after, t = ⟨.exhausted, 0, none, s.error⟩) ∧
    (∀ schedule, Fair schedule →
      (∀ as q₁, Finds w { machine := m } as q₁ → ∃ n ss q',
        Drives w { machine := m } (firstSlices schedule n) ss q' ∧ tally 0 ss = as) ∧
      ∀ as e, Exhausts w { machine := m } as e → ∃ n ss t q',
        Drives w { machine := m } (firstSlices schedule n) (ss ++ [t]) q' ∧
        tally 0 (ss ++ [t]) = as ∧ t.status = .exhausted ∧ t.error = e) ∧
    (∀ as, (∃ bs q₁, bs.map Prod.fst = as ∧ Finds w { machine := m } bs q₁) ↔
      ∃ patience, (Solutions.upTo w false patience as.length { machine := m }).1 = as) ∧
    ∀ as e, (∃ bs, bs.map Prod.fst = as ∧ Exhausts w { machine := m } bs e) ↔
      ∃ patience n q', Solutions.upTo w false patience n { machine := m } = (as, e, q') ∧
        q'.done = true := by
  have hq := coherent_of_ask hask
  refine ⟨fun slices ss q' hdrives => ⟨?_, ?_⟩, fun schedule hfair => ⟨?_, ?_⟩, ?_, ?_⟩
  -- What a sequence of slices shows is what the search finds.
  · exact hdrives.finds hq (Behind.refl w _)
  · intro before s after hss hstatus
    exact hdrives.exhausts hq (Behind.refl w _) hss hstatus
  -- A fair schedule comes to every answer, and to the end.
  · intro as q₁ hfinds
    obtain ⟨-, n, ss, hdrives, htally⟩ := exists_drives_of_finds hfinds hfair hq
    exact ⟨n, ss, q₁, hdrives, by simpa [tally] using htally []⟩
  · intro as e hexhausts
    exact exists_drives_of_exhausts hexhausts hfair hq
  · exact exists_finds_iff_upTo hq
  · exact exists_exhausts_iff_upTo hq rfl

/-- The code of a question that succeeds in two ways. -/
def twice : Clause :=
  { signature := querySignature, native := false, auxiliaries := []
    code := [(bodyLabel, [{ op := .tryElse, label := "g1" }, { op := .jump, label := "g2" }]),
      ("g1", [{ op := .jump, label := "g2" }]), ("g2", [{ op := .tryFinally }, { op := .end_ }])] }

/-- The search for its answers. -/
def twiceSearch : Solutions := { machine := (({} : Machine).ask {} (some twice)).2.2 }

/-- It stops in the middle of a slice, is canceled before and behind an answer, and finds both
    answers. -/
theorem slices_find_all_twice : Exhausts {} twiceSearch [(⟨[]⟩, 4), (⟨[]⟩, 3)] none := by
  have hask : ({} : Machine).ask {} (some twice) = (none, _, twiceSearch.machine) := rfl
  let slices : List Slice := [⟨false, 3⟩, ⟨true, 9⟩, ⟨false, 1⟩, ⟨true, 9⟩, ⟨false, 9⟩, ⟨true, 9⟩]
  have hsnapshots : (drive {} slices twiceSearch).1 =
      [⟨.paused, 3, none, none⟩, ⟨.paused, 0, none, some .canceled⟩, ⟨.answer, 1, some ⟨[]⟩, none⟩,
        ⟨.paused, 0, none, some .canceled⟩, ⟨.answer, 3, some ⟨[]⟩, none⟩] ++
      [⟨.exhausted, 0, none, none⟩] := by
    with_unfolding_all rfl
  have hdrives := drives_drive {} slices (by decide) twiceSearch
  have hall := ((slices_find_all hask {}).1 slices _ _ hdrives).2 _ _ _ hsnapshots rfl
  rw [hsnapshots] at hall
  exact hall.1

end Solutions

end PrologMachine
