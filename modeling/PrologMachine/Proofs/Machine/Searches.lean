/-
  PrologMachine.Proofs.Machine.Searches ── **SEARCHES WITH ANY NATIVE PREDICATES.**

  A machine is asked one compiled question after the other, about knowledge bases that hold compiled
  clauses and native predicates of any kind.  As long as no error occurs, each step is a move and each
  request for the next answer a failure of the query.

    * `Search`: the machines of all searches, with the number of variables that their question found;
      `Reachable.search`: those of all runs are among them.
    * `Search.standing`, `Search.fenced`: each is orderly or has halted, and keeps its barriers.
    * `Search.invariant`: what holds of a question that has just been asked, and is kept by all that
      can happen in a search, holds of every machine without an error.
-/
import PrologMachine.Proofs.Machine.Barriers
import PrologMachine.Proofs.Machine.Foreign

namespace PrologMachine

namespace Machine

variable {kb : KnowledgeBase} {q : Clause} {w : World} {m m' : Machine} {n : Nat}

/-! ## §1. Searches. -/

/-- A search may call everything, also the query. -/
def everything : Signature → Bool := fun _ => true

/-- Every list of goals is admissible where everything is. -/
theorem everything_admits (goals : List Signature) : Admissible everything goals :=
  ⟨fun _ _ => rfl, fun _ => rfl⟩

/-- What a search works with: the knowledge base, and native predicates that unify what exists. -/
structure Equipped (kb : KnowledgeBase) (w : World) : Prop where
  /-- The clauses. -/
  base : w.base = kb
  /-- The native predicates. -/
  natives : w.natives.Sober

/-- The machines of all searches: a machine is asked compiled questions, takes steps, and is asked for
    the next answer when it has found one.  When the present question was asked, there were `n`
    variables. -/
inductive Search : KnowledgeBase → Nat → Machine → Prop where
  /-- A new machine. -/
  | new (kb : KnowledgeBase) : Search kb 0 {}
  /-- A question is asked. -/
  | ask {kb₀ kb kb' : KnowledgeBase} {n : Nat} {m m' : Machine} {q : Clause} : Search kb₀ n m →
    Furnished (fun _ => True) kb → Question (fun _ => True) q → m.ask kb (some q) = (none, kb', m') →
    Search kb' m.heap.vars.size m'
  /-- A step is taken. -/
  | step {kb : KnowledgeBase} {n : Nat} {m : Machine} {w : World} : Search kb n m → Equipped kb w →
    Search kb n (m.step w).2
  /-- The next answer is asked for. -/
  | redo {kb : KnowledgeBase} {n : Nat} {m : Machine} : Search kb n m → m.status = .answer →
    Search kb n m.redo.2

/-- A trace goes on with the search. -/
theorem Search.trace (hw : Equipped kb w) (steps : Nat) : ∀ {m : Machine}, Search kb n m →
    Search kb n (m.trace w steps).2 := by
  induction steps with
  | zero => intro m h; exact h
  | succ steps ih =>
    intro m h
    rw [Machine.trace]
    simp only
    split
    · exact h.step hw
    · exact ih (h.step hw)

/-- The standard native predicates unify what exists. -/
theorem Worldly.equipped (hw : Worldly kb w) : Equipped kb w :=
  ⟨hw.base, hw.natives ▸ Registry.sober_core⟩

/-- **The machines of all runs are machines of searches.** -/
theorem Reachable.search (h : Reachable (fun _ => True) kb m) : ∃ n, Search kb n m := by
  induction h with
  | new kb => exact ⟨0, .new kb⟩
  | ask _ hkb hq hask ih =>
    obtain ⟨n, hsearch⟩ := ih
    exact ⟨_, .ask hsearch hkb.furnished hq hask⟩
  | step _ hw ih =>
    obtain ⟨n, hsearch⟩ := ih
    exact ⟨n, hsearch.step hw.equipped⟩
  | redo _ hstatus ih =>
    obtain ⟨n, hsearch⟩ := ih
    exact ⟨n, hsearch.redo hstatus⟩

/-! ## §2. What holds of every search. -/

/-- How far a machine has come. -/
inductive Standing (kb : KnowledgeBase) (m : Machine) : Prop where
  /-- No question was asked yet. -/
  | unasked (hasked : m.asked = false) (hended : m.ended = false) (hgood : m.heap.Good)
  /-- The machine is orderly. -/
  | orderly {q : Clause} (hset : Setting everything kb.compiled q)
    (h : Orderly everything kb.compiled q m)
  /-- The machine has halted. -/
  | halted (h : m.Halted)

/-- The heap of a search is good. -/
theorem Standing.good (h : Standing kb m) : m.heap.Good := by
  cases h with
  | unasked _ _ hgood => exact hgood
  | orderly _ h => exact h.good
  | halted h => exact h.2

/-- The world of a search hosts every call. -/
theorem Equipped.hosted (hw : Equipped kb w) (hhosts : kb.Hosts everything) : Hosted everything w :=
  .of_sober (hw.base.symm ▸ hhosts) hw.natives

/-- The knowledge base of a search is furnished, unless no question was asked. -/
theorem Search.hosts (h : Search kb n m) (hasked : m.asked = true) : kb.Hosts everything := by
  induction h with
  | new => cases hasked
  | ask _ hkb hq hask =>
    obtain ⟨-, rfl, -⟩ := ask_eq hask
    exact (hkb.query hq).hosts fun goals _ => everything_admits goals
  | @step kb n m w _ _ ih =>
    by_cases hm : m.asked = true
    · exact ih hm
    · rw [step_of_idle (.inr (.inl (by simpa using hm)))] at hasked
      exact (hm hasked).elim
  | @redo kb n m _ _ ih =>
    by_cases hm : m.asked = true
    · exact ih hm
    · have hredo : m.redo.2 = m := by simp [Machine.redo, hm]
      rw [hredo] at hasked
      exact (hm hasked).elim

/-- **One step of an orderly machine of a search**: a move, or an error. -/
theorem Orderly.advance_equipped (h : Orderly everything kb.compiled q m)
    (hset : Setting everything kb.compiled q) (hw : Equipped kb w) (hhosts : kb.Hosts everything)
    (hactive : m.Active) :
    (∃ i, m.fetch = .ok i ∧ Moves w.compiled i (m.counted w i) (m.advance w) ∧
      (i.calls → Invokes w.compiled (m.counted w i) (m.advance w)) ∧
        Orderly everything kb.compiled q (m.advance w)) ∨ (m.advance w).Halted := by
  have hhosted := hw.hosted hhosts
  obtain ⟨rfl, -⟩ := hw
  exact h.advance_hosted hset hhosted hactive

/-- **Every machine of a search is orderly, unless it has halted.** -/
theorem Search.standing (h : Search kb n m) : Standing kb m := by
  induction h with
  | new kb => exact .unasked rfl rfl (Heap.good_empty 0 0)
  | @ask kb₀ kb kb' n m m' q _ hkb hq hask ih =>
    obtain ⟨hset, rfl, rfl⟩ := ask_eq hask
    have hsetting := hkb.setting (fun goals _ => everything_admits goals) hq hset
    exact .orderly hsetting (posed_orderly hsetting ih.good)
  -- By what the machine was doing: a machine that does nothing stands still.
  | @step kb n m w hsearch hw ih =>
    cases ih with
    | unasked hasked hended hgood =>
      rw [step_of_idle (.inr (.inl hasked))]
      exact .unasked hasked hended hgood
    | halted h =>
      rw [step_of_idle (.inl h.1)]
      exact .halted h
    | orderly hset h =>
      by_cases hactive : m.Active
      · rw [step_of_active hactive]
        rcases h.advance_equipped hset hw (hsearch.hosts hactive.1) hactive with
          ⟨_, _, _, _, h'⟩ | h'
        · exact .orderly hset h'
        · exact .halted h'
      · rw [step_of_idle (.inr (.inr (h.ended_of_not_active hactive)))]
        exact .orderly hset h
  -- Only an answered machine is asked for more.
  | @redo kb n m _ hstatus ih =>
    cases ih with
    | unasked _ hended => simp [status, hended] at hstatus
    | halted h =>
      rw [redo_of_error h.1]
      exact .halted h
    | orderly hset h => exact .orderly hset (h.redo hstatus).2

/-- A machine without an error is orderly once it was asked. -/
theorem Search.orderly (h : Search kb n m) (hasked : m.asked = true) (herror : m.error = none) :
    ∃ q, Setting everything kb.compiled q ∧ Orderly everything kb.compiled q m := by
  cases h.standing with
  | unasked hnever => rw [hasked] at hnever; cases hnever
  | orderly hset h => exact ⟨_, hset, h⟩
  | halted h => rw [Halted, herror] at h; cases h.1

/-- A step without an error moves an active machine, and leaves others alone. -/
theorem Search.advances (h : Search kb n m) (hw : Equipped kb w)
    (herror : (m.step w).2.error = none) :
    (m.step w).2 = m ∨ ∃ i q, m.Active ∧ m.fetch = .ok i ∧ Orderly everything kb.compiled q m ∧
      Moves w.compiled i (m.counted w i) (m.step w).2 ∧
        (i.calls → Invokes w.compiled (m.counted w i) (m.step w).2) := by
  by_cases hactive : m.Active
  · obtain ⟨q, hset, horderly⟩ := h.orderly hactive.1 hactive.2.1
    rw [step_of_active hactive] at herror ⊢
    rcases horderly.advance_equipped hset hw (h.hosts hactive.1) hactive with
      ⟨i, hi, hmove, hcalls, -⟩ | h'
    · exact .inr ⟨i, q, hactive, hi, horderly, hmove, hcalls⟩
    · rw [Halted, herror] at h'
      cases h'.1
  · left
    cases h.standing with
    | unasked hnever => exact step_of_idle (.inr (.inl hnever))
    | orderly _ horderly => exact step_of_idle (.inr (.inr (horderly.ended_of_not_active hactive)))
    | halted h' => exact step_of_idle (.inl h'.1)

/-- Asking for the next answer is a failure of the query. -/
theorem Search.retreats (h : Search kb n m) (hstatus : m.status = .answer)
    (herror : m.redo.2.error = none) : ∃ q, Orderly everything kb.compiled q m ∧
      Fails { m with ended := false, success := false, steps := 0 } m.redo.2 := by
  cases h.standing with
  | unasked _ hended => simp [status, hended] at hstatus
  | orderly _ horderly =>
    obtain ⟨⟨m', hfails, hredo⟩, -⟩ := horderly.redo hstatus
    exact ⟨_, horderly, hredo ▸ hfails⟩
  | halted h' =>
    rw [redo_of_error h'.1] at herror
    rw [Halted, herror] at h'
    cases h'.1

/-- **In every search the barriers hold**, until it is exhausted. -/
theorem Search.fenced (h : Search kb n m) (hasked : m.asked = true) (herror : m.error = none)
    (hmore : m.exhausted = false) : Fenced everything m := by
  induction h with
  | new => cases hasked
  | ask _ _ _ hask =>
    obtain ⟨-, rfl, rfl⟩ := ask_eq hask
    exact .posed _ _
  | @step kb n m w hsearch hw ih =>
    rcases hsearch.advances hw herror with hidle | ⟨i, q, hactive, hi, horderly, hmove, hcalls⟩
    · rw [hidle] at hasked herror hmore ⊢
      exact ih hasked herror hmore
    · exact (ih hactive.1 hactive.2.1 hactive.2.2.2).move (horderly.memory hactive hi) hi hmove hcalls
        hmore
  | redo hsearch hstatus ih =>
    obtain ⟨q, horderly, -⟩ := hsearch.retreats hstatus herror
    exact (ih horderly.error_none.2 horderly.error_none.1 (status_eq_answer.1 hstatus).2).redo horderly
      hstatus hmore

/-! ## §3. Invariants. -/

/-- What can happen in a search without an error. -/
inductive Happens (m : Machine) : Machine → Prop where
  /-- An instruction makes its move. -/
  | moves {w : World} {i : Instruction} {m' : Machine} (hmore : m.exhausted = false) (hm : m.Memory)
    (hb : Barriers m) (h : Moves w i (m.counted w i) m') : Happens m m'
  /-- The next answer is asked for. -/
  | retreats {m' : Machine} (hmore : m.exhausted = false) (hm : m.Memory) (hb : Barriers m)
    (h : Fails { m with ended := false, success := false, steps := 0 } m') : Happens m m'

/-- A step of a search without an error moves the machine, or leaves it alone. -/
theorem Search.step_happens (h : Search kb n m) (hw : Equipped kb w)
    (herror : (m.step w).2.error = none) : (m.step w).2 = m ∨ Happens m (m.step w).2 := by
  rcases h.advances hw herror with hidle | ⟨i, q, hactive, hi, horderly, hmove, -⟩
  · exact .inl hidle
  · have hb := (h.fenced hactive.1 hactive.2.1 hactive.2.2.2).toBarriers
    exact .inr (.moves (w := w.compiled) hactive.2.2.2 (horderly.memory hactive hi) hb hmove)

/-- So does asking for the next answer. -/
theorem Search.redo_happens (h : Search kb n m) (hstatus : m.status = .answer)
    (herror : m.redo.2.error = none) : Happens m m.redo.2 := by
  obtain ⟨q, horderly, hfails⟩ := h.retreats hstatus herror
  have hmore := (status_eq_answer.1 hstatus).2
  exact .retreats hmore (horderly.answer_memory hstatus).1
    (h.fenced horderly.error_none.2 horderly.error_none.1 hmore).toBarriers hfails

/-- **An invariant of searches**: it holds of a question that has just been asked, and whatever can
    happen keeps it. -/
theorem Search.invariant {P : Nat → Machine → Prop}
    (hposed : ∀ (m : Machine) (q : Clause), m.heap.Good → P m.heap.vars.size (m.posed q))
    (hhappens : ∀ {n : Nat} {m m' : Machine}, Happens m m' → P n m → P n m')
    (h : Search kb n m) (hasked : m.asked = true) (herror : m.error = none) : P n m := by
  induction h with
  | new => cases hasked
  | ask hsearch _ _ hask =>
    obtain ⟨-, rfl, rfl⟩ := ask_eq hask
    exact hposed _ _ hsearch.standing.good
  | @step kb n m w hsearch hw ih =>
    rcases hsearch.advances hw herror with hidle | ⟨i, q, hactive, hi, horderly, hmove, -⟩
    · rw [hidle] at hasked herror ⊢
      exact ih hasked herror
    · have hb := (hsearch.fenced hactive.1 hactive.2.1 hactive.2.2.2).toBarriers
      exact hhappens (.moves (w := w.compiled) hactive.2.2.2 (horderly.memory hactive hi) hb hmove)
        (ih hactive.1 hactive.2.1)
  | redo hsearch hstatus ih =>
    obtain ⟨q, horderly, -⟩ := hsearch.retreats hstatus herror
    obtain ⟨herror', hasked'⟩ := horderly.error_none
    exact hhappens (hsearch.redo_happens hstatus herror) (ih hasked' herror')

end Machine

end PrologMachine
