/-
  PrologMachine.Proofs.Machine.Safety ── **COMPILED CODE DOES NOT GO WRONG.**

  A machine that is asked compiled questions about a stocked knowledge base stays orderly from step
  to step and from answer to answer, until it stops with an error that the program caused.

    * `Orderly.advance`: what one step preserves.
    * `Reachable`: the machines of all runs; `Reachable.safe`: what a run preserves.
    * `reachable_error_permitted`: the errors that can occur, and the frames calls are built in.
-/
import PrologMachine.Proofs.Machine.Moves

namespace PrologMachine

/-- The codes of errors that only a broken compiler or machine could cause: a mismatched binding, an
    unknown instruction, label, clause or handler, code without an end, and internal faults. -/
def brokenCodes : List String :=
  ["M0101", "M0102", "M0103", "M0105", "M0106", "D0102", "D0103", "C0101"]

/-- The instruction works on the frame of the call under construction. -/
def Instruction.needsTarget (i : Instruction) : Bool :=
  i.op ∈ [.putStruct, .putVar, .putVoid, .putValue, .putTerm, .putNumber, .putNil, .setup, .call,
    .bcall]

/-- Such an instruction stands where a goal is built or called. -/
theorem Phase.of_needsTarget {admits : Signature → Bool} {p p' : Phase} {i : Instruction}
    (hnext : p.next admits i = some p') (hi : i.needsTarget = true) :
    (∃ regs begun left, p = .build regs begun left) ∨ ∃ g, p = .ready g := by
  simp only [Instruction.needsTarget, List.mem_cons, List.not_mem_nil, or_false,
    decide_eq_true_eq] at hi
  cases p with
  | build regs begun left => exact .inl ⟨_, _, _, rfl⟩
  | ready g => exact .inr ⟨g, rfl⟩
  | head pending last left =>
    rcases hi with h | h | h | h | h | h | h | h | h | h <;> simp [next, nextHead, h] at hnext
  | body => rcases hi with h | h | h | h | h | h | h | h | h | h <;> simp [next, nextBody, h] at hnext
  | failed =>
    rcases hi with h | h | h | h | h | h | h | h | h | h <;> simp [next, nextBody, h] at hnext
  | returned g => rcases hi with h | h | h | h | h | h | h | h | h | h <;> simp [next, h] at hnext
  | retried => rcases hi with h | h | h | h | h | h | h | h | h | h <;> simp [next, h] at hnext
  | outcome => rcases hi with h | h | h | h | h | h | h | h | h | h <;> simp [next, h] at hnext
  | operands n =>
    rcases hi with h | h | h | h | h | h | h | h | h | h <;> simp [next, nextOperands, h] at hnext
  | closed => cases hnext

/-- A call stands behind its setup. -/
theorem Phase.ready_of_calls {admits : Signature → Bool} {p p' : Phase} {i : Instruction}
    (hnext : p.next admits i = some p') (hi : i.calls) : ∃ g, p = .ready g ∧ p' = .returned g := by
  have hneeds : i.needsTarget = true := by
    rcases hi with h | h <;> simp [Instruction.needsTarget, h]
  rcases Phase.of_needsTarget hnext hneeds with ⟨regs, begun, left, rfl⟩ | ⟨g, rfl⟩
  · rcases hi with h | h <;> simp [next, nextBuild, h] at hnext
  · have hop : i.op = .call ∨ i.op = .bcall := hi
    simp only [next, if_pos hop] at hnext
    exact ⟨g, rfl, (Option.some.inj hnext).symm⟩

/-- The outcome of a negated call is looked at where it has returned. -/
theorem Phase.returned_of_maybeRetryN {admits : Signature → Bool} {p p' : Phase} {i : Instruction}
    (hnext : p.next admits i = some p') (hi : i.op = .maybeRetryN) : ∃ g, p = .returned g := by
  cases p with
  | returned g => exact ⟨g, rfl⟩
  | head pending last left => simp [next, nextHead, hi] at hnext
  | body => simp [next, nextBody, hi] at hnext
  | failed => simp [next, nextBody, hi] at hnext
  | build regs begun left => simp [next, nextBuild, hi] at hnext
  | ready g => simp [next, hi] at hnext
  | retried => simp [next, hi] at hnext
  | outcome => simp [next, hi] at hnext
  | operands n => simp [next, nextOperands, hi] at hnext
  | closed => cases hnext

namespace Machine

open Exec

variable {admits : Signature → Bool} {kb : KnowledgeBase} {q : Clause} {w : World}
  {m m' : Machine} {c : Clause} {i : Instruction} {p : Phase} {j : Nat}

/-! ## §1. One step. -/

/-- The machine has counted the step of an instruction. -/
def counted (w : World) (m : Machine) (i : Instruction) : Machine :=
  { m with
    index := m.index + 1, steps := m.steps + 1
    transcript := m.transcript.logIf w.debug (.step i m.codeSignature m.label m.depth) }

/-- A step runs the instruction that is fetched, unless the limit is used up. -/
theorem advance_eq (hi : m.fetch = .ok i) : m.advance w =
    if 0 < w.maxSteps ∧ w.maxSteps < (m.steps + 1 : Nat) then
      { m with index := m.index + 1, steps := m.steps + 1 }.fault (.running (.stepLimit w.maxSteps))
    else (m.counted w i).perform (execute w i) := by
  simp only [advance, hi, count]
  by_cases hlimit : 0 < w.maxSteps ∧ w.maxSteps < (m.steps + 1 : Nat)
  · have hlimit' : (decide (0 < w.maxSteps) && decide (w.maxSteps < ((m.steps + 1 : Nat) : Int))) =
        true := by simpa using hlimit
    simp only [hlimit', if_true, if_pos hlimit]
  · have hlimit' : (decide (0 < w.maxSteps) && decide (w.maxSteps < ((m.steps + 1 : Nat) : Int))) =
        false := by simpa using hlimit
    simp only [hlimit', if_neg hlimit]
    rfl

/-- Every phase has the calls below it under control. -/
theorem Fits.exists_control (h : Fits admits kb q m j p) : ∃ n, Control admits kb q m n := by
  cases p with
  | head pending last left => exact ⟨_, h.2.1⟩
  | body => exact ⟨_, h.2⟩
  | build regs begun left => exact ⟨_, h.2.1⟩
  | ready g => exact ⟨_, h.1⟩
  | returned g => exact ⟨_, h.1⟩
  | retried => exact ⟨_, h.1⟩
  | outcome => exact ⟨_, h.1⟩
  | operands n => exact ⟨_, h.2.1⟩
  | failed => exact h.elim
  | closed => exact h.elim

/-- Counting a step changes nothing that code relies on. -/
theorem Tame.counted (hm : m.Memory) (n : Nat) : Tame n m (m.counted w i) :=
  .fields hm n ⟨rfl, rfl, rfl⟩

/-- Counting the instruction changes nothing of it. -/
theorem Fits.counted (hm : m.Memory) (h : Fits admits kb q m j p) :
    Fits admits kb q (m.counted w i) j p := by
  have hquiet : ∀ n, Quiet n m (m.counted w i) := fun n => (Tame.counted hm n).quiet
  cases p with
  | head pending last left => exact ⟨h.1, (hquiet _).control h.2.1, h.2.2⟩
  | body => exact ⟨h.1, (hquiet _).control h.2⟩
  | build regs begun left => exact ⟨h.1, (hquiet _).control h.2.1, h.2.2⟩
  | ready g =>
    obtain ⟨hc, f, r, htarget, ht, hp, hrest⟩ := h
    refine ⟨(hquiet _).control hc, f, r, htarget, ht, ?_, hrest⟩
    have hpos := hc.depth_pos
    exact (hquiet m.depth).alike.pending (by show m.depth - 1 < m.depth; omega)
      (top?_eq_getElem? ▸ ht) hp
  | returned g => exact ⟨(hquiet _).control h.1, h.2⟩
  | retried => exact ⟨(hquiet _).control h.1, h.2⟩
  | outcome => exact ⟨(hquiet _).control h.1, h.2⟩
  | operands n => exact ⟨h.1, (hquiet _).control h.2.1, h.2.2⟩
  | failed => exact h
  | closed => exact h

/-- **A running machine finds its instruction.** -/
theorem exists_fetched (hset : Setting admits kb q) (hactive : m.Active) (hm : m.Memory)
    (hcode : m.code = some c) (hat : c.At admits m.label m.index p)
    (hfit : Fits admits kb q m m.index p) :
    ∃ i p', m.fetch = .ok i ∧
      ∀ w, Fetched admits kb q (m.counted w i) c m.index p i p' := by
  obtain ⟨n, hc⟩ := hfit.exists_control
  obtain ⟨c', hcode', hruns⟩ := hc.code
  obtain rfl := Option.some.inj (hcode.symm.trans hcode')
  have hsound := hruns.sound hset.base hset.question
  -- Code ends with an instruction that leaves the clause, so a phase behind it is never reached.
  have hp : ¬ p.Final := by
    rintro (rfl | rfl)
    · exact hfit
    · exact hfit
  obtain ⟨code, i, p', hblock, hi, hnext, hat'⟩ := hat.next hsound hp
  refine ⟨i, p', ?_, fun w => ?_⟩
  · simp only [fetch, hcode, hblock, hi]
  · exact
      { memory := (Tame.counted hm 0).memory
        active := hactive
        code := hcode
        sound := hsound
        index := rfl
        before := hat
        fits := hfit.counted hm
        next := hnext
        behind := hat'
        leads := fun hgoes => hsound.targets _ _ (Clause.mem_of_block? hblock) _
          ⟨i, List.mem_of_getElem? hi, hgoes, rfl⟩ }

/-- The machine stopped with an error: one that the program caused, unless it may call a query. -/
structure Stopped (admits : Signature → Bool) (m : Machine) : Prop where
  /-- There is an error. -/
  error : ∃ e, m.error = some e ∧ (e.Permitted ∨ admits querySignature = true)
  /-- The heap is in good shape. -/
  good : m.heap.Good

/-- A fault is noted when there was none. -/
theorem fault_eq (herror : m.error = none) (e : Error) :
    m.fault e = { m with error := some e, ended := true } := by
  simp [fault, herror]

/-- Carrying out an instruction. -/
theorem Does.perform {Move : Machine → Machine → Prop} {action : Exec Unit}
    (h : Does admits kb q Move m (eval action m)) (herror : m.error = none) :
    (Move m (m.perform action) ∧ Orderly admits kb q (m.perform action)) ∨
      Stopped admits (m.perform action) := by
  rw [perform_eq]
  generalize eval action m = out at h
  cases h with
  | moves hmove horderly => exact .inl ⟨hmove, horderly⟩
  | @stops e m' he herror' hgood =>
    simp only [fault_eq (herror'.trans herror)]
    exact .inr ⟨⟨e, rfl, .inl he⟩, hgood⟩

/-- A clause without a head has no code under the label of heads. -/
theorem block?_headless (hlabel : m.label = headLabel) (hhead : headLabel ∉ c.code.map Prod.fst) :
    c.block? m.label = none := by
  rw [hlabel, Clause.block?, List.lookup_eq_none_iff]
  intro b hb
  simpa using fun heq : headLabel = b.1 => hhead (heq ▸ List.mem_map_of_mem hb)

/-- **One step of an orderly machine.** -/
theorem Orderly.advance (h : Orderly admits kb q m) (hset : Setting admits kb q)
    (hw : Worldly kb w) (hactive : m.Active) :
    (∃ i, m.fetch = .ok i ∧ Moves w i (m.counted w i) (m.advance w) ∧
      (i.calls → Invokes w (m.counted w i) (m.advance w)) ∧ Orderly admits kb q (m.advance w)) ∨
      Stopped admits (m.advance w) := by
  cases h with
  | running _ hm hcode hat hfit =>
    obtain ⟨i, p', hi, hfetched⟩ := exists_fetched hset hactive hm hcode hat hfit
    rw [advance_eq hi]
    split
    · rw [fault_eq (m := { m with index := m.index + 1, steps := m.steps + 1 }) hactive.2.1]
      exact .inr ⟨⟨_, rfl, .inl (.inl ⟨"M0110", by decide, rfl⟩)⟩, hm.good⟩
    · by_cases hcalls : i.calls
      · obtain ⟨g, hp, hp'⟩ := Phase.ready_of_calls (hfetched w).next hcalls
        subst hp hp'
        rcases (execute_call_does hset hw (hfetched w) hcalls).perform hactive.2.1 with
          ⟨hinvokes, horderly⟩ | hstopped
        · exact .inl ⟨i, hi, .invokes hinvokes, fun _ => hinvokes, horderly⟩
        · exact .inr hstopped
      · rcases (execute_does hset hw (hfetched w)).perform hactive.2.1 with
          ⟨hmove, horderly⟩ | hstopped
        · exact .inl ⟨i, hi, hmove, fun h => (hcalls h).elim, horderly⟩
        · exact .inr hstopped
  | @headless c hquery _ hgood hcode hlabel hhead =>
    -- The block is looked for and not found.
    have hblock := block?_headless hlabel hhead
    have hfetch : m.fetch = .error (.noLabel c.signature m.label) := by
      simp only [fetch, hcode, hblock]
    simp only [Machine.advance, hfetch, fault_eq hactive.2.1]
    exact .inr ⟨⟨_, rfl, .inr hquery⟩, hgood⟩
  | answered _ _ hended => rw [hactive.2.2.1] at hended; cases hended
  | exhausted _ _ hended => rw [hactive.2.2.1] at hended; cases hended

/-- There is an answer when the search has ended and is not exhausted. -/
theorem status_eq_answer : m.status = .answer ↔ m.ended = true ∧ m.exhausted = false := by
  unfold status
  cases m.ended <;> cases m.exhausted <;> simp

/-- The next answer is asked for. -/
theorem Orderly.redo (h : Orderly admits kb q m) (hstatus : m.status = .answer) :
    (∃ m', Fails { m with ended := false, success := false, steps := 0 } m' ∧ m.redo.2 = m') ∧
      Orderly admits kb q m.redo.2 := by
  have hended := status_eq_answer.1 hstatus
  cases h with
  | running hactive => rw [hactive.2.2.1] at hended; cases hended.1
  | headless _ hactive => rw [hactive.2.2.1] at hended; cases hended.1
  | exhausted _ _ _ hmore => rw [hmore] at hended; cases hended.2
  | answered hasked herror _ _ hm hc =>
    let m₁ : Machine := { m with ended := false, success := false, steps := 0 }
    obtain ⟨hc₁, hm₁⟩ := hc.fields m₁ hm ⟨rfl, rfl, rfl, rfl, rfl⟩
    obtain ⟨m', heval, hfails⟩ := Control.exists_fails (m := m₁) hm₁ hc₁
    have hredo : m.redo.2 = m' := by
      have hgo : ¬ ((!m.asked || m.error.isSome || m.exhausted) = true) := by
        simp [hasked, herror, hended.2]
      rw [Machine.redo, if_neg hgo]
      show m₁.perform Exec.failure = m'
      rw [perform_eq, heval]
    rw [hredo]
    exact ⟨⟨m', hfails, rfl⟩, hfails.orderly hm₁ ⟨hasked, herror, rfl, hended.2⟩ hc₁⟩

/-! ## §2. Runs. -/

/-- The machines of all runs: a machine is asked compiled questions, takes steps, and is asked for
    the next answer when it has found one.  The knowledge base does not change between questions. -/
inductive Reachable (allowed : List Signature → Prop) : KnowledgeBase → Machine → Prop where
  /-- A new machine. -/
  | new (kb : KnowledgeBase) : Reachable allowed kb {}
  /-- A question is asked. -/
  | ask {kb₀ kb kb' : KnowledgeBase} {m m' : Machine} {q : Clause} : Reachable allowed kb₀ m →
    Stocked allowed kb → Question allowed q → m.ask kb (some q) = (none, kb', m') →
    Reachable allowed kb' m'
  /-- A step is taken. -/
  | step {kb : KnowledgeBase} {m : Machine} {w : World} : Reachable allowed kb m →
    Worldly kb w → Reachable allowed kb (m.step w).2
  /-- The next answer is asked for. -/
  | redo {kb : KnowledgeBase} {m : Machine} : Reachable allowed kb m → m.status = .answer →
    Reachable allowed kb m.redo.2

/-- What holds of every machine of a run. -/
inductive Safe (admits : Signature → Bool) (kb : KnowledgeBase) (m : Machine) : Prop where
  /-- No question was asked yet. -/
  | unasked (hasked : m.asked = false) (herror : m.error = none) (hended : m.ended = false)
    (hgood : m.heap.Good)
  /-- The machine is orderly. -/
  | orderly {q : Clause} (hset : Setting admits kb q) (h : Orderly admits kb q m)
  /-- The machine has stopped. -/
  | stopped (h : Stopped admits m)

/-- The heap of an orderly machine is good. -/
theorem Orderly.good (h : Orderly admits kb q m) : m.heap.Good := by
  cases h with
  | running _ hm => exact hm.good
  | headless _ _ hgood => exact hgood
  | answered _ _ _ _ hm => exact hm.good
  | exhausted _ _ _ _ hgood => exact hgood

theorem Safe.good (h : Safe admits kb m) : m.heap.Good := by
  cases h with
  | unasked _ _ _ hgood => exact hgood
  | orderly _ h => exact h.good
  | stopped h => exact h.good

/-- An orderly machine has a question and no error. -/
theorem Orderly.error_none (h : Orderly admits kb q m) : m.error = none ∧ m.asked = true := by
  cases h with
  | running hactive => exact ⟨hactive.2.1, hactive.1⟩
  | headless _ hactive => exact ⟨hactive.2.1, hactive.1⟩
  | answered hasked herror => exact ⟨herror, hasked⟩
  | exhausted hasked herror => exact ⟨herror, hasked⟩

/-- The machine starts over with a question. -/
def posed (m : Machine) (q : Clause) : Machine :=
  { heap := m.heap, transcript := m.transcript, asked := true, code := some q
    label := bodyLabel, success := true, frames := #[{ position := 0 }], stack := #[0]
    target := some queryFrame, current := queryFrame }

/-- The frames of a machine with a new question. -/
theorem frame_posed (f : FrameId) : (m.posed q).frame f = { position := 0 } := by
  rcases f with _ | f <;> rfl

/-- Asking sets the query and starts afresh. -/
theorem ask_eq {kb' : KnowledgeBase} (h : m.ask kb (some q) = (none, kb', m')) :
    (kb.setQuery (some q)).1 = none ∧ (kb.setQuery (some q)).2 = kb' ∧ m.posed q = m' := by
  unfold Machine.ask at h
  simp only at h
  split at h
  · cases h
  · next hset =>
    obtain ⟨hkb, hm⟩ := Prod.mk.inj (Prod.mk.inj h).2
    exact ⟨hset, hkb, hm⟩

/-- The memory is in order for a new question. -/
theorem Memory.posed (hgood : m.heap.Good) (q : Clause) : (m.posed q).Memory := by
  have htrails : (m.posed q).trails = [] := rfl
  refine ⟨hgood, fun f e he => ?_, by simp [Machine.posed], fun f hf => ?_, by rw [htrails]; exact .nil,
    fun v hv => ?_⟩
  · rw [frame_posed] at he
    cases he
  · obtain rfl : f = 0 := by simpa [Machine.posed] using hf
    exact Nat.one_pos
  · rw [htrails] at hv
    cases hv

/-- A question that has just been asked. -/
theorem posed_orderly (hset : Setting admits kb q) (hgood : m.heap.Good) :
    Orderly admits kb q (m.posed q) := by
  let m' := m.posed q
  have hframe : ∀ f, m'.frame f = { position := 0 } := frame_posed
  have hm : m'.Memory := .posed hgood q
  -- Only the frame of the query is on the stack.
  have hbottom : ∀ k f, k < m'.depth → m'.stack[k]? = some f → k = 0 := by
    intro k f hk _
    have : m'.depth = 1 := rfl
    omega
  have hne : bodyLabel ≠ headLabel := leafLabel_zero ▸ leafLabel_ne_head 0
  refine .running (m := m') ⟨rfl, rfl, rfl, rfl⟩ hm rfl (Clause.At.start_body hset.start hne)
    ⟨rfl, ?_⟩
  exact
    { bottom := rfl
      origin := rfl
      size := Nat.le_refl _
      settled := fun k f h0 hk hf => absurd (hbottom k f hk hf) (by omega)
      alternatives := fun k f _ _ c _ a ha => by
        rw [hframe] at ha
        cases ha
      current := ⟨0, Nat.one_pos, rfl⟩
      code := ⟨q, rfl, .query⟩ }

/-- A machine that has stopped, or was never asked, does not move. -/
theorem step_of_idle (h : m.error.isSome = true ∨ m.asked = false ∨ m.ended = true) :
    (m.step w).2 = m := by
  unfold step
  split
  · rfl
  · next herror =>
    simp only [herror, Option.isSome_none, Bool.false_eq_true, false_or] at h
    rcases h with h | h
    · simp [h]
    · cases hasked : m.asked <;> simp [h]

/-- A machine that has stopped has no next answer. -/
theorem redo_of_error (h : m.error.isSome = true) : m.redo.2 = m := by simp [Machine.redo, h]

/-- Without an error behind a step there was none before. -/
theorem error_none_of_step (h : (m.step w).2.error = none) : m.error = none := by
  by_contra hne
  rw [step_of_idle (.inl (Option.isSome_iff_ne_none.2 hne))] at h
  exact hne h

/-- Without an error behind the request for the next answer there was none before. -/
theorem error_none_of_redo (h : m.redo.2.error = none) : m.error = none := by
  by_contra hne
  rw [redo_of_error (Option.isSome_iff_ne_none.2 hne)] at h
  exact hne h

/-- An active machine advances. -/
theorem step_of_active (h : m.Active) : (m.step w).2 = m.advance w := by
  obtain ⟨hasked, herror, hended, -⟩ := h
  simp [step, hasked, herror, hended]

/-- A step of an active machine that does not use up the limit carries out its instruction. -/
theorem step_performed (hactive : m.Active) (hi : m.fetch = .ok i)
    (herror : (m.step w).2.error = none) :
    (m.step w).2 = (m.counted w i).perform (execute w i) := by
  rw [step_of_active hactive, advance_eq hi] at herror ⊢
  split at herror
  · rw [fault_eq (m := { m with index := m.index + 1, steps := m.steps + 1 }) hactive.2.1] at herror
    cases herror
  · next hlimit => rw [if_neg hlimit]

/-- An orderly machine that is not active has ended. -/
theorem Orderly.ended_of_not_active (h : Orderly admits kb q m) (hactive : ¬ m.Active) :
    m.ended = true := by
  cases h with
  | running ha => exact (hactive ha).elim
  | headless _ ha => exact (hactive ha).elim
  | answered _ _ hended => exact hended
  | exhausted _ _ hended => exact hended

/-- What a step preserves. -/
theorem Safe.step (h : Safe admits kb m) (hw : Worldly kb w) : Safe admits kb (m.step w).2 := by
  cases h with
  | unasked hasked herror hended hgood =>
    rw [step_of_idle (.inr (.inl hasked))]
    exact .unasked hasked herror hended hgood
  | stopped h =>
    obtain ⟨e, he, -⟩ := h.error
    rw [step_of_idle (.inl (by simp [he]))]
    exact .stopped h
  | orderly hset h =>
    by_cases hactive : m.Active
    · rw [step_of_active hactive]
      rcases h.advance hset hw hactive with ⟨_, _, _, _, h'⟩ | h'
      · exact .orderly hset h'
      · exact .stopped h'
    · rw [step_of_idle (.inr (.inr (h.ended_of_not_active hactive)))]
      exact .orderly hset h

/-- What asking for the next answer preserves. -/
theorem Safe.redo (h : Safe admits kb m) (hstatus : m.status = .answer) :
    Safe admits kb m.redo.2 := by
  cases h with
  | unasked hasked herror hended hgood => simp [status, hended] at hstatus
  | stopped h =>
    obtain ⟨e, he, -⟩ := h.error
    rw [redo_of_error (by simp [he])]
    exact .stopped h
  | orderly hset h => exact .orderly hset (h.redo hstatus).2

/-- **Every machine of a run is safe.** -/
theorem Reachable.safe {allowed : List Signature → Prop}
    (hadmits : ∀ goals, allowed goals → Admissible admits goals) (h : Reachable allowed kb m) :
    Safe admits kb m := by
  induction h with
  | new kb => exact .unasked rfl rfl rfl (Heap.good_empty 0 0)
  | @ask kb₀ kb kb' m m' q _ hkb hq hask ih =>
    obtain ⟨hset, rfl, rfl⟩ := ask_eq hask
    have hsetting := hkb.setting hadmits hq hset
    exact .orderly hsetting (posed_orderly hsetting ih.good)
  | step _ hw ih => exact ih.step hw
  | redo _ hstatus ih => exact ih.redo hstatus

/-! ## §3. What cannot go wrong. -/

/-- None of the permitted errors says that the machine is broken. -/
theorem permitted_not_broken {e : Error} (he : e.Permitted) :
    ∀ code ∈ brokenCodes, e.code? ≠ some code := by
  intro code hcode heq
  rcases he with ⟨code', hcode', heq'⟩ | ⟨s, text, -, rfl⟩
  · obtain rfl := Option.some.inj (heq.symm.trans heq')
    revert hcode hcode'
    simp only [brokenCodes, permittedCodes, List.mem_cons, List.not_mem_nil, or_false]
    rintro (rfl | rfl | rfl | rfl | rfl | rfl | rfl | rfl) h <;> simp at h
  · cases heq

/-- An instruction that needs the frame of a call finds it on top of the stack. -/
theorem Orderly.exists_target (h : Orderly admits kb q m) (hset : Setting admits kb q)
    (hactive : m.Active) (hi : m.fetch = .ok i) (hneeds : i.needsTarget = true) :
    ∃ f, m.target = some f ∧ m.top? = some f := by
  cases h with
  | running _ hm hcode hat hfit =>
    obtain ⟨i', p', hi', hfetched⟩ := exists_fetched hset hactive hm hcode hat hfit
    obtain rfl := Except.ok.inj (hi.symm.trans hi')
    rcases Phase.of_needsTarget (hfetched {}).next hneeds with ⟨regs, begun, left, rfl⟩ | ⟨g, rfl⟩
    · obtain ⟨-, -, f, htarget, ht, -⟩ := hfit
      exact ⟨f, htarget, ht⟩
    · obtain ⟨-, f, r, htarget, ht, -⟩ := hfit
      exact ⟨f, htarget, ht⟩
  | @headless c _ _ _ hcode hlabel hhead =>
    have hblock := block?_headless hlabel hhead
    simp [fetch, hcode, hblock] at hi
  | answered _ _ hended => rw [hactive.2.2.1] at hended; cases hended
  | exhausted _ _ hended => rw [hactive.2.2.1] at hended; cases hended

/-- **Compiled code does not go wrong.**  In every run of a program and questions that do not call
    the query, an error is one that the program may cause and none of a broken machine, and an
    instruction that works on the frame of a call finds it on top of the stack. -/
theorem reachable_error_permitted (h : Reachable (querySignature ∉ ·) kb m) :
    (∀ e, m.error = some e → e.Permitted ∧ ∀ code ∈ brokenCodes, e.code? ≠ some code) ∧
      ∀ i, m.Active → m.fetch = .ok i → i.needsTarget = true →
        ∃ f, m.target = some f ∧ m.top? = some f := by
  have hadmits : ∀ goals : List Signature, querySignature ∉ goals →
      Admissible (fun s => decide (s ≠ querySignature)) goals := fun goals hgoals =>
    ⟨fun s hs => by simpa using hs, fun hq => (hgoals hq).elim⟩
  have hsafe := h.safe hadmits
  constructor
  · intro e he
    have hpermitted : e.Permitted := by
      cases hsafe with
      | unasked _ herror => rw [herror] at he; cases he
      | orderly _ h => rw [h.error_none.1] at he; cases he
      -- A machine that has stopped keeps the error, which is a permitted one or speaks of the query's
      -- name.
      | stopped h =>
        obtain ⟨e', he', hpermitted | hquery⟩ := h.error
        · obtain rfl := Option.some.inj (he.symm.trans he')
          exact hpermitted
        · simp at hquery
    exact ⟨hpermitted, permitted_not_broken hpermitted⟩
  · intro i hactive hi hneeds
    cases hsafe with
    | unasked hasked => rw [hactive.1] at hasked; cases hasked
    | orderly hset h => exact h.exists_target hset hactive hi hneeds
    | stopped h =>
      obtain ⟨e, he, -⟩ := h.error
      rw [hactive.2.1] at he
      cases he

/-- The question `p` about a predicate without clauses stops at the unknown predicate. -/
theorem reachable_error_permitted_unknown : ∃ (kb : KnowledgeBase) (m : Machine),
    Reachable (querySignature ∉ ·) kb m ∧
      m.error = some (.storing (.unknownPredicate ⟨"p", 0⟩)) ∧
      (∀ e, m.error = some e → e.Permitted ∧ ∀ code ∈ brokenCodes, e.code? ≠ some code) ∧
        ∀ i, m.Active → m.fetch = .ok i → i.needsTarget = true →
          ∃ f, m.target = some f ∧ m.top? = some f := by
  let q : Clause := ⟨querySignature, [("g0",
    [{ op := .allocate }, { op := .putStruct, functor := "p", register := "$x0" }, { op := .setup },
      { op := .call }, { op := .maybeRetry }, { op := .deallocate }, { op := .end_ }])], false, []⟩
  have hq : Question (querySignature ∉ ·) q :=
    ⟨{}, .const (.atom "p") 0, .inl ⟨{}, "p.", 0, by cbv⟩, by decide, by cbv⟩
  let kb : KnowledgeBase := ((({} : Machine).ask {} (some q)).2.1)
  let w : World := { base := kb, natives := Registry.core }
  have hw : Worldly kb w := ⟨rfl, rfl⟩
  have h₀ : Reachable (querySignature ∉ ·) kb (({} : Machine).ask {} (some q)).2.2 :=
    .ask (.new {}) .empty hq (by rfl)
  have h₄ := (((h₀.step hw).step hw).step hw).step hw
  refine ⟨kb, _, h₄, ?_, reachable_error_permitted h₄⟩
  cbv

end Machine

end PrologMachine
