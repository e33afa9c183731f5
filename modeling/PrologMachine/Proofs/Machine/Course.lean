/-
  PrologMachine.Proofs.Machine.Course ── **THE COURSE OF A SEARCH.**

  A search goes from one machine to the next by steps and by requests for the next answer.  Whatever is
  under a frame stays as long as the frame is on the stack, so that backtracking to it finds the bindings
  of the moment when it was pushed.

    * `Search.happens`: one step of a search.
    * `Search.upholds`: any number of steps keep what is under a frame.
-/
import PrologMachine.Proofs.Machine.Progress
import PrologMachine.Proofs.Machine.Restoration

namespace PrologMachine

namespace Machine

variable {kb : KnowledgeBase} {w : World} {m m' m'' : Machine} {n d k i : Nat} {f : FrameId}
  {c : Clause} {label : String} {block : Code} {instr : Instruction}

/-! ## §1. One step. -/

/-- The machine is about to run an instruction of its code. -/
theorem At.fetch_eq (h : At c label i m) (hblock : c.block? label = some block)
    (hi : block[i]? = some instr) : m.fetch = .ok instr := by
  simp only [fetch, h.code, h.label, hblock, h.index, hi]

/-- The memory of a search is in shape. -/
theorem Search.memory (h : Search kb n m) (hactive : m.Active) (hi : m.fetch = .ok instr) : m.Memory := by
  obtain ⟨q, -, horderly⟩ := h.orderly hactive.1 hactive.2.1
  exact horderly.memory hactive hi

/-- One step of a search without an error. -/
theorem Search.happens (h : Search kb n m) (hw : Equipped kb w) (hactive : m.Active)
    (herror : (m.advance w).error = none) : m.advance w = m ∨ Happens m (m.advance w) := by
  have hstep := step_of_active (w := w) hactive
  rw [← hstep] at herror ⊢
  exact h.step_happens hw herror

theorem Search.of_reaches (h : Search kb n m) (hw : Equipped kb w) (hr : Reaches w m m') :
    Search kb n m' := by
  induction hr with
  | refl => exact h
  | tail _ hstep ih =>
    rw [← hstep.advance_eq, ← step_of_active hstep.active]
    exact ih.step hw

/-! ## §2. What is under a frame. -/

/-- **Any number of steps keep what is under a frame.** -/
theorem Search.upholds (h : Search kb n m) (hw : Equipped kb w) (hm : m.Memory) (hr : Reaches w m m')
    (hf : m.stack[d]? = some f) : Upholds d f m m' := by
  induction hr with
  | refl => exact .refl hm hf
  | @tail m₁ m₂ hrun hstep ih =>
    rcases (h.of_reaches hw hrun).happens hw hstep.active
        (hstep.advance_eq ▸ hstep.goes.2.1) with hsame | hhappens
    · rw [← hstep.advance_eq, hsame]
      exact ih
    · rw [hstep.advance_eq] at hhappens
      exact ih.happens hhappens

end Machine

end PrologMachine
