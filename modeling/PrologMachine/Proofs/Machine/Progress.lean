/-
  PrologMachine.Proofs.Machine.Progress ── **RUNS THAT GO ON.**

  Between two answers a machine goes from instruction to instruction.  A run with a budget passes
  through every machine that is reached in this way, and reports what comes of the last one.

    * `Machine.Step`: one instruction, after which the search goes on.
    * `Machine.Reaches`: any number of them; `Reaches.budget`, what a run with a budget makes of it.
    * `Machine.At.step`: the instruction that stands there.
-/
import PrologMachine.Proofs.Machine.Stretch

namespace PrologMachine

namespace Machine

open Exec
open Relation (ReflTransGen)

variable {w : World} {c : Clause} {label : String} {i : Nat} {block : Code} {instr : Instruction}
  {m m' m'' : Machine}

/-! ## §1. Machines that agree. -/

/-- The machines agree in the flags of the search. -/
structure Flags (m m' : Machine) : Prop where
  /-- A question is set in both or in none. -/
  asked : m'.asked = m.asked
  /-- The same error has stopped them. -/
  error : m'.error = m.error
  /-- Both have ended or none. -/
  ended : m'.ended = m.ended
  /-- Both are exhausted or none. -/
  exhausted : m'.exhausted = m.exhausted

theorem Flags.active (h : Flags m m') (hm : m.Active) : m'.Active :=
  ⟨h.asked.trans hm.1, h.error.trans hm.2.1, h.ended.trans hm.2.2.1, h.exhausted.trans hm.2.2.2⟩

/-- A change of frames that changes none is none. -/
theorem changeFrame_self {f : FrameId} {g : Frame → Frame} (hg : g (m.frame f) = m.frame f) :
    m.changeFrame f g = m := by
  have hframes : m.frames.modify f g = m.frames := by
    apply Array.ext_getElem?
    intro k
    rw [Array.getElem?_modify]
    split
    · next hk =>
      subst hk
      cases hget : m.frames[f]? with
      | none => rfl
      | some fr =>
        have hfr : m.frame f = fr := by simp [frame, hget]
        rw [hfr] at hg
        exact congrArg some hg
    · rfl
  simp only [changeFrame, hframes]

/-! ## §2. Steps. -/

/-- One instruction leads from the machine `m` to `m'`, and neither has stopped. -/
structure Step (w : World) (m m' : Machine) : Prop where
  /-- The search was going on. -/
  active : m.Active
  /-- The instruction. -/
  advance_eq : m.advance w = m'
  /-- The search goes on. -/
  goes : m'.Active

/-- A run takes the step. -/
theorem Step.runFrom (h : Step w m m') (b t : Nat) : m.runFrom w (b + 1) t = m'.runFrom w b (t + 1) := by
  obtain ⟨⟨hasked, herror, hended, -⟩, hadvance, ⟨-, herror', hended', -⟩⟩ := h
  have hreport : m.step w = (⟨false, none⟩, m') := by
    simp only [Machine.step, herror, hasked, hended, hadvance, herror', hended']
    rfl
  conv_lhs => unfold Machine.runFrom
  rw [hreport]

/-- Instructions lead from the machine `m` to `m'`, and none of them stops it. -/
def Reaches (w : World) : Machine → Machine → Prop := ReflTransGen (Step w)

namespace Reaches

protected theorem refl (m : Machine) : Reaches w m m := ReflTransGen.refl

protected theorem trans (h : Reaches w m m') (h' : Reaches w m' m'') : Reaches w m m'' :=
  ReflTransGen.trans h h'

theorem single (h : Step w m m') : Reaches w m m' := ReflTransGen.single h

theorem active (h : Reaches w m m') (hm : m.Active) : m'.Active := by
  cases h with
  | refl => exact hm
  | tail _ hstep => exact hstep.goes

/-- **A run passes through what is reached, or its budget ends before.** -/
theorem budget (h : Reaches w m m') :
    ∃ n, (∀ b t, m.runFrom w (n + b) t = m'.runFrom w b (t + n)) ∧
      (∀ b t, b ≤ n → (m.runFrom w b t).1.status = .paused) ∧ (n = 0 → m' = m) := by
  induction h with
  | refl =>
    refine ⟨0, fun b t => by rw [Nat.zero_add, Nat.add_zero], fun b t hb => ?_, fun _ => rfl⟩
    rw [Nat.le_zero.1 hb, Machine.runFrom]
  | @tail m₁ m₂ _ hstep ih =>
    obtain ⟨n, hn, hpaused, -⟩ := ih
    refine ⟨n + 1, fun b t => ?_, fun b t hb => ?_, fun hzero => absurd hzero (Nat.succ_ne_zero n)⟩
    · rw [show n + 1 + b = n + (b + 1) by omega, hn, hstep.runFrom, Nat.add_assoc]
    · rcases Nat.le_succ_iff.1 hb with hb | rfl
      · exact hpaused b t hb
      · rw [hn 1 t, hstep.runFrom 0, Machine.runFrom]

/-- **A run passes through what is reached.** -/
theorem runFrom (h : Reaches w m m') :
    ∃ n, ∀ b t, m.runFrom w (n + b) t = m'.runFrom w b (t + n) := by
  obtain ⟨n, hn, -⟩ := h.budget
  exact ⟨n, hn⟩

end Reaches

/-- Without a limit there is time for everything. -/
theorem room_of_unlimited (hw : w.maxSteps ≤ 0) {n : Nat} : Room w n m :=
  fun hpos => absurd hpos (Int.not_lt.mpr hw)

/-- **The instruction that stands there is run.** -/
theorem At.step (h : At c label i m) (hblock : c.block? label = some block)
    (hi : block[i]? = some instr) (hroom : Room w 1 m) (hactive : m.Active)
    (heval : eval (execute w instr) (m.counted w instr) = (.ok (), m')) (hflags : Flags m m') :
    Step w m m' := by
  refine ⟨hactive, ?_, hflags.active hactive⟩
  rw [h.advance_eq hblock hi hroom, perform_eq, heval]

end Machine

end PrologMachine
