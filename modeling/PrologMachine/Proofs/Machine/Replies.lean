/-
  PrologMachine.Proofs.Machine.Replies ── **THE ANSWERS OF A GOAL.**

  A goal is left with an answer or for good.  Behind an answer the clause goes on, and when it fails
  the most recent choice point is resumed, which lies inside the goal.  What the goal answers then
  depends on cells, frames and the stack only, and none of them has changed since.

    * `Machine.ChoicePoint`: the call that a failure resumes.
    * `Machine.Replies`: all answers of a goal, one after the other.
    * `Machine.Replies.map`: what follows a goal, where it leaves choice points alone.
-/
import PrologMachine.Proofs.Machine.Progress

namespace PrologMachine

namespace Machine

open Exec

variable {α β : Type} {w : World} {m m' m₁ m₂ : Machine} {f : FrameId} {r : ReturnPoint}

/-! ## §1. Choice points. -/

/-- The machines agree in all that outlives a failure. -/
structure Matches (m m' : Machine) : Prop where
  /-- The cells. -/
  heap : m'.heap = m.heap
  /-- The frames. -/
  frames : m'.frames = m.frames
  /-- The stack. -/
  stack : m'.stack = m.stack

namespace Matches

protected theorem refl (m : Machine) : Matches m m := ⟨rfl, rfl, rfl⟩

protected theorem trans (h : Matches m m₁) (h' : Matches m₁ m') : Matches m m' :=
  ⟨h'.heap.trans h.heap, h'.frames.trans h.frames, h'.stack.trans h.stack⟩

/-- Every frame is as before. -/
theorem frame (h : Matches m m') (f : FrameId) : m'.frame f = m.frame f := by
  simp only [Machine.frame, h.frames]

end Matches

/-- A clause without pending alternatives fails as a head does. -/
theorem eval_failure_quiet (hquiet : (m.frame m.current).alternatives = []) :
    eval failure m = eval headFail m := by
  have hnone : pruneAlternatives m.depth (m.frame m.current).alternatives = [] := by
    rw [hquiet]
    rfl
  have hsame : ({ m with success := false } : Machine).changeFrame m.current (fun fr =>
      { fr with alternatives := [] }) = { m with success := false } :=
    changeFrame_self (m := { m with success := false })
      (congrArg (fun as => ({ m.frame m.current with alternatives := as } : Frame)) hquiet.symm)
  rw [eval_failure_backtrack (by rw [hnone]; exact fun _ _ h => by cases h), hnone, hsame,
    ← Exec.eval_headFail]

/-- A failure goes back to the call of frame `f`, which returns to `r`. -/
structure ChoicePoint (m : Machine) (f : FrameId) (r : ReturnPoint) : Prop where
  /-- The frame is on top. -/
  top : m.top? = some f
  /-- It is the frame of a call. -/
  call : f ≠ queryFrame
  /-- No cut has removed it. -/
  uncut : (m.frame f).cutTo = none
  /-- Where the call returns to. -/
  point : (m.frame f).returnPoint = some r
  /-- The caller has the alternatives that it had at the call. -/
  caller : (m.frame r.frame).alternatives = r.alternatives

namespace ChoicePoint

/-- A choice point stays one while nothing is changed. -/
theorem of_matches (h : m.ChoicePoint f r) (hm : Matches m m') : m'.ChoicePoint f r where
  top := by
    rw [top?, hm.stack]
    exact h.top
  call := h.call
  uncut := by rw [hm.frame]; exact h.uncut
  point := by rw [hm.frame]; exact h.point
  caller := by rw [hm.frame]; exact h.caller

/-- The call is resumed without a change of frames. -/
theorem resumed_eq (h : m.ChoicePoint f r) : m.resumed f r =
    { m with
      code := r.code, label := r.label, index := r.index, current := r.frame, target := some f
      success := false } :=
  changeFrame_self (m := { m with
    code := r.code, label := r.label, index := r.index, current := r.frame, target := some f
    success := false }) (congrArg (fun as => ({ m.frame r.frame with alternatives := as } : Frame))
      h.caller.symm)

/-- Going back to a choice point changes no frame. -/
theorem matches_resumed (h : m.ChoicePoint f r) : Matches m (m.resumed f r) := by
  rw [h.resumed_eq]
  exact ⟨rfl, rfl, rfl⟩

/-- Going back to a choice point raises no flag. -/
theorem flags_resumed (h : m.ChoicePoint f r) : Flags m (m.resumed f r) := by
  rw [h.resumed_eq]
  exact ⟨rfl, rfl, rfl, rfl⟩

/-- A mismatch in a head goes back there. -/
theorem eval_headFail (h : m.ChoicePoint f r) :
    eval headFail m = (.ok (), m.resumed f r) := by
  have hpoint : ({ m with success := false } : Machine).ChoicePoint f r := h.of_matches ⟨rfl, rfl, rfl⟩
  rw [Exec.eval_headFail,
    eval_backtrackOrEnd (eval_backtrack_top hpoint.top hpoint.call hpoint.uncut hpoint.point)]
  rfl

/-- So does a failure in a clause without pending alternatives. -/
theorem eval_failure (h : m.ChoicePoint f r) (hquiet : (m.frame m.current).alternatives = []) :
    eval failure m = (.ok (), m.resumed f r) := by
  rw [eval_failure_quiet hquiet]
  exact h.eval_headFail

end ChoicePoint

/-! ## §2. Answers. -/

/-- The machine `m` comes to each of the answers in turn, a failure behind one leading to the next,
    and at last to a machine that is `done`.  Whatever stands behind the goal may run between an
    answer and the failure, as long as it leaves cells, frames and the stack as they are. -/
inductive Replies (w : World) (shows : α → Machine → Prop) (done : Machine → Prop) :
    Machine → List α → Prop where
  /-- There are no answers left. -/
  | done {m m' : Machine} (h : Reaches w m m') (hdone : done m') : Replies w shows done m []
  /-- An answer, and those after it. -/
  | answer {m m' : Machine} {a : α} {as : List α} {f : FrameId} {r : ReturnPoint}
      (h : Reaches w m m') (ha : shows a m') (hpoint : m'.ChoicePoint f r)
      (hrest : ∀ m₁, Matches m' m₁ → m₁.Active → Replies w shows done (m₁.resumed f r) as) :
      Replies w shows done m (a :: as)

namespace Replies

variable {shows : α → Machine → Prop} {shows' : β → Machine → Prop} {done done' : Machine → Prop}
  {a : α} {as : List α}

/-- What comes before a goal. -/
theorem before (h : Reaches w m m') (hm : Replies w shows done m' as) :
    Replies w shows done m as := by
  cases hm with
  | done hrun hdone => exact .done (h.trans hrun) hdone
  | answer hrun ha hpoint hrest => exact .answer (h.trans hrun) ha hpoint hrest

/-- Less is said of each answer and of the end. -/
theorem mono {shows' : α → Machine → Prop} (h : Replies w shows done m as)
    (hshows : ∀ a m₁, shows a m₁ → shows' a m₁) (hdone : ∀ m₁, done m₁ → done' m₁) :
    Replies w shows' done' m as := by
  induction h with
  | done hrun hend => exact .done hrun (hdone _ hend)
  | answer hrun ha hpoint _ ih => exact .answer hrun (hshows _ _ ha) hpoint ih

/-- **What comes behind a goal**: each answer of the goal leads to one of the whole, and its end to
    the end of the whole.  The induction is on the answers. -/
theorem map {g : α → β} (h : Replies w shows done m as)
    (hshows : ∀ a m₁, shows a m₁ → ∃ m₂, Reaches w m₁ m₂ ∧ Matches m₁ m₂ ∧ shows' (g a) m₂)
    (hdone : ∀ m₁, done m₁ → ∃ m₂, Reaches w m₁ m₂ ∧ done' m₂) :
    Replies w shows' done' m (as.map g) := by
  induction h with
  | done hrun hend =>
    obtain ⟨m₂, hrun', hend'⟩ := hdone _ hend
    exact .done (hrun.trans hrun') hend'
  | answer hrun ha hpoint _ ih =>
    obtain ⟨m₂, hrun', hmatches, ha'⟩ := hshows _ _ ha
    refine .answer (hrun.trans hrun') ha' (hpoint.of_matches hmatches) fun m₁ hm₁ hactive => ?_
    exact ih m₁ (hmatches.trans hm₁) hactive

end Replies

end Machine

end PrologMachine
