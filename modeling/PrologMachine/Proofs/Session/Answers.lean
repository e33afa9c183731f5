/-
  PrologMachine.Proofs.Session.Answers ── **THE ANSWERS OF A SEARCH.**

  A search shows the answers of its question one after the other and is then over.  Each of them
  leaves a machine, in which the variables of the question have their values.

    * `Solutions.Answers`: all runs of a search, with what the machines show.
    * `Machine.Replies.answers`: what the goals of a question answer, the search finds.
-/
import PrologMachine.Proofs.Machine.Replies
import PrologMachine.Proofs.Session.Slices

namespace PrologMachine

namespace Solutions

variable {α : Type} {w : World} {shows : α → Machine → Prop} {final : Machine → Prop}
  {q q' : Solutions} {as : List α}

/-- **All answers of a search.**  Each run shows one of them, in order, and the run behind the last
    finds that there are no more. -/
inductive Answers (w : World) (shows : α → Machine → Prop) (final : Machine → Prop) :
    Solutions → List α → Prop where
  /-- There are no answers left. -/
  | over {q q' : Solutions} {k : Nat} (h : Gives w .whole q ⟨.exhausted, k, none, none⟩ q')
      (hfinal : final q'.machine) : Answers w shows final q []
  /-- An answer, and those after it. -/
  | answer {q q' : Solutions} {k : Nat} {a : α} {as : List α}
      (h : Gives w .whole q ⟨.answer, k, some q'.machine.solution, none⟩ q')
      (ha : shows a q'.machine) (hrest : Answers w shows final q' as) :
      Answers w shows final q (a :: as)

/-- A search gives what the search gives that it goes on with. -/
theorem gives_of_prepared (h : q.prepared = .inl q') (hq' : q'.Poised) {s : Snapshot}
    {q₁ : Solutions} (hgives : Gives w .whole q' s q₁) : Gives w .whole q s q₁ := by
  obtain ⟨n, hrun, hs⟩ := (if_pos rfl).mp hgives
  refine (if_pos rfl).mpr ⟨n, ?_, hs⟩
  rw [run_eq, hq'.prepared] at hrun
  rw [run_eq, h]
  exact hrun

theorem Answers.of_prepared (h : q.prepared = .inl q') (hq' : q'.Poised)
    (hanswers : Answers w shows final q' as) : Answers w shows final q as := by
  cases hanswers with
  | «over» hgives hfinal => exact .over (gives_of_prepared h hq' hgives) hfinal
  | answer hgives ha hrest => exact .answer (gives_of_prepared h hq' hgives) ha hrest

/-- The search gives what its machine comes to. -/
theorem Poised.gives (hq : q.Poised) {m' : Machine} (h : Machine.Reaches w q.machine m')
    (hm : q.machine.Active) (hended : (m'.advance w).ended = true)
    (herror : (m'.advance w).error = none) :
    ∃ k, ∀ s q', q.concluded false (⟨(m'.advance w).status, k, none⟩, m'.advance w) = (s, q') →
      ¬ s.Suspended → Gives w .whole q s q' := by
  obtain ⟨n, hn⟩ := h.runFrom
  obtain ⟨hasked', herror', hended', -⟩ := h.active hm
  have hreport : m'.step w = (⟨true, none⟩, m'.advance w) := by
    simp [Machine.step, herror', hasked', hended', hended, herror]
  have hrun : q.machine.runFrom w (n + 1) 0 =
      (⟨(m'.advance w).status, n + 1, none⟩, m'.advance w) := by
    rw [hn]
    unfold Machine.runFrom
    rw [hreport, Nat.zero_add]
  refine ⟨n + 1, fun s q' hconcluded hs => (if_pos rfl).mpr ⟨n + 1, ?_, hs⟩⟩
  obtain ⟨-, -, hrunning, -⟩ := hm
  rw [hq.run_eq, if_neg (by simp [hrunning]), if_neg (by simp [Slice.whole]), hrun]
  exact hconcluded

end Solutions

namespace Machine

open Exec Solutions

variable {α : Type} {w : World} {shows : α → Machine → Prop} {final : Machine → Prop}
  {m m' : Machine} {as : List α} {ok : Bool}

/-! ## §2. The end of a question. -/

/-- The machine is about to end its question, whose last goal succeeded or failed. -/
structure Ending (ok : Bool) (m : Machine) : Prop where
  /-- It stands at the end. -/
  place : ∃ c label i block, At c label i m ∧ c.block? label = some block ∧
    block[i]? = some { op := .end_ }
  /-- How the last goal came out. -/
  success : m.success = ok
  /-- The question is run in its own frame. -/
  current : m.current = queryFrame
  /-- It has no pending alternatives. -/
  quiet : (m.frame queryFrame).alternatives = []

theorem Ending.advance_eq (h : Ending ok m) (hw : w.maxSteps ≤ 0) :
    m.advance w = (m.counted w { op := .end_ }).perform endQuery := by
  obtain ⟨c, label, i, block, hat, hblock, hi⟩ := h.place
  exact hat.advance_eq hblock hi (room_of_unlimited hw)

/-- Behind a goal that succeeded the machine shows an answer. -/
theorem Ending.answered (h : Ending true m) (hw : w.maxSteps ≤ 0) (hm : m.Active) :
    m.advance w = { m.counted w { op := .end_ } with ended := true } ∧
      (m.advance w).status = .answer := by
  obtain ⟨-, -, -, hmore⟩ := hm
  have hadvance : m.advance w = { m.counted w { op := .end_ } with ended := true } := by
    rw [h.advance_eq hw, perform_eq, eval_endQuery,
      if_pos (show (m.counted w { op := .end_ }).success = true from h.success)]
  refine ⟨hadvance, ?_⟩
  rw [hadvance]
  show (if m.exhausted then Status.exhausted else .answer) = .answer
  rw [hmore]
  rfl

/-- Behind one that failed for good there is nothing to go back to. -/
theorem Ending.exhausted (h : Ending false m) (hw : w.maxSteps ≤ 0)
    (htop : m.top? = some queryFrame) :
    m.advance w = { m.counted w { op := .end_ } with
      success := false, ended := true, exhausted := true } := by
  let m₁ : Machine := m.counted w { op := .end_ }
  have hfailed : ¬ m₁.success = true := by
    rw [show m₁.success = false from h.success]
    exact Bool.false_ne_true
  have hquiet : (m₁.frame m₁.current).alternatives = [] := by
    rw [show m₁.current = queryFrame from h.current]
    exact h.quiet
  have hback : eval Exec.backtrack { m₁ with success := false } =
      (.ok false, { m₁ with success := false }) := eval_backtrack_query htop
  rw [h.advance_eq hw, perform_eq, eval_endQuery, if_neg hfailed, eval_failure_quiet hquiet,
    eval_headFail, eval_backtrackOrEnd hback]
  rfl

/-! ## §3. Searches. -/

/-- **What the goals of a question answer, the search finds.**  The induction is on the answers: each
    run starts where the failure behind the last answer has resumed the machine. -/
theorem Replies.answers (hw : w.maxSteps ≤ 0)
    (hshows : ∀ a m₁ m₂, Matches m₁ m₂ → shows a m₁ → shows a m₂)
    (hfinal : ∀ m₁ m₂, Matches m₁ m₂ → final m₁ → final m₂)
    (h : Replies w (fun a m => Ending true m ∧ shows a m)
      (fun m => Ending false m ∧ m.top? = some queryFrame ∧ final m) m as) :
    ∀ {q : Solutions}, q.Poised → q.machine = m → m.Active → Answers w shows final q as := by
  induction h with
  | @done m m' hrun hdone =>
    intro q hq hqm hm
    obtain ⟨hend, htop, hlast⟩ := hdone
    have hadvance := hend.exhausted hw htop
    obtain ⟨-, herror, -, -⟩ := hrun.active hm
    subst hqm
    obtain ⟨k, hgives⟩ := hq.gives hrun hm (by rw [hadvance]) (by rw [hadvance]; exact herror)
    refine .over (k := k) (hgives _ ({ q with machine := m'.advance w }.finish none) ?_
      (by simp [Snapshot.Suspended])) ?_
    · have hstatus : (m'.advance w).status = .exhausted := by rw [hadvance]; rfl
      simp only [concluded, hstatus]
    · refine hfinal m' _ ?_ hlast
      rw [hadvance]
      exact ⟨rfl, rfl, rfl⟩
  | @answer m m' a as f r hrun ha hpoint _ ih =>
    intro q hq hqm hm
    obtain ⟨hend, hshown⟩ := ha
    have hm' := hrun.active hm
    obtain ⟨hadvance, hstatus⟩ := hend.answered hw hm'
    obtain ⟨hasked, herror, -, hmore⟩ := hm'
    subst hqm
    let q' : Solutions := { q with machine := m'.advance w, answered := true }
    obtain ⟨k, hgives⟩ := hq.gives hrun hm (by rw [hadvance]) (by rw [hadvance]; exact herror)
    -- The next search begins with a failure behind the answer.
    let m₁ : Machine := { m'.advance w with ended := false, success := false, steps := 0 }
    have hmatches : Matches m' m₁ := by
      simp only [m₁, hadvance]
      exact ⟨rfl, rfl, rfl⟩
    have hactive : m₁.Active := by
      simp only [m₁, hadvance]
      exact ⟨hasked, herror, rfl, hmore⟩
    have hquiet : (m₁.frame m₁.current).alternatives = [] := by
      have hcurrent : m₁.current = queryFrame := by
        simp only [m₁, hadvance]
        exact hend.current
      rw [hcurrent, hmatches.frame]
      exact hend.quiet
    have hpoint₁ := hpoint.of_matches hmatches
    have hresumed : m₁.perform failure = m₁.resumed f r := by
      rw [perform_eq, hpoint₁.eval_failure hquiet]
    have hgoes : (m₁.resumed f r).Active := hpoint₁.flags_resumed.active hactive
    have hredo : (m'.advance w).redo = (true, m₁.resumed f r) := by
      have hstopped : (!(m'.advance w).asked || (m'.advance w).error.isSome ||
          (m'.advance w).exhausted) = false := by
        rw [hadvance]
        simp [counted, hasked, herror, hmore]
      unfold redo
      rw [hstopped]
      simp only [Bool.false_eq_true, if_false]
      rw [hresumed]
      simp [hgoes.2.1, hgoes.2.2.2]
    let q₁ : Solutions := { q' with machine := m₁.resumed f r, answered := false }
    have hprepared : q'.prepared = .inl q₁ := by
      simp [Solutions.prepared, q', q₁, hq.open_, hredo]
    have hq₁ : q₁.Poised :=
      ⟨⟨hgoes.1, fun _ he => by simp [q₁, hgoes.2.1] at he⟩, hq.open_, rfl⟩
    refine .answer (k := k) (hgives _ q' ?_ (by simp [Snapshot.Suspended]))
      (hshows a m' _ ?_ hshown) (.of_prepared hprepared hq₁ (ih m₁ hmatches hactive hq₁ rfl hgoes))
    · simp only [concluded, hstatus]
      rfl
    · show Matches m' (m'.advance w)
      rw [hadvance]
      exact ⟨rfl, rfl, rfl⟩

end Machine

end PrologMachine
