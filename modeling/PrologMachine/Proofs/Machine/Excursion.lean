/-
  PrologMachine.Proofs.Machine.Excursion ── **THE WAY THROUGH A NEGATED CALL.**

  A negated call runs on a frame of its own and on frames above it.  However long it runs, backtracks,
  cuts and calls further negations, it touches no frame below, and it comes back to the clause that made
  it.

    * `Touches d m m'`: frames with a place below `d` keep all but their variables and trails.
    * `Negating m₀ n f m`: the machine `m` is on its way through the negated call that `m₀` was about to
      push the frame `f` for.
    * `Negating.step`, `Continues.negating`: every step and every run keeps that, as long as the frame is
      on the stack.
-/
import PrologMachine.Proofs.Machine.Restoration
import PrologMachine.Proofs.Machine.Building

namespace PrologMachine

/-- A frame without its variables and its trail. -/
def Frame.core (fr : Frame) : Frame := { fr with vars := [], trail := [] }

namespace Machine

open Exec

variable {admits : Signature → Bool} {kb : KnowledgeBase} {q : Clause} {w : World}
  {m₀ m m' m'' : Machine} {f g : FrameId} {i : Instruction} {n d j k l : Nat} {r : ReturnPoint}

/-! ## §1. What happens above a place of the stack. -/

/-- Frames with a place below `d` keep all but their variables and trails.  No frame changes its place
    or where its call returns to. -/
structure Touches (d : Nat) (m m' : Machine) : Prop where
  /-- No frame gets lost. -/
  size : m.frames.size ≤ m'.frames.size
  /-- Places stay. -/
  place : ∀ f, f < m.frames.size → (m'.frame f).position = (m.frame f).position
  /-- Points of return stay. -/
  returns : ∀ f, f < m.frames.size → (m'.frame f).returnPoint = (m.frame f).returnPoint
  /-- So does the rest of a frame with a lower place. -/
  core : ∀ f, f < m.frames.size → (m.frame f).position < d → (m'.frame f).core = (m.frame f).core

namespace Touches

protected theorem trans (h : Touches d m m') (h' : Touches d m' m'') : Touches d m m'' where
  size := h.size.trans h'.size
  place f hf := (h'.place f (hf.trans_le h.size)).trans (h.place f hf)
  returns f hf := (h'.returns f (hf.trans_le h.size)).trans (h.returns f hf)
  core f hf hd := (h'.core f (hf.trans_le h.size) ((h.place f hf).trans_lt hd)).trans (h.core f hf hd)

/-- Variables and trails may change. -/
theorem of_frames (d : Nat) (hsize : m.frames.size ≤ m'.frames.size) (hframes : ∀ f, m'.frame f =
    { m.frame f with vars := (m'.frame f).vars, trail := (m'.frame f).trail }) : Touches d m m' where
  size := hsize
  place f _ := by rw [hframes f]
  returns f _ := by rw [hframes f]
  core f _ _ := by rw [Frame.core, hframes f]; rfl

/-- Fields that have nothing to do with frames. -/
theorem fields (d : Nat) (m' : Machine) (h : m'.frames = m.frames) : Touches d m m' := by
  have hframe : ∀ f, m'.frame f = m.frame f := fun f => by simp only [frame, h]
  exact .of_frames d (Nat.le_of_eq (by rw [h])) fun f => by rw [hframe]

/-- A quiet change touches nothing below. -/
theorem of_quiet (d : Nat) (h : Quiet n m m') : Touches d m m' :=
  .of_frames d (Nat.le_of_eq h.size.symm) h.frames

/-- A change of one frame, with a place that is not lower or of what may change. -/
theorem modify {d : Nat} (f : FrameId) (change : Frame → Frame)
    (hframes : m'.frames = m.frames.modify f change)
    (hplace : (change (m.frame f)).position = (m.frame f).position)
    (hreturns : (change (m.frame f)).returnPoint = (m.frame f).returnPoint)
    (hcore : d ≤ (m.frame f).position ∨ (change (m.frame f)).core = (m.frame f).core) : Touches d m m' := by
  have hframe : ∀ g, g < m.frames.size →
      m'.frame g = if g = f then change (m.frame f) else m.frame g := by
    intro g hg
    rw [frame_modify hframes]
    split
    · next heq =>
      subst heq
      exact frame_changeFrame_self hg
    · next hne => exact frame_changeFrame_of_ne hne
  -- The frame that changes is above the place, or keeps its core.
  refine ⟨by rw [hframes, Array.size_modify], fun g hg => ?_, fun g hg => ?_, fun g hg hd => ?_⟩
  · rw [hframe g hg]
    split
    · next heq => rw [heq, hplace]
    · rfl
  · rw [hframe g hg]
    split
    · next heq => rw [heq, hreturns]
    · rfl
  · rw [hframe g hg]
    split
    · next heq =>
      subst heq
      exact hcore.resolve_left (Nat.not_le.2 hd)
    · rfl

/-- Undoing a trail touches nothing below. -/
theorem unwound (d : Nat) (f : FrameId) (mark : Nat) : Touches d m (m.unwound f mark) :=
  .modify f (fun fr => { fr with trail := (m.frame f).trail.drop ((m.frame f).trail.length - mark) }) rfl rfl
    rfl (.inr rfl)

theorem poppedMany (d n : Nat) : Touches d m (m.poppedMany n) :=
  .of_frames d (Settles.poppedMany n).size fun f => by rw [frame_poppedMany]

theorem popped (d : Nat) : Touches d m m.popped := poppedMany d 1

theorem pushed (d : Nat) : Touches d m m.pushed := by
  have hframe : ∀ f, f < m.frames.size → m.pushed.frame f = m.frame f := fun f hf =>
    frame_pushed_of_ne (Nat.ne_of_lt hf)
  exact ⟨by simp [Machine.pushed], fun f hf => by rw [hframe f hf], fun f hf => by rw [hframe f hf],
    fun f hf _ => by rw [hframe f hf]⟩

end Touches

theorem Furnishes.touches (d : Nat) (h : Furnishes m m') : Touches d m m' where
  size := Nat.le_of_eq h.size.symm
  place f _ := by simpa using congrArg Frame.position (h.frames f)
  returns f _ := by simpa using congrArg Frame.returnPoint (h.frames f)
  core f _ _ := congrArg (fun fr : Frame => { fr with trail := [] }) (h.frames f)

/-- A frame with a place above the bottom exists. -/
theorem lt_of_position (h : 0 < (m.frame f).position) : f < m.frames.size := by
  by_contra hf
  rw [frame, Array.getElem?_eq_none (Nat.le_of_not_lt hf)] at h
  exact Nat.lt_irrefl 0 h

/-! ## §2. On the way through a negated call. -/

/-- The point behind a call whose goal takes `n` instructions to build, seen from its `allocate`. -/
def behindCall (m₀ : Machine) (n : Nat) : ReturnPoint where
  code := m₀.code
  label := m₀.label
  index := m₀.index + 1 + n + 2
  frame := m₀.current
  alternatives := (m₀.frame m₀.current).alternatives

/-- The search goes on in the clause of `m₀`, at instruction `j`, with the frame `f` for its call. -/
structure Calling (m₀ : Machine) (f : FrameId) (j : Nat) (m : Machine) : Prop where
  /-- The clause. -/
  code : m.code = m₀.code
  /-- The block. -/
  label : m.label = m₀.label
  /-- The next instruction. -/
  index : m.index = j
  /-- The frame of the clause. -/
  current : m.current = m₀.current
  /-- The frame of the call. -/
  target : m.target = some f
  /-- The search is not over. -/
  ended : m.ended = false

/-- How far a negated call has come that the machine `m₀` was about to push the frame `f` for. -/
inductive Stage (m₀ : Machine) (n : Nat) (f : FrameId) (m : Machine) : Prop where
  /-- The goal is being built. -/
  | building {k : Nat} (hk : k ≤ n) (h : Calling m₀ f (m₀.index + 1 + k) m)
  /-- The call is set up. -/
  | ready (h : Calling m₀ f (m₀.index + 1 + n + 1) m)
    (hr : (m.frame f).returnPoint = some (behindCall m₀ n))
  /-- A clause runs that was called from there, or from such a clause. -/
  | inside (h : m₀.depth ≤ (m.frame m.current).position)
    (hr : (m.frame f).returnPoint = some (behindCall m₀ n))
  /-- The call has returned. -/
  | returned (h : Calling m₀ f (m₀.index + 1 + n + 2) m)
    (hr : (m.frame f).returnPoint = some (behindCall m₀ n))

/-- The machine `m` is on its way through the negated call that `m₀` was about to push the frame `f` for. -/
structure Negating (m₀ : Machine) (n : Nat) (f : FrameId) (m : Machine) : Prop where
  /-- There are no fewer frames. -/
  size : m₀.frames.size ≤ m.frames.size
  /-- The frame of the call knows its place. -/
  place : (m.frame f).position = m₀.depth
  /-- So does every frame of the stack. -/
  placed : ∀ (k : Nat) g, m.stack[k]? = some g → (m.frame g).position = k
  /-- Frames below keep all but their variables and trails. -/
  below : ∀ g, g < m₀.frames.size → (m₀.frame g).position < m₀.depth → (m.frame g).core = (m₀.frame g).core
  /-- Calls above return there. -/
  above : ∀ (k : Nat) g r, m₀.depth < k → m.stack[k]? = some g → (m.frame g).returnPoint = some r →
    m₀.depth ≤ (m.frame r.frame).position
  /-- How far the call has come. -/
  stage : Stage m₀ n f m

/-- What holds of the machine that is about to push the frame. -/
structure Caller (m₀ : Machine) : Prop where
  /-- There is a frame. -/
  depth : 0 < m₀.depth
  /-- The frame of the clause exists. -/
  lt : m₀.current < m₀.frames.size
  /-- It knows its place. -/
  place : (m₀.frame m₀.current).position < m₀.depth

namespace Negating

/-- The frame of the call exists. -/
theorem lt (h : Negating m₀ n f m) (hc : Caller m₀) : f < m.frames.size :=
  lt_of_position (by rw [h.place]; exact hc.depth)

/-- A frame of the stack that is not below the call has no lower place. -/
theorem top_place (h : Negating m₀ n f m) (hf : m.stack[m₀.depth]? = some f) (ht : m.top? = some g) :
    m₀.depth ≤ (m.frame g).position := by
  have hd : m₀.depth < m.depth := (Array.getElem?_eq_some_iff.1 hf).1
  rw [h.placed _ g (top?_eq_getElem? ▸ ht)]
  omega

/-- A change above the caller keeps all but the stage. -/
theorem touches (h : Negating m₀ n f m) (hc : Caller m₀) (hm : m.Memory) (ht : Touches m₀.depth m m')
    (hstack : ∀ (k : Nat) g, m'.stack[k]? = some g → m.stack[k]? = some g) (hstage : Stage m₀ n f m') :
    Negating m₀ n f m' where
  size := h.size.trans ht.size
  place := (ht.place f (h.lt hc)).trans h.place
  placed k g hg := by
    have hold := hstack k g hg
    exact (ht.place g (hm.lt_of_getElem? hold)).trans (h.placed k g hold)
  below g hg hd := by
    have hcore := h.below g hg hd
    have hplace : (m.frame g).core.position = (m₀.frame g).core.position := congrArg Frame.position hcore
    exact (ht.core g (hg.trans_le h.size) (hplace.trans_lt hd)).trans hcore
  above k g r hk hg hr := by
    have hold := hstack k g hg
    rw [ht.returns g (hm.lt_of_getElem? hold)] at hr
    have hin := h.above k g r hk hold hr
    rw [ht.place r.frame (lt_of_position (hc.depth.trans_le hin))]
    exact hin
  stage := hstage

/-- The running clause goes on inside. -/
theorem goesOn (h : Negating m₀ n f m) (hc : Caller m₀) (hm : m.Memory)
    (hin : m₀.depth ≤ (m.frame m.current).position)
    (hr : (m.frame f).returnPoint = some (behindCall m₀ n)) (ht : Touches m₀.depth m m')
    (hstack : ∀ (k : Nat) g, m'.stack[k]? = some g → m.stack[k]? = some g)
    (hcurrent : m'.current = m.current) : Negating m₀ n f m' := by
  refine h.touches hc hm ht hstack (.inside ?_ ?_)
  · rw [hcurrent, ht.place _ (lt_of_position (hc.depth.trans_le hin))]
    exact hin
  · rw [ht.returns f (h.lt hc), hr]

end Negating

/-! ## §3. Inside the call. -/

/-- Popping does not change the current frame. -/
theorem current_poppedMany (n : Nat) (m : Machine) : (m.poppedMany n).current = m.current := by
  rw [poppedMany_fields]

theorem ended_poppedMany (n : Nat) (m : Machine) : (m.poppedMany n).ended = m.ended := by
  rw [poppedMany_fields]

/-- A machine inside the call, between two moves. -/
structure Inside (m₀ : Machine) (n : Nat) (f : FrameId) (m : Machine) : Prop extends Negating m₀ n f m where
  /-- The caller. -/
  caller : Caller m₀
  /-- The memory is in shape. -/
  memory : m.Memory
  /-- The running clause is not below the call. -/
  inside : m₀.depth ≤ (m.frame m.current).position
  /-- The call returns to its caller. -/
  returns : (m.frame f).returnPoint = some (behindCall m₀ n)

namespace Inside

/-- The running clause goes on inside. -/
theorem goesOn (h : Inside m₀ n f m) (ht : Touches m₀.depth m m')
    (hstack : ∀ (k : Nat) g, m'.stack[k]? = some g → m.stack[k]? = some g)
    (hcurrent : m'.current = m.current) : Negating m₀ n f m' :=
  h.toNegating.goesOn h.caller h.memory h.inside h.returns ht hstack hcurrent

/-- It goes on inside after a change that leaves the memory in shape. -/
theorem next (h : Inside m₀ n f m) (hm : m'.Memory) (ht : Touches m₀.depth m m')
    (hstack : ∀ (k : Nat) g, m'.stack[k]? = some g → m.stack[k]? = some g)
    (hcurrent : m'.current = m.current) : Inside m₀ n f m' where
  toNegating := h.goesOn ht hstack hcurrent
  caller := h.caller
  memory := hm
  inside := by
    rw [hcurrent, ht.place _ (lt_of_position (h.caller.depth.trans_le h.inside))]
    exact h.inside
  returns := (ht.returns f (h.lt h.caller)).trans h.returns

/-- A tame change stays inside. -/
theorem quiet (h : Inside m₀ n f m) (ht : Tame d m m') : Inside m₀ n f m' :=
  h.next ht.memory (.of_quiet _ ht.quiet) (fun _ _ hg => ht.quiet.stack ▸ hg) ht.quiet.current

/-- The call of the frame on top returns as failed. -/
theorem resumed (h : Inside m₀ n f m) (hended : m.ended = false) (hf : m.stack[m₀.depth]? = some f)
    (ht : m.top? = some g) (hr : (m.frame g).returnPoint = some r) : Negating m₀ n f (m.resumed g r) := by
  have htop : m.stack[m.depth - 1]? = some g := top?_eq_getElem? ▸ ht
  have hd : m₀.depth < m.depth := (Array.getElem?_eq_some_iff.1 hf).1
  have hreturns : ∀ g', ((m.resumed g r).frame g').returnPoint = (m.frame g').returnPoint := fun g' =>
    frame_resumed_field Frame.returnPoint fun _ _ => rfl
  by_cases hgf : g = f
  · -- The negated call itself returns: its caller has the same alternatives still.
    subst hgf
    obtain rfl := Option.some.inj (hr.symm.trans h.returns)
    have hcore := h.below m₀.current h.caller.lt h.caller.place
    have halternatives : (m.frame m₀.current).core.alternatives = (m₀.frame m₀.current).core.alternatives :=
      congrArg Frame.alternatives hcore
    refine h.touches h.caller h.memory (.modify m₀.current
      (fun fr => { fr with alternatives := (m₀.frame m₀.current).alternatives }) rfl rfl rfl (.inr ?_))
      (fun _ _ hg => hg) (.returned ⟨rfl, rfl, rfl, rfl, rfl, hended⟩ ((hreturns g).trans h.returns))
    exact congrArg (fun as => { (m.frame m₀.current).core with alternatives := as }) halternatives.symm
  · -- Another call returns to a clause above.
    have hlt : m₀.depth < m.depth - 1 := by
      by_contra hle
      rw [show m.depth - 1 = m₀.depth by omega] at htop
      exact hgf (Option.some.inj (htop.symm.trans hf))
    have hin := h.above _ g r hlt htop hr
    have htouches : Touches m₀.depth m (m.resumed g r) := .modify r.frame
      (fun fr => { fr with alternatives := r.alternatives }) rfl rfl rfl (.inl hin)
    refine h.touches h.caller h.memory htouches (fun _ _ hg => hg)
      (.inside ?_ ((hreturns f).trans h.returns))
    show m₀.depth ≤ ((m.resumed g r).frame r.frame).position
    rw [htouches.place _ (lt_of_position (h.caller.depth.trans_le hin))]
    exact hin

/-- Going back. -/
theorem backs (h : Inside m₀ n f m) (hended : m.ended = false) (hback : Backs m m')
    (hf : m.stack[m₀.depth]? = some f) (hf' : m'.stack[m₀.depth]? = some f) : Negating m₀ n f m' := by
  cases hback with
  | spent ht => exact h.goesOn (.fields _ _ rfl) (fun _ _ hg => hg) rfl
  | top ht hq hcut hr => exact h.resumed hended hf ht hr
  | cutQuery ht hq hcut ht' =>
    exact h.goesOn ((Touches.poppedMany _ _).trans (.fields _ _ rfl)) (Settles.poppedMany _).stack
      (current_poppedMany _ m)
  | @cut f₁ f₂ b r ht hq hcut ht' hq' hr =>
    let m₁ := m.poppedMany (m.depth - 1 - b)
    -- The frames above go first, then the mark, and the frame below returns.
    have hf₁ : m₁.stack[m₀.depth]? = some f := hf'
    have h₁ : Inside m₀ n f m₁ := h.next (h.memory.poppedMany _) (.poppedMany _ _) (Settles.poppedMany _).stack
      (current_poppedMany _ m)
    have h₂ : Inside m₀ n f (m₁.changeFrame f₂ (fun fr => { fr with cutTo := none })) :=
      h₁.next (h₁.memory.changeFrame (by intro; rfl) (by intro; rfl))
        (.modify f₂ (fun fr => { fr with cutTo := none }) rfl rfl rfl (.inl (h₁.top_place hf₁ ht')))
        (fun _ _ hg => hg) rfl
    refine h₂.resumed ?_ hf₁ ht' ?_
    · exact (ended_poppedMany _ m).trans hended
    · rw [frame_changeFrame_field Frame.returnPoint (by intro; rfl), frame_poppedMany]
      exact hr

/-- Failing. -/
theorem fails (h : Inside m₀ n f m) (hended : m.ended = false) (hfails : Fails m m')
    (hf : m.stack[m₀.depth]? = some f) (hf' : m'.stack[m₀.depth]? = some f) : Negating m₀ n f m' := by
  cases hfails with
  | @alternative f₁ a rest ht has ha =>
    refine h.goesOn (((Touches.modify m.current (fun fr => { fr with alternatives := rest }) rfl rfl rfl
      (.inl h.inside)).trans (.unwound _ f₁ a.mark)).trans (.fields _ _ rfl)) (fun _ _ hg => hg) rfl
  | back has hback =>
    have h₁ : Inside m₀ n f m.pruned := h.next h.memory.pruned
      (.modify m.current (fun fr => { fr with
        alternatives := pruneAlternatives m.depth (m.frame m.current).alternatives }) rfl rfl rfl
      (.inl h.inside))
      (fun _ _ hg => hg) rfl
    exact h₁.backs hended hback hf hf'

end Inside

namespace Inside

/-- A call is entered or answered. -/
theorem invokes (h : Inside m₀ n f m) (hinvokes : Invokes w m m') (hf : m.stack[m₀.depth]? = some f) :
    Negating m₀ n f m' := by
  have htouches : ∀ {g}, m.top? = some g → ∀ goal count, Touches m₀.depth m (m.called g goal count) :=
    fun {g} ht goal count => .modify g (fun fr => { fr with
      vars := [("$x0", goal)], alternatives := [], cutTo := none, clauses := count }) rfl rfl rfl
      (.inl (h.top_place hf ht))
  cases hinvokes with
  | @enters g s cs c htarget ht =>
    have ht' : Touches m₀.depth m ((m.called g (.struct s) cs.length).entered g c) :=
      (htouches ht _ _).trans (.fields _ _ rfl)
    have hin := h.top_place hf ht
    refine h.touches h.caller h.memory ht' (fun _ _ hg => hg) (.inside ?_ ?_)
    · show m₀.depth ≤ (((m.called g (.struct s) cs.length).entered g c).frame g).position
      rw [ht'.place g (lt_of_position (h.caller.depth.trans_le hin))]
      exact hin
    · rw [ht'.returns f (h.lt h.caller), h.returns]
  | responds htarget ht hcut hcommitted hr htame =>
    exact h.goesOn (((htouches ht _ _).trans (.of_quiet _ htame.quiet)).trans (.fields _ _ rfl))
      (fun _ _ hg => htame.quiet.stack ▸ hg) htame.quiet.current

/-- A frame is pushed. -/
theorem pushes (h : Inside m₀ n f m) : Negating m₀ n f m.pushed := by
  have ht : Touches m₀.depth m m.pushed := .pushed _
  have hin : m₀.depth ≤ (m.pushed.frame m.current).position := by
    rw [ht.place _ (lt_of_position (h.caller.depth.trans_le h.inside))]
    exact h.inside
  exact {
    size := h.size.trans ht.size
    place := (ht.place f (h.lt h.caller)).trans h.place
    -- The frame that is pushed is above the negated call and has no return point yet.
    placed := fun k g hg => by
      rcases stack_of_pushed h.memory hg with ⟨hold, heq⟩ | ⟨rfl, rfl⟩
      · rw [heq]
        exact h.placed k g hold
      · rw [frame_pushed_self]
    below := fun g hg hd => by
      rw [frame_pushed_of_ne (Nat.ne_of_lt (hg.trans_le h.size))]
      exact h.below g hg hd
    above := fun k g r hk hg hr => by
      rcases stack_of_pushed h.memory hg with ⟨hold, heq⟩ | ⟨rfl, rfl⟩
      · rw [heq] at hr
        have hlow := h.above k g r hk hold hr
        rw [ht.place _ (lt_of_position (h.caller.depth.trans_le hlow))]
        exact hlow
      · rw [frame_pushed_self] at hr
        cases hr
    stage := .inside hin ((ht.returns f (h.lt h.caller)).trans h.returns) }

/-- The call of the frame on top, which has not been called before, is set up. -/
theorem setsUp (h : Inside m₀ n f m) (hf : m.stack[m₀.depth]? = some f) (ht : m.top? = some g)
    (huntried : Untried m g) : Negating m₀ n f (m.readied g) := by
  -- The negated call returns somewhere, so it is not the frame that is set up.
  have hne : f ≠ g := by
    rintro rfl
    have hnone : (m.frame f).returnPoint = none := by rw [huntried]
    rw [h.returns] at hnone
    cases hnone
  have hplace : ∀ g', ((m.readied g).frame g').position = (m.frame g').position := fun g' =>
    frame_changeFrame_field Frame.position (by intro; rfl)
  have hin : m₀.depth ≤ ((m.readied g).frame m.current).position := by
    rw [hplace]
    exact h.inside
  exact {
    size := h.size.trans (Nat.le_of_eq frames_size_changeFrame.symm)
    place := (hplace f).trans h.place
    placed := fun k g' hg' => (hplace g').trans (h.placed k g' hg')
    below := fun g' hg' hd => by
      have hcore := h.below g' hg' hd
      have hne' : g' ≠ g := by
        rintro rfl
        have hlow := h.top_place hf ht
        have hsame : (m.frame g').core.position = (m₀.frame g').core.position := congrArg Frame.position hcore
        exact Nat.not_le.2 hd (hlow.trans (Nat.le_of_eq hsame))
      rw [readied, frame_changeFrame_of_ne hne']
      exact hcore
    above := fun k g' r hk hg' hr => by
      rw [hplace]
      by_cases hgg : g' = g
      · -- The new call returns to the running clause.
        subst hgg
        rw [readied, frame_changeFrame_self (h.memory.lt_of_top? ht)] at hr
        obtain rfl := Option.some.inj hr
        exact h.inside
      · rw [readied, frame_changeFrame_of_ne hgg] at hr
        exact h.above k g' r hk hg' hr
    stage := .inside hin (by rw [readied, frame_changeFrame_of_ne hne]; exact h.returns) }

/-- The running clause returns. -/
theorem leaves (h : Inside m₀ n f m) (hended : m.ended = false) (hf : m.stack[m₀.depth]? = some f)
    (hr : (m.frame m.current).returnPoint = some r) (hcurrent : ∃ l : Nat, m.stack[l]? = some m.current) :
    Negating m₀ n f { m with
      code := r.code, label := r.label, index := r.index, target := some m.current, current := r.frame } := by
  refine h.touches h.caller h.memory (.fields _ _ rfl) (fun _ _ hg => hg) ?_
  by_cases hcf : m.current = f
  · rw [hcf] at hr ⊢
    obtain rfl := Option.some.inj (hr.symm.trans h.returns)
    exact .returned ⟨rfl, rfl, rfl, rfl, rfl, hended⟩ h.returns
  · obtain ⟨l, hl⟩ := hcurrent
    have hplace := h.placed l _ hl
    have hin := h.inside
    have hlt : m₀.depth < l := by
      rcases Nat.lt_or_ge m₀.depth l with hlt | hge
      · exact hlt
      · obtain rfl : l = m₀.depth := by omega
        exact (hcf (Option.some.inj (hl.symm.trans hf))).elim
    exact .inside (h.above l _ r hlt hl hr) h.returns

/-- **A move inside the call.** -/
theorem moves (h : Inside m₀ n f m) (hended : m.ended = false) (hmove : Moves w i m m')
    (hf : m.stack[m₀.depth]? = some f) (hf' : m'.stack[m₀.depth]? = some f) : Negating m₀ n f m' := by
  have hsame : ∀ (k : Nat) g, m.stack[k]? = some g → m.stack[k]? = some g := fun _ _ hg => hg
  -- By moves; each acts on the frame on top or on the current one, and both are above the caller.
  cases hmove with
  | stays k ht hindex => exact (h.quiet ht).toNegating
  | @mismatches m₁ _ ht hback =>
    have h₁ := h.quiet ht
    have h₂ : Inside m₀ n f { m₁ with success := false } :=
      h₁.next (h₁.memory.of_eq rfl rfl rfl fun _ => ⟨rfl, rfl⟩) (.fields _ _ rfl) (fun _ _ hg => hg) rfl
    have hview := congrArg View.ended ht.quiet.view
    exact h₂.backs (hview.trans hended) hback (ht.quiet.stack ▸ hf) hf'
  | fails ht hfails =>
    have hview := congrArg View.ended ht.quiet.view
    exact (h.quiet ht).fails (hview.trans hended) hfails (ht.quiet.stack ▸ hf) hf'
  | allocates => exact h.pushes
  | setsUp htarget ht huntried => exact h.setsUp hf ht huntried
  | invokes hinvokes => exact h.invokes hinvokes hf
  | @retries g hs htarget ht hcut hcommitted hmore =>
    have h₁ : Inside m₀ n f (m.unwound g 0) :=
      h.next (h.memory.unwound ht 0) (.unwound _ _ _) hsame rfl
    exact h₁.goesOn (.modify g (fun fr => { fr with clause := fr.clause + 1 }) rfl rfl rfl
      (.inl (h₁.top_place hf ht))) hsame rfl
  | givesUp hs htarget ht hcut hmore => exact h.goesOn (.unwound _ _ _) hsame rfl
  | denies hs htarget hk hg hi =>
    exact h.goesOn ((Touches.poppedMany _ _).trans (.fields _ _ rfl)) (Settles.poppedMany _).stack
      (current_poppedMany _ m)
  | @affirms g hs htarget ht hcut =>
    exact h.goesOn (((Touches.unwound _ g 0).trans (.popped _)).trans (.fields _ _ rfl))
      (Settles.poppedMany (m := m.unwound g 0) 1).stack (current_poppedMany 1 (m.unwound g 0))
  | drops hs htarget ht hq hcut =>
    have hfree : Touches m₀.depth m { m with target := none } := .fields _ _ rfl
    exact h.goesOn (hfree.trans (.popped _))
      (Settles.poppedMany (m := { m with target := none }) 1).stack
      (current_poppedMany 1 { m with target := none })
  | @records g hi ht =>
    exact h.goesOn (.modify m.current (fun fr => { fr with
      alternatives := ⟨i.label, m.depth, (m.frame g).trail.length⟩ :: fr.alternatives }) rfl rfl rfl
      (.inl h.inside)) hsame rfl
  | prunes =>
    exact h.goesOn (.modify m.current (fun fr => { fr with
      alternatives := pruneAlternatives m.depth fr.alternatives }) rfl rfl rfl (.inl h.inside)) hsame rfl
  | jumps label => exact h.goesOn (.fields _ _ rfl) hsame rfl
  | returns hs hq hr hcaller =>
    obtain ⟨-, l, -, -, hl⟩ := hcaller
    exact h.leaves hended hf hr ⟨l, hl⟩
  | answers hs => exact h.goesOn (.fields _ _ rfl) hsame rfl
  | @cuts g hi ht hplace =>
    have ht₁ : Touches m₀.depth m (m.changeFrame g (fun fr =>
        { fr with cutTo := lowerMark (m.frame m.current).position fr.cutTo })) :=
      .modify g (fun fr => { fr with cutTo := lowerMark (m.frame m.current).position fr.cutTo }) rfl rfl rfl
        (.inl (h.top_place hf ht))
    have h₁ := h.next (h.memory.changeFrame (by intro; rfl) (by intro; rfl)) ht₁ hsame rfl
    exact h₁.goesOn (.modify m.current (fun fr => { fr with committed := true, alternatives := [] }) rfl rfl rfl
      (.inl h₁.inside)) hsame rfl

end Inside

/-! ## §4. Asking for the outcome. -/

/-- A negated call that has returned is tried again, or its outcome is inverted and its frames are popped. -/
theorem eval_maybeRetryN_returned {s : Signature} {c : Clause} {p' : Phase}
    (hf : Fetched admits kb q m c j (.returned s) i p') (htarget : m.target = some f) :
    (m.success = false ∧ eval maybeRetryN m = (.ok (), { m.unwound f 0 with
        index := m.index - 2 }.changeFrame f (fun fr => { fr with clause := fr.clause + 1 }))) ∨
      ∃ m₁, (m₁ = m ∨ m.top? = some f ∧ m₁ = m.unwound f 0) ∧ eval maybeRetryN m =
        (.ok (), { m₁.poppedMany (m.depth - (m.frame f).position) with
          target := none, success := !m.success }) := by
  obtain ⟨k, f', r, l, hk, hfk, hfq, htarget', hj, hbehind, hp, htop⟩ := hf.fits.returned
  obtain rfl := Option.some.inj (htarget.symm.trans htarget')
  have hkd : k < m.depth := (Array.getElem?_eq_some_iff.1 hfk).1
  have hmax : max k 1 = k := Nat.max_eq_left hk
  rw [hp.place]
  -- The call has succeeded, so its frames are popped.
  cases hs : m.success with
  | true =>
    have hpop : eval (popTo (m.frame f).position) m = (.ok (), m.poppedMany (m.depth - k)) := by
      rw [eval_popTo, hp.place, hmax]
      exact eval_popMany _ hf.memory (by omega)
    have hsuccess : (m.poppedMany (m.depth - k)).success = true := by
      rw [poppedMany_fields]
      exact hs
    exact .inr ⟨m, .inl rfl, eval_maybeRetryN_success hs htarget hpop hsuccess⟩
  | false =>
    -- The call has failed; it goes on with another clause, or its frame is popped.
    obtain ⟨ht, rfl, hcut⟩ := htop hs
    have hretry := eval_retry (hf.memory.unwindable ht)
    by_cases hmore : (m.frame f).committed = false ∧ (m.frame f).clause + 1 < (m.frame f).clauses
    · simp only [if_pos hmore] at hretry
      exact .inl ⟨rfl, eval_maybeRetryN_retry hs htarget hretry⟩
    · simp only [if_neg hmore] at hretry
      let m₁ := m.unwound f 0
      have hplace : (m₁.frame f).position = m.depth - 1 :=
        (congrArg Frame.position (frame_unwound_self (hf.memory.lt_of_top? ht) 0)).trans hp.place
      have hpop : eval (popTo (m₁.frame f).position) m₁ =
          (.ok (), m₁.poppedMany (m.depth - (m.depth - 1))) := by
        rw [eval_popTo, hplace, hmax]
        exact eval_popMany _ (hf.memory.unwound ht 0) (by show m.depth - (m.depth - 1) < m.depth; omega)
      have hsuccess : (m₁.poppedMany (m.depth - (m.depth - 1))).success = false := by
        rw [poppedMany_fields]
        exact hs
      exact .inr ⟨m₁, .inr ⟨ht, rfl⟩, eval_maybeRetryN_failure hs htarget hretry hpop hsuccess⟩

/-! ## §5. The instructions of the caller. -/

/-- The block `block` of `c` calls a negated goal where the machine `m₀` is: it takes `n` instructions to build
    the goal, and the outcome is asked for with `o`. -/
structure CallsNegated (c : Clause) (block : Code) (n : Nat) (o : Instruction) (m₀ : Machine) : Prop
    extends CallCode block (m₀.index + 1) n o where
  /-- The clause. -/
  code : m₀.code = some c
  /-- The block. -/
  found : c.block? m₀.label = some block
  /-- The outcome is inverted. -/
  negated : o.op = .maybeRetryN

/-- The caller's instruction is fetched while the call is prepared. -/
theorem CallsNegated.fetch {c : Clause} {block : Code} {o : Instruction} (h : CallsNegated c block n o m₀)
    (hm : Calling m₀ f j m) (hi : block[j]? = some i) : m.fetch = .ok i := by
  simp only [Machine.fetch, hm.code, h.code, hm.label, h.found, hm.index, hi]

/-- A step of a search without an error carries out an instruction that its phase allows. -/
theorem Search.fetched (h : Search kb l m) (hactive : m.Active) (herror : (m.step w).2.error = none) :
    ∃ q c p i p', m.fetch = .ok i ∧
      Fetched everything kb.compiled q (m.counted w i) c m.index p i p' ∧
      (m.step w).2 = (m.counted w i).perform (execute w i) := by
  obtain ⟨q, hset, horderly⟩ := h.orderly hactive.1 hactive.2.1
  cases horderly with
  | @running c p _ hm hcode hat hfit =>
    obtain ⟨i, p', hi, hfetched⟩ := exists_fetched hset hactive hm hcode hat hfit
    exact ⟨q, c, p, i, p', hi, hfetched w, step_performed hactive hi herror⟩
  | headless hquery _ _ hcode hlabel hhead =>
    have hblock := block?_headless hlabel hhead
    rw [step_of_active hactive] at herror
    simp [Machine.advance, fetch, hcode, hblock, fault_eq hactive.2.1] at herror
  | answered _ _ hended =>
    rw [hactive.2.2.1] at hended
    cases hended
  | exhausted _ _ hended =>
    rw [hactive.2.2.1] at hended
    cases hended

namespace Negating

/-- The goal is built further. -/
theorem builds (h : Negating m₀ n f m) (hc : Caller m₀) (hm : m.Memory) (hk : k < n)
    (hcalling : Calling m₀ f (m₀.index + 1 + k) m) (hfurnishes : Furnishes (m.counted w i) m') :
    Negating m₀ n f m' := by
  have hfields : m' = _ := hfurnishes.fields
  have hcounted : Touches m₀.depth m (m.counted w i) := .fields _ _ rfl
  refine h.touches hc hm (hcounted.trans (hfurnishes.touches _)) (fun k g hg => ?_)
    (.building (Nat.succ_le_of_lt hk) ⟨?_, ?_, ?_, ?_, ?_, ?_⟩)
  -- The instruction changes the heap and the frame that is built, and goes on to the next one.
  · rw [hfields] at hg
    exact hg
  · rw [hfields]
    exact hcalling.code
  · rw [hfields]
    exact hcalling.label
  · rw [hfields]
    exact congrArg (· + 1) hcalling.index
  · rw [hfields]
    exact hcalling.current
  · rw [hfields]
    exact hcalling.target
  · rw [hfields]
    exact hcalling.ended

/-- The call is set up: it will return behind the call that follows. -/
theorem setsUp (h : Negating m₀ n f m) (hc : Caller m₀) (hcalling : Calling m₀ f (m₀.index + 1 + n) m) :
    Negating m₀ n f ((m.counted w i).readied f) := by
  let m₁ := m.counted w i
  have hplace : ∀ g, ((m₁.readied f).frame g).position = (m.frame g).position := fun g =>
    frame_changeFrame_field Frame.position (by intro; rfl)
  have hother : ∀ {g}, g ≠ f → (m₁.readied f).frame g = m.frame g := fun hne => frame_changeFrame_of_ne hne
  -- The call returns behind itself, with the alternatives that the caller had.
  have hpoint : m₁.callPoint = behindCall m₀ n := by
    have hcore := h.below m₀.current hc.lt hc.place
    have halternatives : (m.frame m₀.current).core.alternatives = (m₀.frame m₀.current).core.alternatives :=
      congrArg Frame.alternatives hcore
    have hindex : m.index + 1 + 1 = m₀.index + 1 + n + 2 := by
      rw [hcalling.index]
    show ReturnPoint.mk m.code m.label (m.index + 1 + 1) m.current (m.frame m.current).alternatives = _
    rw [hcalling.code, hcalling.label, hcalling.current, hindex]
    exact congrArg (ReturnPoint.mk m₀.code m₀.label (m₀.index + 1 + n + 2) m₀.current) halternatives
  have hreturns : ((m₁.readied f).frame f).returnPoint = some (behindCall m₀ n) := by
    have hlt : f < m₁.frames.size := h.lt hc
    rw [readied, frame_changeFrame_self hlt, hpoint]
  exact {
    size := h.size.trans (Nat.le_of_eq frames_size_changeFrame.symm)
    place := (hplace f).trans h.place
    placed := fun k g hg => (hplace g).trans (h.placed k g hg)
    below := fun g hg hd => by
      have hcore := h.below g hg hd
      have hne : g ≠ f := by
        rintro rfl
        have hsame : (m.frame g).core.position = (m₀.frame g).core.position := congrArg Frame.position hcore
        exact Nat.lt_irrefl _ (hd.trans_eq (h.place.symm.trans hsame))
      rw [hother hne, hcore]
    above := fun k g r hk hg hr => by
      have hne : g ≠ f := by
        rintro rfl
        exact Nat.ne_of_gt hk ((h.placed k g hg).symm.trans h.place)
      rw [hother hne] at hr
      rw [hplace]
      exact h.above k g r hk hg hr
    stage := .ready ⟨hcalling.code, hcalling.label, congrArg (· + 1) hcalling.index, hcalling.current,
      hcalling.target, hcalling.ended⟩ hreturns }

/-- The goal is called: a clause for it is entered, or it is answered at once. -/
theorem calls (h : Negating m₀ n f m) (hc : Caller m₀) (hm : m.Memory)
    (hcalling : Calling m₀ f (m₀.index + 1 + n + 1) m) (hr : (m.frame f).returnPoint = some (behindCall m₀ n))
    (hinvokes : Invokes w (m.counted w i) m') : Negating m₀ n f m' := by
  let m₁ := m.counted w i
  have htouches : ∀ goal count, Touches m₀.depth m (m₁.called f goal count) := fun goal count =>
    .modify f (fun fr => { fr with
      vars := [("$x0", goal)], alternatives := [], cutTo := none, clauses := count }) rfl rfl rfl
      (.inl (Nat.le_of_eq h.place.symm))
  -- The call enters a clause, or a native predicate responds at once.
  cases hinvokes with
  | @enters g s cs c htarget ht =>
    obtain rfl : g = f := Option.some.inj (htarget.symm.trans hcalling.target)
    have ht' : Touches m₀.depth m ((m₁.called g (.struct s) cs.length).entered g c) :=
      (htouches _ _).trans (.fields _ _ rfl)
    refine h.touches hc hm ht' (fun _ _ hg => hg) (.inside ?_ ((ht'.returns g (h.lt hc)).trans hr))
    exact Nat.le_of_eq ((ht'.place g (h.lt hc)).trans h.place).symm
  | @responds g s r m₂ ok count htarget ht hcut hcommitted hr' htame =>
    obtain rfl : g = f := Option.some.inj (htarget.symm.trans hcalling.target)
    obtain rfl := Option.some.inj (hr'.symm.trans hr)
    have ht' := ((htouches (.struct s) count).trans (.of_quiet _ htame.quiet)).trans
      (.fields _ { m₂ with
        success := ok, code := m₀.code, label := m₀.label, index := m₀.index + 1 + n + 2 } rfl)
    have hended := congrArg View.ended htame.quiet.view
    exact h.touches hc hm ht' (fun _ _ hg => htame.quiet.stack ▸ hg)
      (.returned ⟨rfl, rfl, rfl, htame.quiet.current.trans hcalling.current,
        htame.quiet.target.trans hcalling.target, hended.trans hcalling.ended⟩
        ((ht'.returns g (h.lt hc)).trans hr))

/-- The next clause of the goal is tried. -/
theorem retries (h : Negating m₀ n f m) (hc : Caller m₀) (hm : m.Memory)
    (hcalling : Calling m₀ f (m₀.index + 1 + n + 2) m)
    (hr : (m.frame f).returnPoint = some (behindCall m₀ n)) :
    Negating m₀ n f ({ (m.counted w i).unwound f 0 with
      index := (m.counted w i).index - 2 }.changeFrame f (fun fr => { fr with clause := fr.clause + 1 })) := by
  have hcounted : Touches m₀.depth m (m.counted w i) := .fields _ _ rfl
  have hunwound : Touches m₀.depth m ((m.counted w i).unwound f 0) := hcounted.trans (.unwound _ f 0)
  have hplace : (((m.counted w i).unwound f 0).frame f).position = m₀.depth :=
    (hunwound.place f (h.lt hc)).trans h.place
  have htried : Touches m₀.depth ((m.counted w i).unwound f 0) ({ (m.counted w i).unwound f 0 with
      index := (m.counted w i).index - 2 }.changeFrame f (fun fr => { fr with clause := fr.clause + 1 })) :=
    .modify f (fun fr => { fr with clause := fr.clause + 1 }) rfl rfl rfl (.inl (Nat.le_of_eq hplace.symm))
  have htouches := hunwound.trans htried
  refine h.touches hc hm htouches (fun _ _ hg => hg) (.ready ⟨hcalling.code, hcalling.label, ?_,
    hcalling.current, hcalling.target, hcalling.ended⟩ ((htouches.returns f (h.lt hc)).trans hr))
  show m.index + 1 - 2 = _
  rw [hcalling.index]
  omega

end Negating

/-- **Every step keeps to the call**, as long as its frame is on the stack. -/
theorem Negating.step {c : Clause} {block : Code} {o : Instruction} (h : Negating m₀ n f m)
    (hsite : CallsNegated c block n o m₀) (hc : Caller m₀) (hsearch : Search kb l m)
    (hw : Equipped kb w) (herror : (m.step w).2.error = none) (hf : m.stack[m₀.depth]? = some f)
    (hf' : (m.step w).2.stack[m₀.depth]? = some f) : Negating m₀ n f (m.step w).2 := by
  rcases hsearch.advances hw herror with hidle | ⟨i, -, hactive, hi, -, hmove, hinvokes⟩
  · rw [hidle]
    exact h
  obtain ⟨q, c', p, i', p', hi', hfetched, hstep⟩ := hsearch.fetched hactive herror
  obtain rfl := Except.ok.inj (hi.symm.trans hi')
  rw [hstep] at herror hf' hmove hinvokes ⊢
  have hm : m.Memory := hfetched.memory.of_eq rfl rfl rfl fun _ => ⟨rfl, rfl⟩
  have hnone : (m.counted w i).error = none := hactive.2.1
  -- By stages: the goal is built, the call is ready, it runs, or it has returned.
  cases h.stage with
  | @building k hk hcalling =>
    rcases Nat.lt_or_eq_of_le hk with hlt | rfl
    · obtain ⟨i', hi', hputs⟩ := hsite.puts k hlt
      obtain rfl := Except.ok.inj (hi.symm.trans (hsite.fetch hcalling hi'))
      exact h.builds hc hm hlt hcalling ((Furnishing.execute w hputs).perform hnone herror)
    · obtain ⟨i', hi', hop⟩ := hsite.setup
      obtain rfl := Except.ok.inj (hi.symm.trans (hsite.fetch hcalling hi'))
      have hexecute : execute w i = setup := by simp only [execute, hop]
      have htarget : (m.counted w i).target = some f := hcalling.target
      rw [hexecute, perform_eq_ok (eval_setup htarget)]
      exact h.setsUp hc hcalling
  | ready hcalling hr =>
    obtain ⟨i', hi', hcalls⟩ := hsite.call
    obtain rfl := Except.ok.inj (hi.symm.trans (hsite.fetch hcalling hi'))
    exact h.calls hc hm hcalling hr (hinvokes hcalls)
  | inside hin hr =>
    have hinside : Inside m₀ n f m := ⟨h, hc, hm, hin, hr⟩
    have hcounted : Inside m₀ n f (m.counted w i) :=
      hinside.next hfetched.memory (.fields _ _ rfl) (fun _ _ hg => hg) rfl
    exact hcounted.moves hactive.2.2.1 hmove hf hf'
  | returned hcalling hr =>
    obtain rfl := Except.ok.inj (hi.symm.trans (hsite.fetch hcalling hsite.outcome))
    have hop := hsite.negated
    obtain ⟨s, rfl⟩ := Phase.returned_of_maybeRetryN hfetched.next hop
    have hexecute : execute w i = maybeRetryN := by simp only [execute, hop]
    rw [hexecute] at hf' ⊢
    rcases eval_maybeRetryN_returned hfetched hcalling.target with ⟨-, heval⟩ | ⟨m₁, hm₁, heval⟩
    · rw [perform_eq_ok heval]
      exact h.retries hc hm hcalling hr
    · -- The frame is gone.
      rw [perform_eq_ok heval] at hf'
      have hlt : m₀.depth <
          (m₁.poppedMany ((m.counted w i).depth - ((m.counted w i).frame f).position)).depth :=
        (Array.getElem?_eq_some_iff.1 hf').1
      have hdepth : m₁.depth = m.depth := by
        rcases hm₁ with rfl | ⟨-, rfl⟩
        · rfl
        · rfl
      have hd : m₀.depth < m.depth := (Array.getElem?_eq_some_iff.1 hf).1
      rw [depth_poppedMany, hdepth, show ((m.counted w i).frame f).position = m₀.depth from h.place,
        show (m.counted w i).depth = m.depth from rfl] at hlt
      omega

/-- Asking for the next answer keeps to the call, too. -/
theorem Negating.redo (h : Negating m₀ n f m) (hc : Caller m₀) (hsearch : Search kb l m)
    (hstatus : m.status = .answer) (herror : m.redo.2.error = none) (hf : m.stack[m₀.depth]? = some f)
    (hf' : m.redo.2.stack[m₀.depth]? = some f) : Negating m₀ n f m.redo.2 := by
  obtain ⟨hpoised, hfails⟩ := hsearch.redo_fails hstatus herror
  have hended := (status_eq_answer.1 hstatus).1
  have hnot : ∀ {j}, ¬ Calling m₀ f j m := fun hcalling => by
    rw [hcalling.ended] at hended
    cases hended
  cases h.stage with
  | building hk hcalling => exact (hnot hcalling).elim
  | ready hcalling hr => exact (hnot hcalling).elim
  | returned hcalling hr => exact (hnot hcalling).elim
  | inside hin hr =>
    have hinside : Inside m₀ n f m := ⟨h, hc, hpoised.memory, hin, hr⟩
    have hreset : Inside m₀ n f { m with ended := false, success := false, steps := 0 } :=
      hinside.next (hpoised.memory.of_eq rfl rfl rfl fun _ => ⟨rfl, rfl⟩) (.fields _ _ rfl)
        (fun _ _ hg => hg) rfl
    exact hreset.fails rfl hfails hf hf'

/-- **Every run keeps to the call**, as long as its frame is on the stack. -/
theorem Continues.negating {m₁ : Machine} {c : Clause} {block : Code} {o : Instruction}
    (hrun : Continues kb m₁ m) (h : Negating m₀ n f m₁) (hsite : CallsNegated c block n o m₀) (hc : Caller m₀)
    (hsearch : Search kb l m₁) (hm : m₁.Memory) (hf₁ : m₁.stack[m₀.depth]? = some f)
    (herror : m.error = none) (hf : m.stack[m₀.depth]? = some f) : Negating m₀ n f m := by
  induction hrun with
  | refl => exact h
  | @step m' w hrun hw ih =>
    have herror' := error_none_of_step herror
    have hsearch' := hrun.search hsearch
    -- The frame is no new one, so it was on the stack before.
    have hold : m'.stack[m₀.depth]? = some f := by
      rcases hsearch'.step_happens hw herror with hidle | hhappens
      · exact hidle ▸ hf
      · exact hhappens.stack (hrun.upholds hsearch hm hf₁ herror').1 hf
    exact (ih herror' hold).step hsite hc hsearch' hw herror hold hf
  | @redo m' hrun hstatus ih =>
    have herror' := error_none_of_redo herror
    have hsearch' := hrun.search hsearch
    have hold : m'.stack[m₀.depth]? = some f :=
      (hsearch'.redo_happens hstatus herror).stack (hrun.upholds hsearch hm hf₁ herror').1 hf
    exact (ih herror' hold).redo hc hsearch' hstatus herror hold hf

end Machine

end PrologMachine
