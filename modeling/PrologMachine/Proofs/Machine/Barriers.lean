/-
  PrologMachine.Proofs.Machine.Barriers ── **WHAT THE MARKS OF CUTS PROTECT.**

  A cut removes no frame.  It leaves a mark on the frame on top: the stack index down to which
  backtracking into that frame unwinds.  The frames above that index, up to the marked one, are cut
  off: no clause runs in them any more and no call returns into them.

    * `CutOff` says which frames those are; `Fenced` is the invariant.
    * `Settles` is a change that adds neither marks nor alternatives; `Effects` lists what moves do
      to marks, return points and alternatives.
    * `Fenced.move`, `Fenced.redo`: every move keeps the invariant.
-/
import PrologMachine.Proofs.Machine.Safety

namespace PrologMachine

namespace Machine

open Exec

variable {admits : Signature → Bool} {kb : KnowledgeBase} {q : Clause} {w : World}
  {m m' m'' : Machine} {f : FrameId} {i : Instruction} {n j k : Nat} {r : ReturnPoint}

/-! ## §1. Frames that are cut off. -/

/-- A mark on one of the first `n` frames passes over the frame at index `j`. -/
def CutOff (m : Machine) (n j : Nat) : Prop :=
  ∃ k f b, k < n ∧ m.stack[k]? = some f ∧ (m.frame f).cutTo = some b ∧ b < j ∧ j ≤ k

/-- No clause runs and no call returns where a cut passes over. -/
structure Barriers (m : Machine) : Prop where
  /-- Marks point down. -/
  below : ∀ k f b, m.stack[k]? = some f → (m.frame f).cutTo = some b → b ≤ k
  /-- The running clause is not cut off. -/
  running : ∀ j, m.stack[j]? = some m.current → ¬ CutOff m m.depth j
  /-- Neither is the frame that a call returns to, by the frames below the call. -/
  returning : ∀ l f r j, m.stack[l]? = some f → (m.frame f).returnPoint = some r →
    m.stack[j]? = some r.frame → ¬ CutOff m l j
  /-- Nor is what a mark leads to, by the frames below the marked one. -/
  nested : ∀ l f b, m.stack[l]? = some f → (m.frame f).cutTo = some b → ¬ CutOff m l b

/-- The barriers, and where a call has just returned its frame is not cut off. -/
structure Fenced (admits : Signature → Bool) (m : Machine) : Prop extends Barriers m where
  /-- The frame of the call. -/
  clear : ∀ c g, m.code = some c → c.At admits m.label m.index (.returned g) →
    ∀ f j, m.target = some f → m.stack[j]? = some f → ¬ CutOff m m.depth j

/-- Marks are on the stack. -/
theorem CutOff.depth (h : CutOff m n j) : CutOff m m.depth j := by
  obtain ⟨k, f, b, -, hf, hrest⟩ := h
  exact ⟨k, f, b, (Array.getElem?_eq_some_iff.1 hf).1, hf, hrest⟩

/-- Only what is on the stack can be cut off. -/
theorem CutOff.lt_depth (h : CutOff m n j) : j < m.depth := by
  obtain ⟨k, f, b, hk, -, -, -, hjk⟩ := h.depth
  omega

/-- A frame that is cut off now was cut off before, where no mark was made. -/
theorem CutOff.shrink (h : CutOff m' n j)
    (hstack : ∀ (k : Nat) f, m'.stack[k]? = some f → m.stack[k]? = some f)
    (hcut : ∀ f b, (m'.frame f).cutTo = some b → (m.frame f).cutTo = some b) : CutOff m n j := by
  obtain ⟨k, f, b, hk, hf, hb, hrest⟩ := h
  exact ⟨k, f, b, hk, hstack k f hf, hcut f b hb, hrest⟩

/-- Where no mark and no return point is new, only the running clause has to be looked at. -/
theorem Barriers.shrink (h : Barriers m)
    (hstack : ∀ (k : Nat) f, m'.stack[k]? = some f → m.stack[k]? = some f)
    (hcut : ∀ f b, (m'.frame f).cutTo = some b → (m.frame f).cutTo = some b)
    (hreturn : ∀ f, (m'.frame f).returnPoint = (m.frame f).returnPoint)
    (hrunning : ∀ j, m'.stack[j]? = some m'.current → ¬ CutOff m' m'.depth j) : Barriers m' where
  below k f b hf hb := h.below k f b (hstack k f hf) (hcut f b hb)
  running := hrunning
  returning l f r j hf hr hj hc := by
    rw [hreturn f] at hr
    exact h.returning l f r j (hstack l f hf) hr (hstack j _ hj) (hc.shrink hstack hcut)
  nested l f b hf hb hc := h.nested l f b (hstack l f hf) (hcut f b hb) (hc.shrink hstack hcut)

/-! ## §2. Changes without new marks. -/

/-- No mark, no alternative and no frame of the stack is new, and no return point changes. -/
structure Settles (m m' : Machine) : Prop where
  /-- The stack may lose frames. -/
  stack : ∀ (k : Nat) f, m'.stack[k]? = some f → m.stack[k]? = some f
  /-- No frame gets lost. -/
  size : m.frames.size ≤ m'.frames.size
  /-- Marks may get lost. -/
  cutTo : ∀ f b, (m'.frame f).cutTo = some b → (m.frame f).cutTo = some b
  /-- Return points stay. -/
  returnPoint : ∀ f, (m'.frame f).returnPoint = (m.frame f).returnPoint
  /-- Places stay. -/
  position : ∀ f, (m'.frame f).position = (m.frame f).position
  /-- What is committed stays so. -/
  committed : ∀ f, (m'.frame f).committed = (m.frame f).committed
  /-- Alternatives may get lost. -/
  alternatives : ∀ f, ∀ a ∈ (m'.frame f).alternatives, a ∈ (m.frame f).alternatives
  /-- The search does not end. -/
  exhausted : m'.exhausted = m.exhausted

namespace Settles

protected theorem trans (h : Settles m m') (h' : Settles m' m'') : Settles m m'' where
  stack k f hf := h.stack k f (h'.stack k f hf)
  size := Nat.le_trans h.size h'.size
  cutTo f b hb := h.cutTo f b (h'.cutTo f b hb)
  returnPoint f := (h'.returnPoint f).trans (h.returnPoint f)
  position f := (h'.position f).trans (h.position f)
  committed f := (h'.committed f).trans (h.committed f)
  alternatives f a ha := h.alternatives f a (h'.alternatives f a ha)
  exhausted := h'.exhausted.trans h.exhausted

/-- Fields that have nothing to do with frames. -/
theorem fields (m' : Machine) (h : m'.stack = m.stack ∧ m'.frames = m.frames ∧
      m'.exhausted = m.exhausted) : Settles m m' := by
  obtain ⟨hstack, hframes, hmore⟩ := h
  have hframe : ∀ f, m'.frame f = m.frame f := fun f => by simp only [frame, hframes]
  exact ⟨fun k f hf => hstack ▸ hf, by rw [hframes], fun f b hb => by rwa [hframe] at hb,
    fun f => by rw [hframe], fun f => by rw [hframe], fun f => by rw [hframe],
    fun f a ha => by rwa [hframe] at ha, hmore⟩

/-- What touches the machine's cells and the variables of frames only makes no mark. -/
theorem of_quiet (h : Quiet n m m') : Settles m m' where
  stack k f hf := h.stack ▸ hf
  size := Nat.le_of_eq h.size.symm
  cutTo f b hb := by rwa [h.frames f] at hb
  returnPoint f := by rw [h.frames f]
  position f := by rw [h.frames f]
  committed f := by rw [h.frames f]
  alternatives f a ha := by rwa [h.frames f] at ha
  exhausted := congrArg View.exhausted h.view

/-- A change of one frame. -/
theorem modify (f : FrameId) (change : Frame → Frame) (hstack : m'.stack = m.stack)
    (hframes : m'.frames = m.frames.modify f change) (hmore : m'.exhausted = m.exhausted)
    (hreturn : ∀ fr, (change fr).returnPoint = fr.returnPoint)
    (hposition : ∀ fr, (change fr).position = fr.position)
    (hcommitted : ∀ fr, (change fr).committed = fr.committed)
    (hcut : ∀ fr b, (change fr).cutTo = some b → fr.cutTo = some b)
    (halternatives : ∀ a ∈ (change (m.frame f)).alternatives, a ∈ (m.frame f).alternatives) :
    Settles m m' := by
  have hframe : ∀ f', m'.frame f' = (m.changeFrame f change).frame f' := fun f' => by
    rw [frame_modify hframes]
  -- Only the frame itself changes, if it exists at all.
  have hcases : ∀ f', m'.frame f' = m.frame f' ∨ f' = f ∧ m'.frame f' = change (m.frame f) := by
    intro f'
    rw [hframe]
    by_cases hne : f' = f
    · subst hne
      by_cases hlt : f' < m.frames.size
      · exact .inr ⟨rfl, frame_changeFrame_self hlt⟩
      · left
        simp [frame, Machine.changeFrame, hlt]
    · exact .inl (frame_changeFrame_of_ne hne)
  refine ⟨fun k f hf => hstack ▸ hf, by rw [hframes, Array.size_modify], fun f' b hb => ?_,
    fun f' => ?_, fun f' => ?_, fun f' => ?_, fun f' a ha => ?_, hmore⟩
  · rcases hcases f' with h | ⟨rfl, h⟩
    · rwa [h] at hb
    · rw [h] at hb
      exact hcut _ b hb
  · rcases hcases f' with h | ⟨rfl, h⟩
    · rw [h]
    · rw [h, hreturn]
  · rcases hcases f' with h | ⟨rfl, h⟩
    · rw [h]
    · rw [h, hposition]
  · rcases hcases f' with h | ⟨rfl, h⟩
    · rw [h]
    · rw [h, hcommitted]
  · rcases hcases f' with h | ⟨rfl, h⟩
    · rwa [h] at ha
    · rw [h] at ha
      exact halternatives a ha

/-- Undoing a trail makes no mark. -/
theorem unwound (f : FrameId) (mark : Nat) : Settles m (m.unwound f mark) :=
  modify f (fun fr => { fr with trail := (m.frame f).trail.drop ((m.frame f).trail.length - mark) })
    rfl rfl rfl (by intro; rfl) (by intro; rfl) (by intro; rfl) (fun _ _ h => h) fun _ h => h

/-- Noting what is called makes none. -/
theorem called (f : FrameId) (goal : Value) (count : Nat) : Settles m (m.called f goal count) :=
  modify f (fun fr => { fr with
      vars := [("$x0", goal)], alternatives := [], cutTo := none, clauses := count })
    rfl rfl rfl (by intro; rfl) (by intro; rfl) (by intro; rfl) (fun _ _ h => by cases h)
    (fun _ h => by cases h)

/-- Removing frames makes none. -/
theorem poppedMany (n : Nat) : Settles m (m.poppedMany n) where
  stack k f hf := by
    have hk : k < (m.poppedMany n).depth := (Array.getElem?_eq_some_iff.1 hf).1
    rw [depth_poppedMany] at hk
    rwa [stack_poppedMany n hk] at hf
  size := by
    induction n generalizing m with
    | zero => exact Nat.le_refl _
    | succ n ih =>
      refine Nat.le_trans (Nat.le_of_eq ?_) ih
      unfold popped
      split
      · exact frames_size_changeFrame.symm
      · rfl
  cutTo f b hb := by rwa [frame_poppedMany] at hb
  returnPoint f := by rw [frame_poppedMany]
  position f := by rw [frame_poppedMany]
  committed f := by rw [frame_poppedMany]
  alternatives f a ha := by rwa [frame_poppedMany] at ha
  exhausted := by rw [poppedMany_fields]

/-- What is cut off afterwards was cut off before. -/
theorem cutOff (h : Settles m m') (hc : CutOff m' n j) : CutOff m n j := hc.shrink h.stack h.cutTo

end Settles

/-- An index of the stack belongs to one frame. -/
theorem Memory.index_unique (hm : m.Memory) (hj : m.stack[j]? = some f) (hk : m.stack[k]? = some f) :
    j = k := by
  rw [← Array.getElem?_toList] at hj hk
  have hlt : j < m.stack.toList.length := (List.getElem?_eq_some_iff.1 hj).1
  exact (List.getElem?_inj hlt hm.stackNodup).1 (hj.trans hk.symm)

/-- The frame on top is cut off by its own mark only. -/
theorem Settles.not_cutOff_top (h : Settles m m') (hm : m.Memory) (ht : m'.top? = some f)
    (hcut : (m'.frame f).cutTo = none) (hj : m'.stack[j]? = some f) : ¬ CutOff m' n j := by
  intro hc
  obtain ⟨k, f', b, hk, hf', hb, -, hjk⟩ := hc.depth
  have hd : m'.stack[m'.depth - 1]? = some f := top?_eq_getElem? ▸ ht
  have hjd := hm.index_unique (h.stack j f hj) (h.stack _ f hd)
  obtain rfl : j = k := by omega
  obtain rfl := Option.some.inj (hj.symm.trans hf')
  rw [hcut] at hb
  cases hb

/-- An unmarked frame on top is not cut off, for nothing stands above it. -/
theorem Memory.not_cutOff_top (hm : m.Memory) (ht : m.top? = some f)
    (hcut : (m.frame f).cutTo = none) (hj : m.stack[j]? = some f) : ¬ CutOff m n j :=
  (Settles.fields m ⟨rfl, rfl, rfl⟩).not_cutOff_top hm ht hcut hj

/-- A change in front of which and behind which a search goes back alike: the stack and its marks
    stay, and nothing is taken off a trail. -/
structure Mild (m m' : Machine) : Prop where
  /-- Nothing is new. -/
  settles : Settles m m'
  /-- The stack stays. -/
  stack : m'.stack = m.stack
  /-- The running clause stays. -/
  current : m'.current = m.current
  /-- Marks stay. -/
  cutTo : ∀ f, (m'.frame f).cutTo = (m.frame f).cutTo
  /-- Trails may grow. -/
  trail : ∀ f, (m.frame f).trail <:+ (m'.frame f).trail

namespace Mild

protected theorem trans (h : Mild m m') (h' : Mild m' m'') : Mild m m'' :=
  ⟨h.settles.trans h'.settles, h'.stack.trans h.stack, h'.current.trans h.current,
    fun f => (h'.cutTo f).trans (h.cutTo f), fun f => (h.trail f).trans (h'.trail f)⟩

/-- What touches cells and variables only is mild. -/
theorem of_quiet (h : Quiet n m m') : Mild m m' :=
  ⟨.of_quiet h, h.stack, h.current, fun f => by rw [h.frames f], h.grows⟩

theorem fields (m' : Machine) (h : m'.stack = m.stack ∧ m'.frames = m.frames ∧
      m'.exhausted = m.exhausted ∧ m'.current = m.current) :
    Mild m m' := by
  obtain ⟨hstack, hframes, hmore, hcurrent⟩ := h
  have hframe : ∀ f, m'.frame f = m.frame f := fun f => by simp only [frame, hframes]
  exact ⟨.fields m' ⟨hstack, hframes, hmore⟩, hstack, hcurrent, fun f => by rw [hframe],
    fun f => by rw [hframe]⟩

theorem pruned : Mild m m.pruned where
  settles := .modify m.current (fun fr => { fr with
      alternatives := pruneAlternatives m.depth (m.frame m.current).alternatives })
    rfl rfl rfl (by intro; rfl) (by intro; rfl) (by intro; rfl) (fun _ _ h => h)
    fun _ ha => mem_of_mem_pruneAlternatives ha
  stack := rfl
  current := rfl
  cutTo _ := frame_changeFrame_field (m := { m with success := false }) Frame.cutTo (by intro; rfl)
  trail f := by
    rw [show (m.pruned.frame f).trail = (m.frame f).trail from
      frame_changeFrame_field (m := { m with success := false }) Frame.trail (by intro; rfl)]

/-- The frame on top stays. -/
theorem top? (h : Mild m m') : m'.top? = m.top? := congrArg Array.back? h.stack

theorem depth (h : Mild m m') : m'.depth = m.depth := congrArg Array.size h.stack

/-- What no mark bars stays unbarred. -/
theorem barriers (h : Mild m m') (hb : Barriers m) : Barriers m' := by
  refine hb.shrink h.settles.stack h.settles.cutTo h.settles.returnPoint fun j hj hc => ?_
  rw [h.current, h.stack] at hj
  rw [h.depth] at hc
  exact hb.running j hj (h.settles.cutOff hc)

end Mild

/-! ## §3. Going back. -/

/-- What is undone before a search goes on from another frame: nothing when the frame on top has no
    mark, and all frames above its mark otherwise. -/
structure Retreats (m m' : Machine) : Prop where
  /-- Nothing is new. -/
  settles : Settles m m'
  /-- The running clause stays. -/
  current : m'.current = m.current
  /-- How far it goes. -/
  height : m'.stack = m.stack ∧
      (∀ f, m.top? = some f → f ≠ queryFrame → (m.frame f).cutTo = none) ∨
    ∃ f b, m.top? = some f ∧ (m.frame f).cutTo = some b ∧ m'.depth = b + 1
  /-- Only the frame that comes to be on top may lose its mark. -/
  marks : ∀ f, m'.top? ≠ some f → (m'.frame f).cutTo = (m.frame f).cutTo
  /-- The bindings of the frames that are popped are undone. -/
  undone : ∀ (j : Nat) f v, m'.depth ≤ j → m.stack[j]? = some f → v ∈ (m.frame f).trail →
    m'.heap.binding? v = none

/-- Removing a frame binds nothing. -/
theorem binding?_popped_of_none {v : VarId} (hv : m.heap.binding? v = none) :
    m.popped.heap.binding? v = none := by
  unfold popped
  split
  · show (Heap.resetAll _ _).binding? v = none
    rw [Heap.binding?_resetAll, hv, ite_self]
  · exact hv

theorem binding?_poppedMany_of_none {v : VarId} (n : Nat) : ∀ {m : Machine},
    m.heap.binding? v = none → (m.poppedMany n).heap.binding? v = none := by
  induction n with
  | zero => intro m hv; exact hv
  | succ n ih => intro m hv; exact ih (binding?_popped_of_none hv)

/-- Popping undoes what the popped frames recorded. -/
theorem binding?_poppedMany {v : VarId} (n : Nat) : ∀ {m : Machine}, m.Memory → n < m.depth →
    m.depth - n ≤ j → m.stack[j]? = some f → v ∈ (m.frame f).trail →
    (m.poppedMany n).heap.binding? v = none := by
  -- The induction is on the number of frames; the one on top goes first.
  induction n with
  | zero =>
    intro m hm _ hj hf hv
    have : j < m.depth := (Array.getElem?_eq_some_iff.1 hf).1
    omega
  | succ n ih =>
    intro m hm hn hj hf hv
    have hjd : j < m.depth := (Array.getElem?_eq_some_iff.1 hf).1
    obtain ⟨f', ht⟩ : ∃ f', m.top? = some f' := by
      rw [top?_eq_getElem?]
      exact ⟨_, Array.getElem?_eq_getElem (by simp only [depth] at hn ⊢; omega)⟩
    have hpopped : m.popped = { m.unwound f' 0 with stack := m.stack.pop } := by
      simp only [popped, ht]
    rw [poppedMany]
    by_cases htop : j = m.depth - 1
    · -- The frame itself is popped now.
      subst htop
      obtain rfl := Option.some.inj (hf.symm.trans (top?_eq_getElem? ▸ ht))
      refine binding?_poppedMany_of_none n ?_
      rw [hpopped]
      show (Heap.resetAll _ _).binding? v = none
      rw [Heap.binding?_resetAll, if_pos (by simpa using hv)]
    · -- It is popped later, with the same trail.
      have hne : f ≠ f' := by
        rintro rfl
        exact hm.ne_top ht j (by omega) hf
      refine ih hm.popped (by rw [depth_popped]; omega) (by rw [depth_popped]; omega) ?_ ?_
      · rw [stack_popped, Array.getElem?_pop, if_pos (by simp only [depth] at *; omega)]
        exact hf
      · rw [hpopped]
        show v ∈ ((m.unwound f' 0).frame f).trail
        rw [unwound, frame_changeFrame_of_ne hne]
        exact hv

/-- A mild change and then a retreat are a retreat. -/
theorem Mild.retreats {m₁ : Machine} (h : Mild m m') (hr : Retreats m' m₁) : Retreats m m₁ where
  settles := h.settles.trans hr.settles
  current := hr.current.trans h.current
  height := by
    rcases hr.height with ⟨hstack, hfree⟩ | ⟨f, b, ht, hb, hdepth⟩
    · refine .inl ⟨hstack.trans h.stack, fun f ht hf => ?_⟩
      rw [← h.cutTo f]
      exact hfree f (h.top?.trans ht) hf
    · exact .inr ⟨f, b, h.top? ▸ ht, h.cutTo f ▸ hb, hdepth⟩
  marks f hf := (hr.marks f hf).trans (h.cutTo f)
  undone j f v hj hf hv := hr.undone j f v hj (h.stack ▸ hf) ((h.trail f).mem hv)

/-- Where a search goes on after a retreat. -/
theorem Backs.retreats (h : Backs m m') (hm : m.Memory) (hb : Barriers m) : ∃ m₁, Retreats m m₁ ∧
    ((m₁.top? = some queryFrame ∧ m' = { m₁ with ended := true, exhausted := true }) ∨
      ∃ f r, m₁.top? = some f ∧ f ≠ queryFrame ∧ (m₁.frame f).cutTo = none ∧
        (m₁.frame f).returnPoint = some r ∧ m' = m₁.resumed f r) := by
  -- Without a mark nothing is popped.
  have hstay : (∀ f, m.top? = some f → f ≠ queryFrame → (m.frame f).cutTo = none) →
      Retreats m m := fun hfree =>
    ⟨.fields m ⟨rfl, rfl, rfl⟩, rfl, .inl ⟨rfl, hfree⟩, fun _ _ => rfl, fun j f v hj hf _ =>
      absurd (Array.getElem?_eq_some_iff.1 hf).1 (Nat.not_lt.2 hj)⟩
  have hpop : ∀ f b, m.top? = some f → (m.frame f).cutTo = some b →
      b + 1 = m.depth - (m.depth - 1 - b) ∧ m.depth - 1 - b < m.depth := by
    intro f b ht hcut
    have hfd : m.stack[m.depth - 1]? = some f := top?_eq_getElem? ▸ ht
    have hlt : m.depth - 1 < m.depth := (Array.getElem?_eq_some_iff.1 hfd).1
    have hle := hb.below _ f b hfd hcut
    omega
  have hpopped : ∀ f b, m.top? = some f → (m.frame f).cutTo = some b →
      Retreats m (m.poppedMany (m.depth - 1 - b)) := by
    intro f b ht hcut
    obtain ⟨hheight, hlt⟩ := hpop f b ht hcut
    refine ⟨.poppedMany _, by rw [poppedMany_fields], .inr ⟨f, b, ht, hcut, ?_⟩, fun f _ => ?_,
      fun j f v hj hf hv => ?_⟩
    · rw [depth_poppedMany, hheight]
    · rw [frame_poppedMany]
    · rw [depth_poppedMany] at hj
      exact binding?_poppedMany _ hm hlt hj hf hv
  cases h with
  | spent ht =>
    exact ⟨m, hstay fun f ht' hf => (hf (Option.some.inj (ht'.symm.trans ht))).elim, .inl ⟨ht, rfl⟩⟩
  | @top f r ht hf hcut hr =>
    refine ⟨m, hstay fun f' ht' _ => ?_, .inr ⟨f, r, ht, hf, hcut, hr, rfl⟩⟩
    obtain rfl := Option.some.inj (ht.symm.trans ht')
    exact hcut
  | @cutQuery f b ht hf hcut ht' => exact ⟨_, hpopped f b ht hcut, .inl ⟨ht', rfl⟩⟩
  | @cut f f' b r ht hf hcut ht' hf' hr =>
    have hm₁ := hm.poppedMany (m.depth - 1 - b)
    have hretreats := hpopped f b ht hcut
    have hcleared : Settles (m.poppedMany (m.depth - 1 - b))
        ((m.poppedMany (m.depth - 1 - b)).changeFrame f' (fun fr => { fr with cutTo := none })) :=
      .modify f' (fun fr => { fr with cutTo := none }) rfl rfl rfl (by intro; rfl) (by intro; rfl)
        (by intro; rfl) (fun _ _ h => by cases h) fun _ h => h
    refine ⟨_, ⟨hretreats.settles.trans hcleared, hretreats.current, hretreats.height, fun g hg => ?_,
      hretreats.undone⟩, .inr ⟨f', r, ht', hf', ?_, ?_, rfl⟩⟩
    · have hne : g ≠ f' := fun heq => hg (heq ▸ ht')
      rw [frame_changeFrame_of_ne hne]
      exact hretreats.marks g hg
    · rw [frame_changeFrame_self (hm₁.lt_of_top? ht')]
    · rw [frame_changeFrame_field Frame.returnPoint (by intro; rfl), frame_poppedMany]
      exact hr

/-! ## §4. What moves do to marks, return points and alternatives. -/

/-- The effect of an instruction on the stack. -/
inductive Effects (i : Instruction) (m : Machine) : Machine → Prop where
  /-- The same clause goes on with the same frames. -/
  | keeps {m' : Machine} (h : Settles m m') (hstack : m'.stack = m.stack)
    (hcurrent : m'.current = m.current) (hmarks : ∀ f, (m'.frame f).cutTo = (m.frame f).cutTo) :
    Effects i m m'
  /-- The clause of the frame on top is entered. -/
  | enters {m' : Machine} (h : Settles m m') (hstack : m'.stack = m.stack)
    (ht : m.top? = some m'.current) (hcut : (m.frame m'.current).cutTo = none)
    (hmarks : ∀ f, (m'.frame f).cutTo = (m.frame f).cutTo) : Effects i m m'
  /-- The clause returns to its caller. -/
  | returns {m' : Machine} {r : ReturnPoint} (h : Settles m m') (hstack : m'.stack = m.stack)
    (hr : (m.frame m.current).returnPoint = some r)
    (hcaller : ∃ k l : Nat, k < l ∧ m.stack[k]? = some r.frame ∧ m.stack[l]? = some m.current)
    (hcurrent : m'.current = r.frame) (hmarks : ∀ f, (m'.frame f).cutTo = (m.frame f).cutTo) :
    Effects i m m'
  /-- A frame without a mark is popped. -/
  | drops {m' : Machine} {f : FrameId} (h : Settles m m') (ht : m.top? = some f)
    (hcut : (m.frame f).cutTo = none) (hdepth : m'.depth = m.depth - 1)
    (hcurrent : m'.current = m.current) (hmarks : ∀ f, (m'.frame f).cutTo = (m.frame f).cutTo)
    (hfree : m'.target = none)
    (hcaller : ∃ j, j < m.depth - 1 ∧ m.stack[j]? = some m.current) : Effects i m m'
  /-- The frames of a negated call that succeeded are popped. -/
  | denies {m' : Machine} {f : FrameId} {k : Nat} (h : Settles m m')
    (hs : m.success = true) (htarget : m.target = some f) (hf : m.stack[k]? = some f)
    (hi : i.op = .maybeRetryN) (hdepth : m'.depth = k) (hcurrent : m'.current = m.current)
    (hmarks : ∀ f, (m'.frame f).cutTo = (m.frame f).cutTo) (hfree : m'.target = none)
    (hcaller : ∃ j, j < k ∧ m.stack[j]? = some m.current) : Effects i m m'
  /-- The search goes on behind a call that failed. -/
  | resumes {m₁ : Machine} {f : FrameId} {r : ReturnPoint} (h : Retreats m m₁)
    (ht : m₁.top? = some f) (hf : f ≠ queryFrame) (hcut : (m₁.frame f).cutTo = none)
    (hr : (m₁.frame f).returnPoint = some r) : Effects i m (m₁.resumed f r)
  /-- The search is over. -/
  | exhausts {m₁ : Machine} (h : Retreats m m₁) (ht : m₁.top? = some queryFrame) :
    Effects i m { m₁ with ended := true, exhausted := true }
  /-- A frame is pushed. -/
  | pushes : Effects i m m.pushed
  /-- The call of the frame on top is set up. -/
  | setsUp {f : FrameId} (ht : m.top? = some f) (huntried : Untried m f)
    (hcaller : ∃ j, j < m.depth - 1 ∧ m.stack[j]? = some m.current) :
    Effects i m (m.readied f)
  /-- An alternative is recorded. -/
  | records {f : FrameId} (hi : i.op = .tryElse) (ht : m.top? = some f) :
    Effects i m (m.recorded f i.label)
  /-- The clause commits itself. -/
  | cuts {f : FrameId} (hi : i.op = .cut) (ht : m.top? = some f)
    (hplace : m.stack[(m.frame m.current).position]? = some m.current) :
    Effects i m (m.severed f)

/-- Trying a call again makes no mark. -/
theorem Settles.retried (f : FrameId) : Settles m ({ m.unwound f 0 with
    index := m.index - 2 }.changeFrame f (fun fr => { fr with clause := fr.clause + 1 })) :=
  (Settles.unwound f 0).trans (.modify f (fun fr => { fr with clause := fr.clause + 1 }) rfl rfl rfl
    (by intro; rfl) (by intro; rfl) (by intro; rfl) (fun _ _ h => h) fun _ h => h)

theorem Invokes.settles (h : Invokes w m m') : Settles m m' := by
  cases h with
  | @enters f s cs c =>
    exact (Settles.called f (.struct s) cs.length).trans (.fields _ ⟨rfl, rfl, rfl⟩)
  | @responds f s r m₁ ok count _ _ _ _ _ htame =>
    exact (Settles.called f (.struct s) count).trans
      ((Settles.of_quiet htame.quiet).trans (.fields _ ⟨rfl, rfl, rfl⟩))

/-- Undoing a trail leaves the marks. -/
theorem cutTo_unwound (f : FrameId) (mark : Nat) (f' : FrameId) :
    ((m.unwound f mark).frame f').cutTo = (m.frame f').cutTo :=
  frame_changeFrame_field (m := { m with heap := _ }) Frame.cutTo (by intro; rfl)

theorem cutTo_called (goal : Value) (count : Nat) (hcut : (m.frame f).cutTo = none) (f' : FrameId) :
    ((m.called f goal count).frame f').cutTo = (m.frame f').cutTo := by
  by_cases hne : f' = f
  · subst hne
    by_cases hlt : f' < m.frames.size
    · rw [called, frame_changeFrame_self hlt, hcut]
    · simp [frame, called, Machine.changeFrame, hlt]
  · rw [called, frame_changeFrame_of_ne hne]

/-- A call that is entered or answered has no mark to lose. -/
theorem Invokes.marks (h : Invokes w m m') (f : FrameId) :
    (m'.frame f).cutTo = (m.frame f).cutTo := by
  cases h with
  | enters htarget ht hcut => exact cutTo_called _ _ hcut f
  | @responds f' s r m₁ ok count htarget ht hcut hcommitted hr htame =>
    refine Eq.trans ?_ (cutTo_called (.struct s) count hcut f)
    show (m₁.frame f).cutTo = _
    rw [htame.quiet.frames f]

/-- Going back has the effects of a move. -/
theorem Backs.effects {m₀ : Machine} (h : Backs m₀ m') (hmild : Mild m m₀) (hm : m₀.Memory)
    (hb : Barriers m) : Effects i m m' := by
  obtain ⟨m₁, hretreats, ⟨ht, rfl⟩ | ⟨f, r, ht, hf, hcut, hr, rfl⟩⟩ :=
    h.retreats hm (hmild.barriers hb)
  · exact .exhausts (hmild.retreats hretreats) ht
  · exact .resumes (hmild.retreats hretreats) ht hf hcut hr

theorem Fails.effects {m₀ : Machine} (h : Fails m₀ m') (hmild : Mild m m₀) (hm : m₀.Memory)
    (hb : Barriers m) : Effects i m m' := by
  cases h with
  | @alternative f a rest ht has ha =>
    have hrest : Settles m₀ (m₀.changeFrame m₀.current
        (fun fr => { fr with alternatives := rest })) :=
      .modify m₀.current (fun fr => { fr with alternatives := rest }) rfl rfl rfl (by intro; rfl)
        (by intro; rfl) (by intro; rfl) (fun _ _ h => h) fun b hb =>
          mem_of_mem_pruneAlternatives (has ▸ List.mem_cons_of_mem a hb)
    refine .keeps (hmild.settles.trans (hrest.trans
      ((Settles.unwound f a.mark).trans (.fields _ ⟨rfl, rfl, rfl⟩))))
      hmild.stack hmild.current fun f' => (cutTo_unwound f a.mark f').trans (Eq.trans ?_ (hmild.cutTo f'))
    exact frame_changeFrame_field Frame.cutTo (by intro; rfl)
  | back has hback => exact hback.effects (hmild.trans .pruned) hm.pruned hb

/-- **The effect of a move.** -/
theorem Moves.effects (h : Moves w i m m') (hb : Barriers m) : Effects i m m' := by
  cases h with
  | stays n ht hindex =>
    -- Most moves keep the stack, and make no mark.
    exact .keeps (.of_quiet ht.quiet) ht.quiet.stack ht.quiet.current (Mild.of_quiet ht.quiet).cutTo
  | @mismatches m₁ _ ht hback =>
    have hmild := (Mild.of_quiet ht.quiet).trans
      (.fields { m₁ with success := false } ⟨rfl, rfl, rfl, rfl⟩)
    exact hback.effects hmild (ht.memory.of_eq rfl rfl rfl fun _ => ⟨rfl, rfl⟩) hb
  | fails ht hf => exact hf.effects (.of_quiet ht.quiet) ht.memory hb
  | allocates => exact .pushes
  | setsUp htarget ht huntried hcaller => exact .setsUp ht huntried hcaller
  | invokes h =>
    have hsettles := h.settles
    have hmarks := h.marks
    cases h with
    | enters htarget ht hcut => exact .enters hsettles rfl ht hcut hmarks
    | responds htarget ht hcut hcommitted hr htame =>
      exact .keeps hsettles htame.quiet.stack htame.quiet.current hmarks
  | @retries f hs htarget ht hcut hcommitted hmore =>
    refine .keeps (.retried f) rfl rfl fun f' => Eq.trans ?_ (cutTo_unwound f 0 f')
    exact frame_changeFrame_field (m := { m.unwound f 0 with index := _ }) Frame.cutTo (by intro; rfl)
  | @givesUp f hs htarget ht hcut hmore => exact .keeps (.unwound f 0) rfl rfl (cutTo_unwound f 0)
  -- A negated call that has succeeded drops its frame and all others above it.
  | @denies f k hs htarget hk hf hi hcaller =>
    have hkd : k < m.depth := (Array.getElem?_eq_some_iff.1 hf).1
    have hfields := poppedMany_fields (m.depth - k) m
    refine .denies ((Settles.poppedMany (m.depth - k)).trans (.fields _ ⟨rfl, rfl, rfl⟩))
      hs htarget hf hi ?_ ?_
      (fun f' => ?_) rfl hcaller
    · show (m.poppedMany (m.depth - k)).depth = k
      rw [depth_poppedMany]
      omega
    · show (m.poppedMany (m.depth - k)).current = m.current
      rw [hfields]
    · show ((m.poppedMany (m.depth - k)).frame f').cutTo = _
      rw [frame_poppedMany]
  -- A negated call that has failed drops its frame only.
  | @affirms f hs htarget ht hcut hcaller =>
    have hfields := popped_fields (m.unwound f 0)
    refine .drops ((Settles.unwound f 0).trans ((Settles.poppedMany 1).trans
      (.fields _ ⟨rfl, rfl, rfl⟩))) ht hcut ?_ ?_
      (fun f' => ?_) rfl hcaller
    · exact depth_poppedMany 1 (m.unwound f 0)
    · show (m.unwound f 0).popped.current = m.current
      rw [hfields]
      rfl
    · show ((m.unwound f 0).popped.frame f').cutTo = _
      rw [frame_popped]
      exact cutTo_unwound f 0 f'
  | @drops f hs htarget ht hf hcut hcaller =>
    -- A call that is left drops its frame, and hands its trail down.
    have hfields := popped_fields { m with target := none }
    refine .drops ((Settles.fields (m := m) { m with target := none } ⟨rfl, rfl, rfl⟩).trans (.poppedMany 1))
      ht hcut ?_ ?_
      (fun f' => ?_) ?_ hcaller
    · exact depth_poppedMany 1 { m with target := none }
    · rw [hfields]
    · rw [frame_popped]
      rfl
    · rw [hfields]
  | records hi ht => exact .records hi ht
  | prunes =>
    exact .keeps (.modify m.current (fun fr => { fr with
        alternatives := pruneAlternatives m.depth fr.alternatives }) rfl rfl rfl (by intro; rfl)
      (by intro; rfl) (by intro; rfl) (fun _ _ h => h) fun _ ha => mem_of_mem_pruneAlternatives ha) rfl rfl
      fun _ => frame_changeFrame_field Frame.cutTo (by intro; rfl)
  | jumps label => exact .keeps (.fields _ ⟨rfl, rfl, rfl⟩) rfl rfl fun _ => rfl
  | returns hs hq hr hcaller =>
    exact .returns (.fields _ ⟨rfl, rfl, rfl⟩) rfl hr hcaller rfl fun _ => rfl
  | answers hs => exact .keeps (.fields _ ⟨rfl, rfl, rfl⟩) rfl rfl fun _ => rfl
  | cuts hi ht hplace => exact .cuts hi ht hplace

/-! ## §5. The invariant. -/

/-- A mark is the old one or the new barrier. -/
theorem lowerMark_eq_some {barrier b : Nat} {old : Option Nat}
    (h : lowerMark barrier old = some b) : b = barrier ∨ old = some b := by
  unfold lowerMark at h
  split at h
  · split at h
    · exact .inl (Option.some.inj h).symm
    · exact .inr h
  · exact .inl (Option.some.inj h).symm

/-- The marks behind a cut. -/
theorem cutTo_of_cut {b : Nat} (hm : m.Memory) (ht : m.top? = some f)
    {f' : FrameId} (hk : m.stack[k]? = some f')
    (hb : ((m.severed f).frame f').cutTo = some b) :
    (m.frame f').cutTo = some b ∨ k = m.depth - 1 ∧ b = (m.frame m.current).position := by
  rw [severed, frame_changeFrame_field Frame.cutTo (by intro; rfl)] at hb
  by_cases hne : f' = f
  · subst hne
    rw [frame_changeFrame_self (hm.lt_of_top? ht)] at hb
    rcases lowerMark_eq_some hb with rfl | hold
    · exact .inr ⟨hm.index_unique hk (top?_eq_getElem? ▸ ht), rfl⟩
    · exact .inl hold
  · rw [frame_changeFrame_of_ne hne] at hb
    exact .inl hb

/-- Frames below a new one are what they were. -/
theorem frame_of_pushed (hf : m.pushed.stack[k]? = some f) (hne : f ≠ m.frames.size) :
    m.stack[k]? = some f ∧ m.pushed.frame f = m.frame f := by
  refine ⟨?_, frame_pushed_of_ne hne⟩
  have hk : k < m.depth := by
    by_contra hk
    have hkd : k < m.pushed.depth := (Array.getElem?_eq_some_iff.1 hf).1
    rw [depth_pushed] at hkd
    obtain rfl : k = m.depth := by omega
    exact hne (Option.some.inj (hf.symm.trans (by simp [pushed, depth])))
  rw [← stack_pushed hk]
  exact hf

/-- A frame of the stack is an old one, or the one that was pushed. -/
theorem stack_of_pushed (hm : m.Memory) (hf : m.pushed.stack[k]? = some f) :
    m.stack[k]? = some f ∧ m.pushed.frame f = m.frame f ∨ f = m.frames.size ∧ k = m.depth := by
  by_cases hne : f = m.frames.size
  · refine .inr ⟨hne, ?_⟩
    by_contra hk
    have hkd : k < m.pushed.depth := (Array.getElem?_eq_some_iff.1 hf).1
    rw [depth_pushed] at hkd
    rw [stack_pushed (by omega)] at hf
    exact Nat.lt_irrefl _ (hne ▸ hm.lt_of_getElem? hf)
  · exact .inl (frame_of_pushed hf hne)

/-- A frame that is pushed has no mark. -/
theorem mark_of_pushed {b : Nat} (hf : m.pushed.stack[k]? = some f)
    (hcut : (m.pushed.frame f).cutTo = some b) :
    m.stack[k]? = some f ∧ (m.frame f).cutTo = some b := by
  by_cases hne : f = m.frames.size
  · subst hne
    rw [frame_pushed_self] at hcut
    cases hcut
  · obtain ⟨hf', hframe⟩ := frame_of_pushed hf hne
    exact ⟨hf', hframe ▸ hcut⟩

/-- A new frame cuts nothing off. -/
theorem CutOff.of_pushed (h : CutOff m.pushed n j) : CutOff m n j := by
  obtain ⟨k, f, b, hk, hf, hcut, hrest⟩ := h
  obtain ⟨hf', hcut'⟩ := mark_of_pushed hf hcut
  exact ⟨k, f, b, hk, hf', hcut', hrest⟩

/-- **What an effect preserves.**  Nothing is claimed of a search that is over. -/
theorem Effects.barriers (h : Effects i m m') (hm : m.Memory) (hb : Barriers m)
    (hmore : m'.exhausted = false) : Barriers m' := by
  cases h with
  | keeps h hstack hcurrent =>
    refine hb.shrink h.stack h.cutTo h.returnPoint fun j hj hc => ?_
    rw [hcurrent, hstack] at hj
    exact hb.running j hj (h.cutOff hc).depth
  | enters h hstack ht hcut =>
    refine hb.shrink h.stack h.cutTo h.returnPoint fun j hj hc => ?_
    exact hm.not_cutOff_top ht hcut (h.stack j _ hj) (h.cutOff hc)
  | @returns _ r h hstack hr hcaller hcurrent =>
    refine hb.shrink h.stack h.cutTo h.returnPoint fun j hj hc => ?_
    obtain ⟨j', l, hjl, hj', hl⟩ := hcaller
    rw [hcurrent] at hj
    obtain rfl := hm.index_unique (h.stack j _ hj) hj'
    -- A mark that passes over the caller is below the clause or would pass over the clause too.
    obtain ⟨k, f, b, hk, hf, hcut, hbj, hjk⟩ := (h.cutOff hc).depth
    by_cases hkl : k < l
    · exact hb.returning l _ r j hl hr hj' ⟨k, f, b, hkl, hf, hcut, hbj, hjk⟩
    · exact hb.running l hl ⟨k, f, b, hk, hf, hcut, by omega, by omega⟩
  | drops h ht hcut hdepth hcurrent =>
    refine hb.shrink h.stack h.cutTo h.returnPoint fun j hj hc => ?_
    rw [hcurrent] at hj
    exact hb.running j (h.stack j _ hj) (h.cutOff hc).depth
  | denies h hs htarget hf hi hdepth hcurrent =>
    refine hb.shrink h.stack h.cutTo h.returnPoint fun j hj hc => ?_
    rw [hcurrent] at hj
    exact hb.running j (h.stack j _ hj) (h.cutOff hc).depth
  | @resumes m₁ f r h ht hf hcut hr =>
    have hframe : ∀ f' : FrameId, ((m₁.resumed f r).frame f').cutTo = (m₁.frame f').cutTo := fun _ =>
      frame_resumed_field Frame.cutTo fun _ _ => rfl
    refine hb.shrink h.settles.stack (fun f' b hb' => h.settles.cutTo f' b (hframe f' ▸ hb'))
      (fun f' => (frame_resumed_field Frame.returnPoint fun _ _ => rfl).trans
        (h.settles.returnPoint f')) fun j hj hc => ?_
    -- The mark that passes over the caller is on a frame below the call, which has none itself.
    have hc₁ : CutOff m₁ m₁.depth j := hc.shrink (fun _ _ h => h) fun f' b hb' => hframe f' ▸ hb'
    obtain ⟨k, f', b, hk, hf', hcut', hrest⟩ := hc₁
    have hftop : m₁.stack[m₁.depth - 1]? = some f := top?_eq_getElem? ▸ ht
    by_cases hkd : k < m₁.depth - 1
    · refine hb.returning (m₁.depth - 1) f r j (h.settles.stack _ f hftop) ?_
        (h.settles.stack j _ hj) (h.settles.cutOff ⟨k, f', b, hkd, hf', hcut', hrest⟩)
      exact (h.settles.returnPoint f).symm.trans hr
    · obtain rfl : k = m₁.depth - 1 := by omega
      obtain rfl := Option.some.inj (hftop.symm.trans hf')
      rw [hcut] at hcut'
      cases hcut'
  | exhausts h ht => cases hmore
  | pushes =>
    refine ⟨fun k f b hf hcut => ?_, fun j hj hc => ?_, fun l f r j hf hr hj hc => ?_,
      fun l f b hf hcut hc => ?_⟩
    · obtain ⟨hf', hcut'⟩ := mark_of_pushed hf hcut
      exact hb.below k f b hf' hcut'
    · by_cases hjd : j < m.depth
      · exact hb.running j (stack_pushed hjd ▸ hj) hc.of_pushed.depth
      · exact hjd hc.of_pushed.lt_depth
    · by_cases hne : f = m.frames.size
      · subst hne
        rw [frame_pushed_self] at hr
        cases hr
      · obtain ⟨hf', hframe⟩ := frame_of_pushed hf hne
        by_cases hjd : j < m.depth
        · exact hb.returning l f r j hf' (hframe ▸ hr) (stack_pushed hjd ▸ hj) hc.of_pushed
        · exact hjd hc.of_pushed.lt_depth
    · obtain ⟨hf', hcut'⟩ := mark_of_pushed hf hcut
      exact hb.nested l f b hf' hcut' hc.of_pushed
  | @setsUp f ht huntried =>
    have hcut : ∀ f' b, ((m.readied f).frame f').cutTo = some b →
        (m.frame f').cutTo = some b := fun f' b h =>
      (frame_changeFrame_field Frame.cutTo (by intro; rfl)).symm.trans h
    refine ⟨fun k f' b hf' hb' => hb.below k f' b hf' (hcut f' b hb'),
      fun j hj hc => hb.running j hj (hc.shrink (fun _ _ h => h) hcut),
      fun l f' r j hf' hr hj hc => ?_, fun l f' b hf' hb' hc =>
        hb.nested l f' b hf' (hcut f' b hb') (hc.shrink (fun _ _ h => h) hcut)⟩
    have hc' := hc.shrink (m := m) (fun _ _ h => h) hcut
    by_cases hne : f' = f
    · -- The new call returns to the running clause.
      subst hne
      rw [readied, frame_changeFrame_self (hm.lt_of_top? ht)] at hr
      obtain rfl := Option.some.inj hr
      exact hb.running j hj hc'.depth
    · rw [readied, frame_changeFrame_of_ne hne] at hr
      exact hb.returning l f' r j hf' hr hj hc'
  | records hi ht =>
    refine hb.shrink (fun _ _ h => h)
      (fun f b h => (frame_changeFrame_field Frame.cutTo (by intro; rfl)).symm.trans h)
      (fun f => frame_changeFrame_field Frame.returnPoint (by intro; rfl)) fun j hj hc => ?_
    exact hb.running j hj (hc.shrink (fun _ _ h => h)
      fun f b h => (frame_changeFrame_field Frame.cutTo (by intro; rfl)).symm.trans h)
  | @cuts f hi ht hplace =>
    have hpos : (m.frame m.current).position < m.depth := (Array.getElem?_eq_some_iff.1 hplace).1
    -- Below the frame on top no mark is new.
    have hlower : ∀ {l j}, l < m.depth → CutOff (m.severed f) l j → CutOff m l j := by
      rintro l j hl ⟨k, f', b, hk, hf', hcut, hrest⟩
      rcases cutTo_of_cut hm ht hf' hcut with hold | ⟨rfl, -⟩
      · exact ⟨k, f', b, hk, hf', hold, hrest⟩
      · omega
    refine ⟨fun k f' b hf' hcut => ?_, fun j hj hc => ?_, fun l f' r j hf' hr hj hc => ?_,
      fun l f' b hf' hcut hc => ?_⟩
    · rcases cutTo_of_cut hm ht hf' hcut with hold | ⟨rfl, rfl⟩
      · exact hb.below k f' b hf' hold
      · omega
    · -- The new mark is where the running clause is.
      obtain ⟨k, f', b, hk, hf', hcut, hbj, hjk⟩ := hc
      obtain rfl := hm.index_unique hj hplace
      rcases cutTo_of_cut hm ht hf' hcut with hold | ⟨-, rfl⟩
      · exact hb.running _ hj ⟨k, f', b, hk, hf', hold, hbj, hjk⟩
      · exact Nat.lt_irrefl _ hbj
    · rw [severed, frame_changeFrame_field Frame.returnPoint (by intro; rfl),
        frame_changeFrame_field Frame.returnPoint (by intro; rfl)] at hr
      exact hb.returning l f' r j hf' hr hj (hlower (Array.getElem?_eq_some_iff.1 hf').1 hc)
    · have hc' := hlower (Array.getElem?_eq_some_iff.1 hf').1 hc
      rcases cutTo_of_cut hm ht hf' hcut with hold | ⟨-, rfl⟩
      · exact hb.nested l f' b hf' hold hc'
      · exact hb.running _ hplace hc'.depth

/-- What is fetched stands in the code. -/
theorem fetch_eq_ok (h : m.fetch = .ok i) :
    ∃ c code, m.code = some c ∧ c.block? m.label = some code ∧ code[m.index]? = some i := by
  unfold fetch at h
  split at h
  · cases h
  · next c hc =>
    split at h
    · cases h
    · next code hcode =>
      split at h
      · cases h
      · next i' hi =>
        obtain rfl := Except.ok.inj h
        exact ⟨c, code, hc, hcode, hi⟩

/-- Behind an instruction that is not a call no call returns. -/
theorem not_returned_of_fetch {c : Clause} {g : Signature} (h : m.fetch = .ok i) (hi : ¬ i.calls)
    (hc : m.code = some c) : ¬ c.At admits m.label (m.index + 1) (.returned g) := by
  intro hat
  obtain ⟨c', code, hc', hcode, hi'⟩ := fetch_eq_ok h
  obtain rfl := Option.some.inj (hc.symm.trans hc')
  exact hi (hat.calls_of_returned hcode hi')

/-- No block starts behind a call. -/
theorem not_returned_start {c : Clause} {g : Signature} {label : String} :
    ¬ c.At admits label 0 (.returned g) := by
  intro hat
  obtain ⟨k, hk, -⟩ := hat.ready_of_returned
  omega

/-- The call of a frame that a search goes back to is not cut off. -/
theorem Backs.clear {m₀ : Machine} (h : Backs m₀ m') (hm : m₀.Memory) (hb : Barriers m₀)
    (hmore : m'.exhausted = false) (hf : m'.target = some f) (hj : m'.stack[j]? = some f) :
    ¬ CutOff m' n j := by
  obtain ⟨m₁, hretreats, ⟨ht, rfl⟩ | ⟨f', r, ht, -, hcut, -, rfl⟩⟩ := h.retreats hm hb
  · cases hmore
  · obtain rfl := Option.some.inj hf
    intro hc
    refine hretreats.settles.not_cutOff_top hm ht hcut hj (hc.shrink (fun _ _ h => h) fun g b h => ?_)
    exact (frame_resumed_field Frame.cutTo fun _ _ => rfl).symm.trans h

/-- A failure that goes back to a call finds its frame not cut off. -/
theorem Fails.clear {m₀ : Machine} (h : Fails m₀ m') (hm : m₀.Memory) (hb : Barriers m₀)
    (hmore : m'.exhausted = false) {c : Clause} {g : Signature}
    (hat : c.At admits m'.label m'.index (.returned g)) (hf : m'.target = some f)
    (hj : m'.stack[j]? = some f) : ¬ CutOff m' n j := by
  cases h with
  | alternative ht has ha => exact (not_returned_start hat).elim
  | back has hback => exact hback.clear hm.pruned (Mild.pruned.barriers hb) hmore hf hj

/-- Where a call has just returned, its frame is not cut off. -/
theorem Moves.clear {m₀ : Machine} (h : Moves w i (m₀.counted w i) m')
    (hcalls : i.calls → Invokes w (m₀.counted w i) m') (hfetch : m₀.fetch = .ok i)
    (hm : (m₀.counted w i).Memory) (hb : Barriers (m₀.counted w i)) (hmore : m'.exhausted = false)
    {c : Clause} {g : Signature} (hc : m'.code = some c)
    (hat : c.At admits m'.label m'.index (.returned g)) (hf : m'.target = some f)
    (hj : m'.stack[j]? = some f) : ¬ CutOff m' n j := by
  set m := m₀.counted w i with hmdef
  -- A call that is entered or answered belongs to the frame on top, which has no mark.
  have htop : ∀ f', m.target = some f' → m.top? = some f' → (m.frame f').cutTo = none →
      m'.target = m.target → Settles m m' → ¬ CutOff m' n j := by
    intro f' htarget ht hcut htarget' hsettles hcutOff
    rw [htarget', htarget] at hf
    obtain rfl := Option.some.inj hf
    exact hm.not_cutOff_top ht hcut (hsettles.stack j _ hj) (hsettles.cutOff hcutOff)
  have hinvokes : Invokes w m m' → ¬ CutOff m' n j := by
    intro h
    have hsettles := h.settles
    cases h with
    | enters htarget ht hcut => exact htop _ htarget ht hcut rfl hsettles
    | responds htarget ht hcut hcommitted hr htame =>
      exact htop _ htarget ht hcut htame.quiet.target hsettles
  by_cases hi : i.calls
  · exact hinvokes (hcalls hi)
  -- Otherwise the machine is not behind a call, unless a search went back there.
  have hbehind : m'.code = m.code → m'.label = m.label → m'.index = m.index → ¬ CutOff m' n j := by
    intro hcode hlabel hindex
    rw [hlabel, hindex] at hat
    rw [hcode] at hc
    exact (not_returned_of_fetch (m := m₀) hfetch hi hc hat).elim
  cases h with
  | stays n ht hindex => exact hbehind ht.quiet.code ht.quiet.label hindex
  | @mismatches m₁ _ ht hback =>
    have hmild := (Mild.of_quiet ht.quiet).trans
      (.fields { m₁ with success := false } ⟨rfl, rfl, rfl, rfl⟩)
    exact hback.clear (ht.memory.of_eq rfl rfl rfl fun _ => ⟨rfl, rfl⟩) (hmild.barriers hb) hmore
      hf hj
  | fails ht hfails =>
    exact hfails.clear ht.memory ((Mild.of_quiet ht.quiet).barriers hb) hmore hat hf hj
  | allocates => exact hbehind rfl rfl rfl
  | setsUp => exact hbehind rfl rfl rfl
  | invokes h => exact hinvokes h
  | retries hs htarget ht hcut => exact htop _ htarget ht hcut rfl (.retried _)
  | givesUp => exact hbehind rfl rfl rfl
  | denies => cases hf
  | affirms => cases hf
  | drops => rw [popped_fields] at hf; cases hf
  | records => exact hbehind rfl rfl rfl
  | prunes => exact hbehind rfl rfl rfl
  | jumps label => exact (not_returned_start hat).elim
  | returns hs hq hr hcaller =>
    obtain rfl := Option.some.inj hf
    intro hcutOff
    exact hb.running j hj (CutOff.shrink hcutOff (fun _ _ h => h) fun _ _ h => h).depth
  | answers => exact hbehind rfl rfl rfl
  | cuts => exact hbehind rfl rfl rfl

/-! ## §6. Runs. -/

/-- A machine about to take a step has its memory in order. -/
theorem Orderly.memory (h : Orderly admits kb q m) (hactive : m.Active) (hi : m.fetch = .ok i) :
    m.Memory := by
  cases h with
  | running _ hm => exact hm
  | headless _ _ _ hcode hlabel hhead =>
    have hblock := block?_headless hlabel hhead
    simp [fetch, hcode, hblock] at hi
  | answered _ _ hended => rw [hactive.2.2.1] at hended; cases hended
  | exhausted _ _ hended => rw [hactive.2.2.1] at hended; cases hended

/-- Counting a step is mild. -/
theorem Mild.counted : Mild m (m.counted w i) := .fields _ ⟨rfl, rfl, rfl, rfl⟩

/-- What a move preserves. -/
theorem Fenced.move (hfence : Fenced admits m) (hm : m.Memory) (hi : m.fetch = .ok i)
    (hmove : Moves w i (m.counted w i) m') (hcalls : i.calls → Invokes w (m.counted w i) m')
    (hmore : m'.exhausted = false) : Fenced admits m' := by
  have hm' : (m.counted w i).Memory := (Tame.counted hm 0).memory
  have hb : Barriers (m.counted w i) := Mild.counted.barriers hfence.toBarriers
  exact ⟨(hmove.effects hb).barriers hm' hb hmore, fun c g hc hat f j hf hj =>
    hmove.clear hcalls hi hm' hb hmore hc hat hf hj⟩

/-- An answer that was found. -/
theorem Orderly.answer_memory (h : Orderly admits kb q m) (hstatus : m.status = .answer) :
    m.Memory ∧ m.success = true := by
  cases h with
  | running hactive => simp [status, hactive.2.2.1] at hstatus
  | headless _ hactive => simp [status, hactive.2.2.1] at hstatus
  | answered _ _ _ _ hm _ hs => exact ⟨hm, hs⟩
  | exhausted _ _ hended hmore => simp [status, hended, hmore] at hstatus

/-- What asking for the next answer preserves. -/
theorem Fenced.redo (hfence : Fenced admits m) (h : Orderly admits kb q m)
    (hstatus : m.status = .answer) (hmore : m.redo.2.exhausted = false) :
    Fenced admits m.redo.2 := by
  obtain ⟨⟨m', hfails, hredo⟩, -⟩ := h.redo hstatus
  rw [hredo] at hmore ⊢
  let m₀ : Machine := { m with ended := false, success := false, steps := 0 }
  have hmild : Mild m m₀ := .fields _ ⟨rfl, rfl, rfl, rfl⟩
  have hm₀ : m₀.Memory := (h.answer_memory hstatus).1.of_eq rfl rfl rfl fun _ => ⟨rfl, rfl⟩
  have hb₀ : Barriers m₀ := hmild.barriers hfence.toBarriers
  have heffects : Effects { op := .invalid } m₀ m' :=
    hfails.effects (.fields _ ⟨rfl, rfl, rfl, rfl⟩) hm₀ hb₀
  exact ⟨heffects.barriers hm₀ hb₀ hmore, fun c g hc hat f j hf hj =>
    hfails.clear hm₀ hb₀ hmore hat hf hj⟩

/-- A question that has just been asked has no marks. -/
theorem Fenced.posed (m : Machine) (q : Clause) : Fenced admits (m.posed q) := by
  have hnone : ∀ n j, ¬ CutOff (m.posed q) n j := by
    rintro n j ⟨k, f, b, -, -, hcut, -⟩
    rw [frame_posed] at hcut
    cases hcut
  refine ⟨⟨fun k f b _ hcut => ?_, fun j _ => hnone _ j, fun l f r j _ _ _ => hnone l j,
    fun l f b _ _ => hnone l b⟩, fun c g _ _ f j _ _ => hnone _ j⟩
  rw [frame_posed] at hcut
  cases hcut

end Machine

end PrologMachine
