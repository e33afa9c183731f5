/-
  PrologMachine.Proofs.Machine.Backtracking ── **WHERE A FAILED SEARCH GOES ON.**

  A goal that fails leads to the newest alternative of its clause or to the most recent choice point.
  On a stack of calls neither can go wrong, and the search goes on behind a call of a lower clause or
  is over.

    * `Backs` and `Fails` list the ways in which a search can go on.
    * `Calls.exists_backs`, `Control.exists_fails`: there always is one.
    * `Backs.lands`, `Fails.lands`: the machine found there fits its code again.
-/
import PrologMachine.Proofs.Machine.Instructions

namespace PrologMachine

/-- What a frame knows about its call. -/
def Frame.call (fr : Frame) : Option Value × Nat × Nat × Option ReturnPoint × Nat :=
  (fr.get? "$x0", fr.clause, fr.clauses, fr.returnPoint, fr.position)

namespace Machine

open Exec

variable {admits : Signature → Bool} {kb : KnowledgeBase} {q : Clause} {w : World}
  {m m' : Machine} {f : FrameId} {n k : Nat} {g : Signature} {r : ReturnPoint} {c : Clause}

/-! ## §1. Machines with the same calls. -/

/-- The goal depends on the structures and on its register only. -/
theorem goal?_congr (hstructs : m'.heap.structs = m.heap.structs)
    (hget : (m'.frame f).get? "$x0" = (m.frame f).get? "$x0") : m'.goal? f = m.goal? f := by
  unfold goal? Heap.structCell
  rw [hget, hstructs]

/-- Calls are the same where the frames know the same about them. -/
theorem Alike.of_frames (hstack : ∀ k, k < n → m'.stack[k]? = m.stack[k]?)
    (hstructs : m'.heap.structs = m.heap.structs)
    (hframes : ∀ k f, k < n → m.stack[k]? = some f → (m'.frame f).call = (m.frame f).call) :
    Alike n m m' where
  stack := hstack
  goal k f hk hf := goal?_congr hstructs (congrArg Prod.fst (hframes k f hk hf))
  clause k f hk hf := congrArg (fun x => x.2.1) (hframes k f hk hf)
  clauses k f hk hf := congrArg (fun x => x.2.2.1) (hframes k f hk hf)
  returnPoint k f hk hf := congrArg (fun x => x.2.2.2.1) (hframes k f hk hf)
  position k f hk hf := congrArg (fun x => x.2.2.2.2) (hframes k f hk hf)

/-- Changing what a frame does not know about its call. -/
theorem Calls.modify (hc : Calls admits kb q m n) (m' : Machine) (h0 : 0 < n) (f : FrameId)
    (change : Frame → Frame) (hcall : ∀ fr, (change fr).call = fr.call)
    (hstack : m'.stack = m.stack) (hstructs : m'.heap.structs = m.heap.structs)
    (hframes : m'.frames = m.frames.modify f change)
    (halternatives : ∀ k c, k < n → m.stack[k]? = some f → Runs kb q m f c →
      ∀ a ∈ (change (m.frame f)).alternatives, a ∈ (m.frame f).alternatives ∨ c.HasBody a.label) :
    Alike n m m' ∧ Calls admits kb q m' n := by
  -- No call changes, so that the calls of the one machine are calls of the other.
  have halike : Alike n m m' := by
    refine .of_frames (fun k _ => by rw [hstack]) hstructs fun k f' _ _ => ?_
    rw [frame_modify hframes]
    exact frame_changeFrame_field Frame.call hcall
  have hsize : n ≤ m'.depth := by
    rw [depth, hstack]
    exact hc.size
  refine ⟨halike, halike.calls hc h0 hsize fun k f' hk hf' c hruns a ha => ?_⟩
  rw [frame_modify hframes] at ha
  -- Only the changed frame may have other alternatives.
  by_cases hne : f' = f
  · subst hne
    by_cases hlt : f' < m.frames.size
    · rw [frame_changeFrame_self hlt] at ha
      exact halternatives k c hk hf' hruns a ha
    · simp [frame, Machine.changeFrame, hlt] at ha
  · rw [frame_changeFrame_of_ne hne] at ha
    exact .inl ha

/-- The frame on top is the last one. -/
theorem top?_eq_getElem? : m.top? = m.stack[m.depth - 1]? := Array.back?_eq_getElem?

/-- A frame above that of the query holds a call. -/
theorem Calls.pending (hc : Calls admits kb q m n) (hk : k < n) (hf : m.stack[k]? = some f)
    (hq : f ≠ queryFrame) : 0 < k ∧ ∃ g r, Pending admits kb q m k f g r ∧ g ≠ querySignature := by
  have h0 : 0 < k := by
    rcases Nat.eq_zero_or_pos k with rfl | h0
    · exact absurd (Option.some.inj (hf.symm.trans hc.bottom)) hq
    · exact h0
  exact ⟨h0, hc.settled k f h0 hk hf⟩

/-- A stack with a current frame is not empty. -/
theorem Calls.depth_pos (hc : Calls admits kb q m n) : 0 < m.depth := by
  have := hc.bottom
  rw [Array.getElem?_eq_some_iff] at this
  exact this.1

/-! ## §2. Popping. -/

/-- Popping changes the heap, the frames and the stack only. -/
theorem popped_fields (m : Machine) : m.popped =
    { m with heap := m.popped.heap, frames := m.popped.frames, stack := m.stack.pop } := by
  unfold popped
  split
  · rfl
  · next h =>
    have hpop : m.stack = m.stack.pop := by
      rw [show m.stack = #[] by simpa [top?] using h]
      rfl
    exact congrArg (fun stack => { m with stack := stack }) hpop

/-- The last frame is gone. -/
theorem stack_popped : m.popped.stack = m.stack.pop := by rw [popped_fields]

/-- The frames keep everything but their trails. -/
theorem frame_popped (f : FrameId) :
    m.popped.frame f = { m.frame f with trail := (m.popped.frame f).trail } := by
  unfold popped
  split
  · next f' ht =>
    show (m.unwound f' 0).frame f = { m.frame f with trail := ((m.unwound f' 0).frame f).trail }
    by_cases hne : f = f'
    · subst hne
      by_cases hlt : f < m.frames.size
      · rw [frame_unwound_self hlt]
      · simp [frame, unwound, Machine.changeFrame, hlt]
    · rw [unwound, frame_changeFrame_of_ne hne]
      rfl
  · rfl

/-- The structures are as they were. -/
theorem structs_popped : m.popped.heap.structs = m.heap.structs := by
  unfold popped
  split
  · exact Heap.structs_resetAll
  · rfl

/-- Popping several frames changes the heap, the frames and the stack only. -/
theorem poppedMany_fields (n : Nat) : ∀ m : Machine, m.poppedMany n =
    { m with heap := (m.poppedMany n).heap, frames := (m.poppedMany n).frames
             stack := (m.poppedMany n).stack } := by
  induction n with
  | zero => intro m; rfl
  | succ n ih =>
    intro m
    rw [poppedMany, ih m.popped, popped_fields]

/-- So many frames are gone. -/
theorem depth_poppedMany (n : Nat) : ∀ m : Machine, (m.poppedMany n).depth = m.depth - n := by
  induction n with
  | zero => intro m; rfl
  | succ n ih =>
    intro m
    rw [poppedMany, ih m.popped, depth_popped]
    omega

/-- The frames below are in their places. -/
theorem stack_poppedMany (n : Nat) : ∀ {m : Machine} {k : Nat}, k < m.depth - n →
    (m.poppedMany n).stack[k]? = m.stack[k]? := by
  induction n with
  | zero => intro m k _; rfl
  | succ n ih =>
    intro m k hk
    rw [poppedMany, ih (by rw [depth_popped]; omega), stack_popped, Array.getElem?_pop]
    simp only [depth] at hk
    rw [if_pos (by omega)]

/-- The frames keep everything but their trails. -/
theorem frame_poppedMany (n : Nat) : ∀ (m : Machine) (f : FrameId), (m.poppedMany n).frame f =
    { m.frame f with trail := ((m.poppedMany n).frame f).trail } := by
  induction n with
  | zero => intro m f; rfl
  | succ n ih =>
    intro m f
    rw [poppedMany, ih m.popped f, frame_popped]

/-- The structures are as they were. -/
theorem structs_poppedMany (n : Nat) : ∀ m : Machine,
    (m.poppedMany n).heap.structs = m.heap.structs := by
  induction n with
  | zero => intro m; rfl
  | succ n ih => intro m; rw [poppedMany, ih m.popped, structs_popped]

/-- Popping leaves the calls below alone. -/
theorem Alike.poppedMany (m : Machine) (n : Nat) : Alike (m.depth - n) m (m.poppedMany n) :=
  .of_frames (fun _ hk => stack_poppedMany n hk) (structs_poppedMany n m) fun _ f _ _ => by
    rw [frame_poppedMany]
    rfl

/-- The calls below are calls. -/
theorem Calls.poppedMany (hc : Calls admits kb q m m.depth) (hn : n < m.depth) :
    Calls admits kb q (m.poppedMany n) (m.depth - n) := by
  refine (Alike.poppedMany m n).calls (hc.mono (by omega)) (by omega)
    (Nat.le_of_eq (depth_poppedMany n m).symm) fun k f _ _ c _ a ha => ?_
  rw [frame_poppedMany] at ha
  exact .inl ha

/-! ## §3. Going back. -/

/-- How a search goes on from a machine without further alternatives in the clause. -/
inductive Backs (m : Machine) : Machine → Prop where
  /-- Only the query is left. -/
  | spent (ht : m.top? = some queryFrame) : Backs m { m with ended := true, exhausted := true }
  /-- The call of the top frame returns as failed. -/
  | top {f : FrameId} {r : ReturnPoint} (ht : m.top? = some f) (hf : f ≠ queryFrame)
    (hcut : (m.frame f).cutTo = none) (hr : (m.frame f).returnPoint = some r) :
    Backs m (m.resumed f r)
  /-- A cut of the query ends the search. -/
  | cutQuery {f : FrameId} {barrier : Nat} (ht : m.top? = some f) (hf : f ≠ queryFrame)
    (hcut : (m.frame f).cutTo = some barrier)
    (ht' : (m.poppedMany (m.depth - 1 - barrier)).top? = some queryFrame) :
    Backs m { m.poppedMany (m.depth - 1 - barrier) with ended := true, exhausted := true }
  /-- The call of the frame that a cut names returns as failed. -/
  | cut {f f' : FrameId} {barrier : Nat} {r : ReturnPoint} (ht : m.top? = some f)
    (hf : f ≠ queryFrame) (hcut : (m.frame f).cutTo = some barrier)
    (ht' : (m.poppedMany (m.depth - 1 - barrier)).top? = some f') (hf' : f' ≠ queryFrame)
    (hr : (m.frame f').returnPoint = some r) :
    Backs m (((m.poppedMany (m.depth - 1 - barrier)).changeFrame f'
      (fun fr => { fr with cutTo := none })).resumed f' r)

/-- **On a stack of calls the search can always go back.** -/
theorem Calls.exists_backs (hm : m.Memory) (hc : Calls admits kb q m m.depth) :
    ∃ m', eval backtrackOrEnd m = (.ok (), m') ∧ Backs m m' := by
  have hpos := hc.depth_pos
  -- By the frame on top: the query frame, a call, or a call with a mark of a cut.
  have htop : ∃ f, m.top? = some f := by
    rw [top?_eq_getElem?]
    exact ⟨_, Array.getElem?_eq_getElem (by simp only [depth] at hpos ⊢; omega)⟩
  obtain ⟨f, ht⟩ := htop
  by_cases hf : f = queryFrame
  · subst hf
    exact ⟨_, eval_backtrackOrEnd (eval_backtrack_query ht), .spent ht⟩
  obtain ⟨-, g, r, hp, -⟩ := hc.pending (by omega) (top?_eq_getElem? ▸ ht) hf
  cases hcut : (m.frame f).cutTo with
  | none =>
    exact ⟨_, eval_backtrackOrEnd (eval_backtrack_top ht hf hcut hp.returns),
      .top ht hf hcut hp.returns⟩
  | some barrier =>
    -- The frames above the barrier go; the one below it is resumed, unless it is the query frame.
    have hn : m.depth - 1 - barrier < m.depth := by omega
    have hpop := eval_popMany (m.depth - 1 - barrier) hm hn
    have hdepth := depth_poppedMany (m.depth - 1 - barrier) m
    obtain ⟨f', hf'⟩ : ∃ f', m.stack[m.depth - (m.depth - 1 - barrier) - 1]? = some f' :=
      ⟨_, Array.getElem?_eq_getElem (by simp only [depth] at hpos ⊢; omega)⟩
    have ht' : (m.poppedMany (m.depth - 1 - barrier)).top? = some f' := by
      rw [top?_eq_getElem?, hdepth, stack_poppedMany _ (by omega), hf']
    by_cases hq : f' = queryFrame
    · subst hq
      exact ⟨_, eval_backtrackOrEnd (eval_backtrack_cut_query ht hf hcut hpop ht'),
        .cutQuery ht hf hcut ht'⟩
    · obtain ⟨-, g', r', hp', -⟩ := hc.pending (by omega) hf' hq
      have hr' : ((m.poppedMany (m.depth - 1 - barrier)).frame f').returnPoint = some r' := by
        rw [frame_poppedMany]
        exact hp'.returns
      exact ⟨_, eval_backtrackOrEnd (eval_backtrack_cut ht hf hcut hpop ht' hq hr'),
        .cut ht hf hcut ht' hq hp'.returns⟩

/-- Resuming a call changes alternatives only. -/
theorem frame_resumed_field {α : Type} {f' : FrameId} (field : Frame → α)
    (hfield : ∀ fr as, field { fr with alternatives := as } = field fr) :
    field ((m.resumed f r).frame f') = field (m.frame f') :=
  frame_changeFrame_field (m := { m with
      code := r.code, label := r.label, index := r.index, current := r.frame, target := some f
      success := false })
    field fun fr => hfield fr _

/-- **A call that is resumed returns to where its caller expects it.** -/
theorem Calls.resumed (hm : m.Memory) (hactive : m.Active) (hc : Calls admits kb q m m.depth)
    (ht : m.top? = some f) (hf : f ≠ queryFrame) (hr : (m.frame f).returnPoint = some r)
    (hcut : (m.frame f).cutTo = none) : Orderly admits kb q (m.resumed f r) := by
  have hpos := hc.depth_pos
  have hftop : m.stack[m.depth - 1]? = some f := top?_eq_getElem? ▸ ht
  -- The frame on top is a pending call, which says where it returns to.
  obtain ⟨h0, g, r', hp, hq⟩ := hc.pending (by omega) hftop hf
  obtain rfl := Option.some.inj (hr.symm.trans hp.returns)
  obtain ⟨j, hj, hcaller⟩ := hp.caller
  obtain ⟨c, hcode, hruns, hat, halts⟩ := hp.code
  obtain ⟨i, hi, -⟩ := hat.ready_of_returned
  -- The caller gets back the alternatives that were noted.
  obtain ⟨halike, hcalls⟩ := hc.modify (m.resumed f r) hpos r.frame
    (fun fr => { fr with alternatives := r.alternatives }) (by intro; rfl) rfl rfl rfl
    fun _ c' _ _ hruns' a ha => .inr (hruns.unique hruns' ▸ halts a ha)
  refine .running hactive ?_ hcode hat ⟨{ hcalls with
    current := ⟨j, by show j < m.depth; omega, hcaller⟩
    code := ⟨c, hcode, halike.runs (by omega) hcaller hruns⟩ },
    m.depth - 1, f, r, i, h0, hftop, rfl, ?_, ?_, hi, ⟨rfl, rfl, hi, rfl⟩, fun _ => ⟨ht, ?_⟩⟩
  · exact hm.modify r.frame (fun fr => { fr with alternatives := r.alternatives }) (by intro; rfl)
      (by intro; rfl) rfl rfl rfl
  · exact (halike.returnPoint _ f (by omega) hftop).trans hr
  · exact (halike.goal _ f (by omega) hftop).trans hp.goal
  · exact (frame_resumed_field Frame.cutTo fun _ _ => rfl).trans hcut

/-- **Wherever the search goes back to, the machine fits its code.** -/
theorem Backs.orderly (h : Backs m m') (hm : m.Memory) (hactive : m.Active)
    (hc : Calls admits kb q m m.depth) : Orderly admits kb q m' := by
  cases h with
  | spent ht => exact .exhausted hactive.1 hactive.2.1 rfl rfl hm.good
  | top ht hf hcut hr => exact hc.resumed hm hactive ht hf hr hcut
  | @cutQuery f barrier ht hf hcut ht' =>
    have hgood := (hm.poppedMany (m.depth - 1 - barrier)).good
    rw [poppedMany_fields] at hgood ⊢
    exact .exhausted hactive.1 hactive.2.1 rfl rfl hgood
  | @cut f f' barrier r ht hf hcut ht' hf' hr =>
    have hpos := hc.depth_pos
    let m₁ := m.poppedMany (m.depth - 1 - barrier)
    have hm₁ : m₁.Memory := hm.poppedMany _
    have hactive₁ : m₁.Active := by
      unfold Active
      rw [show m₁ = _ from poppedMany_fields _ _]
      exact hactive
    have hc₁ : Calls admits kb q m₁ m₁.depth := by
      rw [show m₁.depth = _ from depth_poppedMany _ _]
      exact hc.poppedMany (by omega)
    have hr₁ : (m₁.frame f').returnPoint = some r := by
      rw [frame_poppedMany]
      exact hr
    -- The mark of the frame is taken back, which the calls do not look at.
    obtain ⟨-, hc₂⟩ := hc₁.modify (m₁.changeFrame f' (fun fr => { fr with cutTo := none }))
      hc₁.depth_pos f' (fun fr => { fr with cutTo := none }) (by intro; rfl) rfl rfl rfl
      fun _ _ _ _ _ a ha => .inl ha
    refine Calls.resumed (hm₁.changeFrame (by intro; rfl) (by intro; rfl)) hactive₁ hc₂ ht' hf' ?_ ?_
    · rw [frame_changeFrame_field Frame.returnPoint (by intro; rfl)]
      exact hr₁
    · rw [frame_changeFrame_self (hm₁.lt_of_top? ht')]

/-! ## §4. Failing. -/

/-- The clause that failed without the alternatives recorded on a deeper stack. -/
def pruned (m : Machine) : Machine :=
  { m with success := false }.changeFrame m.current (fun fr =>
    { fr with alternatives := pruneAlternatives m.depth (m.frame m.current).alternatives })

/-- How a search goes on from a machine whose last goal failed. -/
inductive Fails (m : Machine) : Machine → Prop where
  /-- The newest alternative of the clause is taken. -/
  | alternative {f : FrameId} {a : Alternative} {rest : List Alternative} (ht : m.top? = some f)
    (has : pruneAlternatives m.depth (m.frame m.current).alternatives = a :: rest)
    (ha : a.depth = m.depth) :
    Fails m { ((m.changeFrame m.current
        (fun fr => { fr with alternatives := rest })).unwound f a.mark) with
      success := true, label := a.label, index := 0 }
  /-- No alternative can be taken. -/
  | back {m' : Machine}
    (has : ∀ a rest, pruneAlternatives m.depth (m.frame m.current).alternatives = a :: rest →
      a.depth ≠ m.depth)
    (hb : Backs m.pruned m') : Fails m m'

/-- Pruning adds no alternative. -/
theorem mem_of_mem_pruneAlternatives {depth : Nat} {as : List Alternative} {a : Alternative}
    (h : a ∈ pruneAlternatives depth as) : a ∈ as :=
  (List.dropWhile_suffix _).mem h

/-- Pruning keeps the memory in order. -/
theorem Memory.pruned (hm : m.Memory) : m.pruned.Memory :=
  hm.modify m.current (fun fr => { fr with
      alternatives := pruneAlternatives m.depth (m.frame m.current).alternatives })
    (by intro; rfl) (by intro; rfl) rfl rfl rfl

/-- Pruning keeps the calls. -/
theorem Calls.pruned (hc : Calls admits kb q m m.depth) : Calls admits kb q m.pruned m.depth :=
  (hc.modify m.pruned hc.depth_pos m.current (fun fr => { fr with
      alternatives := pruneAlternatives m.depth (m.frame m.current).alternatives })
    (by intro; rfl) rfl rfl rfl fun _ _ _ _ _ a ha => .inl (mem_of_mem_pruneAlternatives ha)).2

/-- **A failed goal of a clause leads somewhere.** -/
theorem Control.exists_fails (hm : m.Memory) (hc : Control admits kb q m m.depth) :
    ∃ m', eval failure m = (.ok (), m') ∧ Fails m m' := by
  obtain ⟨f, ht⟩ := hc.exists_top
  by_cases has : ∃ a rest, pruneAlternatives m.depth (m.frame m.current).alternatives = a :: rest ∧
      a.depth = m.depth
  · obtain ⟨a, rest, has, ha⟩ := has
    have hm' : (m.changeFrame m.current (fun fr => { fr with alternatives := rest })).Memory :=
      hm.changeFrame (by intro; rfl) (by intro; rfl)
    exact ⟨_, eval_failure_alternative has ha ht (hm'.unwindable ht), .alternative ht has ha⟩
  · have hnone : ∀ a rest, pruneAlternatives m.depth (m.frame m.current).alternatives = a :: rest →
        a.depth ≠ m.depth := fun a rest h ha => has ⟨a, rest, h, ha⟩
    obtain ⟨m', heval, hb⟩ := hc.toCalls.pruned.exists_backs hm.pruned
    exact ⟨m', (eval_failure_backtrack hnone).trans heval, .back hnone hb⟩

/-- **Wherever a failed goal leads, the machine fits its code.** -/
theorem Fails.orderly (h : Fails m m') (hm : m.Memory) (hactive : m.Active)
    (hc : Control admits kb q m m.depth) : Orderly admits kb q m' := by
  cases h with
  | @alternative f a rest ht has ha =>
    obtain ⟨c, hcode, hruns⟩ := hc.code
    obtain ⟨j, hj, hcur⟩ := hc.current
    have hmem : ∀ b ∈ a :: rest, b ∈ (m.frame m.current).alternatives := fun b hb =>
      mem_of_mem_pruneAlternatives (has ▸ hb)
    -- The alternative belongs to the current clause, so its label is one of that clause's blocks.
    obtain ⟨hlabel, hblock⟩ := hc.alternatives j m.current hj hcur c hruns a (hmem a (by simp))
    let m₁ := m.changeFrame m.current (fun fr => { fr with alternatives := rest })
    have hm₁ : m₁.Memory := hm.changeFrame (by intro; rfl) (by intro; rfl)
    obtain ⟨halike, hc₁⟩ := hc.toCalls.modify m₁ hc.depth_pos m.current
      (fun fr => { fr with alternatives := rest }) (by intro; rfl) rfl rfl rfl
      fun _ _ _ _ _ b hb => .inl (hmem b (by simp [show b ∈ rest from hb]))
    obtain ⟨halike', hc₂⟩ := hc₁.modify { m₁.unwound f a.mark with
        success := true, label := a.label, index := 0 } hc.depth_pos f
      (fun fr => { fr with
        trail := (m₁.frame f).trail.drop ((m₁.frame f).trail.length - a.mark) })
      (by intro; rfl) rfl Heap.structs_resetAll rfl fun _ _ _ _ _ b hb => .inl hb
    refine .running hactive ?_ hcode (Clause.At.start_body hblock hlabel) ⟨rfl, { hc₂ with
      current := ⟨j, hj, hcur⟩
      code := ⟨c, hcode, (halike.trans halike').runs hj hcur hruns⟩ }⟩
    exact (hm₁.unwound ht a.mark).of_eq rfl rfl rfl fun _ => ⟨rfl, rfl⟩
  | back has hb =>
    exact hb.orderly hm.pruned hactive hc.toCalls.pruned

end Machine

end PrologMachine
