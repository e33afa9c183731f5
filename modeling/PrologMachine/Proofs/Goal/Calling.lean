/-
  PrologMachine.Proofs.Goal.Calling ── **FROM A GOAL TO ITS CALL.**

  The code of a goal in a body makes a frame, builds the goal there and sets the call up.  Up to the
  call itself nothing can fail and nothing is bound.

    * `callCode`: the code of a goal that is called.
    * `Machine.Called`: what its first part leaves to the call.
    * `Machine.goal_called`: it gets there.
    * `Machine.Raised`: what else is known of the goal, which is the pattern that its code has.
-/
import PrologMachine.Proofs.Code.Linking
import PrologMachine.Proofs.Goal.Construction
import PrologMachine.Proofs.Heap.Growth
import PrologMachine.Proofs.Machine.Calls

namespace PrologMachine

namespace Machine

open Exec Term Emit

variable {w : World} {c : Clause} {label : String} {i : Nat} {block : Code} {g : Goal}
  {e : Emitter} {op : Opcode} {m m' : Machine}

/-- The code of a goal that is called. -/
def callCode (g : Goal) (e : Emitter) (op : Opcode) : Code :=
  { op := .allocate } :: ((buildGoal g).eval e).1 ++
    [{ op := .setup }, { op := op }, { op := .maybeRetry }, { op := .deallocate }]

/-- The place of the call in it. -/
def callIndex (g : Goal) (e : Emitter) : Nat := ((buildGoal g).eval e).1.length + 2

/-- It is what a goal in a body is compiled to. -/
theorem eval_fragment_call (g : Goal) (u : UnitInfo) (outermost : Bool) (e : Emitter) :
    ∃ op, (op = .call ∨ op = .bcall) ∧ (((Body.call g).fragment u outermost).eval e).1 =
        .leaf (leafLabel e.leaves) (callCode g { e with leaves := e.leaves + 1 } op ++ [u.tail])
          false ∧
      (((Body.call g).fragment u outermost).eval e).2.auxiliaries = e.auxiliaries := by
  refine ⟨if g.attrs.has .builtin || u.isNative g.signature then .bcall else .call, ?_, rfl,
    (Emit.Local.callGoal u.isNative g false { e with leaves := e.leaves + 1 }).2⟩
  split
  · exact .inr rfl
  · exact .inl rfl

theorem length_callCode : (callCode g e op).length = callIndex g e + 3 := by
  simp [callCode, callIndex]

/-- The machine `m'` is about to call the goal in structure `s` that the clause of the machine `m` has
    built.  The names in `news` have new cells, and so have the anonymous variables. -/
structure Called (c : Clause) (label : String) (i : Nat) (g : Goal) (seen : List String)
    (news : List (String × VarId)) (others : List VarId) (s : StructId) (m m' : Machine) : Prop where
  /-- It stands at the call. -/
  calling : Selecting c label i m.current m.frames.size 0 s m'
  /-- The goal. -/
  goal : ∃ us, m'.heap.structs[s]? = some ⟨g.name, us, .none⟩ ∧
    DenotesAll m'.heap m'.value? g.args us others
  /-- A name of the goal gets a new cell, unless it was met before and has a value. -/
  renewed : ∀ x, x ∈ news.map Prod.fst ↔ x ∈ namesAll g.args ∧ ¬ (x ∈ seen ∧ (m.value? x).isSome)
  /-- The clause has the new cells as values, and no other value changes. -/
  entries : ∀ x, m'.value? x = ((news.lookup x).map Value.var).or (m.value? x)
  /-- No name has two new cells. -/
  names : (news.map Prod.fst).Nodup
  /-- All new cells are different. -/
  distinct : (news.map Prod.snd ++ others).Nodup
  /-- They are new and unbound. -/
  new : ∀ v ∈ news.map Prod.snd ++ others,
    m.heap.vars.size ≤ v ∧ v < m'.heap.vars.size ∧ m'.heap.binding? v = none
  /-- Cells that were there are what they were. -/
  vars : ∀ v < m.heap.vars.size, m'.heap.vars[v]? = m.heap.vars[v]?
  /-- So are structures. -/
  structs : ∀ (s : StructId) cell, m.heap.structs[s]? = some cell → m'.heap.structs[s]? = some cell
  /-- One frame is on top of the stack. -/
  stack : m'.stack = m.stack.push m.frames.size
  /-- It is new. -/
  size : m'.frames.size = m.frames.size + 1
  /-- The other frames are what they were but for variables of the clause. -/
  frames : ∀ f < m.frames.size, f ≠ m.current → m'.frame f = m.frame f
  /-- The frame of the clause changes in its variables only. -/
  fields : { m'.frame m.current with vars := [] } = { m.frame m.current with vars := [] }

namespace Called

variable {seen : List String} {news : List (String × VarId)} {others : List VarId} {s : StructId}

/-- The cells that were there are what they were. -/
theorem grown (h : Called c label i g seen news others s m m') : m.heap.Grown [] m'.heap :=
  .of_cells h.vars h.structs

/-- Where all variables of the goal have values, the clause keeps them. -/
theorem value_eq (h : Called c label i g seen news others s m m')
    (hknown : ∀ x ∈ namesAll g.args, x ∈ seen ∧ (m.value? x).isSome) (x : String) :
    m'.value? x = m.value? x := by
  have hnews : news = [] := by
    rw [← List.map_eq_nil_iff (f := Prod.fst), List.eq_nil_iff_forall_not_mem]
    intro y hy
    obtain ⟨hname, hnot⟩ := (h.renewed y).1 hy
    exact hnot (hknown y hname)
  rw [h.entries, hnews]
  rfl

end Called

/-- The machine `m'`, about to call the goal in structure `s`, has made it as the pattern of the goal says,
    beside what `Called` tells. -/
structure Raised (g : Goal) (e : Emitter) (news : List (String × VarId)) (others : List VarId)
    (s : StructId) (m m' : Machine) : Prop where
  /-- The goal is the pattern. -/
  depicts : (g.pattern e.compiler e.constants).Depicts m'.heap
    (m'.known ((buildGoal g).eval e).2.seen) (.struct s) others
  /-- Nothing is bound. -/
  bindings : ∀ v, m'.heap.binding? v = m.heap.binding? v
  /-- Names have occurred that had occurred before or have new cells. -/
  occurred : ∀ x, x ∈ ((buildGoal g).eval e).2.seen ↔ x ∈ e.seen ∨ x ∈ news.map Prod.fst
  /-- A value that was there before stays. -/
  kept : ∀ x ∈ e.seen, (m.value? x).isSome → m'.value? x = m.value? x

/-- A frame is on top of the stack for a call that the clause of the machine `m` is about to make. -/
structure Allocated (m m' : Machine) : Prop where
  /-- The frame of the clause. -/
  current : m'.current = m.current
  /-- The heap is the same. -/
  heap : m'.heap = m.heap
  /-- The frame is on top. -/
  stack : m'.stack = m.stack.push m.frames.size
  /-- One frame was made. -/
  size : m'.frames.size = m.frames.size + 1
  /-- The others are what they were. -/
  frames : ∀ f < m.frames.size, m'.frame f = m.frame f
  /-- The frame is empty. -/
  new : m'.frame m.frames.size = { position := m.depth }

/-- **The frame of a call is made.** -/
theorem allocate_prepares (hw : w.maxSteps ≤ 0) (hblock : c.block? label = some block)
    (hi : block[i]? = some { op := .allocate }) (hat : At c label i m) (hactive : m.Active)
    (hcurrent : m.current < m.frames.size) :
    ∃ m', Step w m m' ∧ Preparing c label m.frames.size (i + 1) m' ∧ Allocated m m' := by
  have hadvance : m.advance w = (m.counted w { op := .allocate }).pushed :=
    hat.advance_eq hblock hi (room_of_unlimited hw)
  have hactive' : (m.advance w).Active := by
    rw [hadvance]
    exact hactive
  refine ⟨m.advance w, ⟨hactive, rfl, hactive'⟩,
    preparing_allocate hat hblock hi (room_of_unlimited hw) hcurrent, ?_⟩
  rw [hadvance]
  refine ⟨rfl, rfl, rfl, Array.size_push _, fun f hf => ?_, ?_⟩
  · show ((m.frames.push _)[f]?).getD _ = (m.frames[f]?).getD _
    rw [Array.getElem?_push, if_neg (Nat.ne_of_lt hf)]
  · show ((m.frames.push _)[m.frames.size]?).getD _ = _
    rw [Array.getElem?_push_size]
    rfl

/-- The code of a goal leads to its call, and makes the pattern of the goal. -/
theorem goal_raised (hw : w.maxSteps ≤ 0) (hnames : ∀ x ∈ namesAll g.args, isRegister x = false)
    (hblock : c.block? label = some block) (hcode : Segment block i (callCode g e op))
    (hat : At c label i m) (hactive : m.Active) (hcurrent : m.current < m.frames.size)
    (hquiet : (m.frame m.current).alternatives = []) (hdepth : 0 < m.depth) :
    ∃ m' s news others, Reaches w m m' ∧
      Called c label (i + callIndex g e) g e.seen news others s m m' ∧
      Raised g e news others s m m' := by
  have hcode' : Segment block i ({ op := .allocate } :: (((buildGoal g).eval e).1 ++
    [{ op := .setup }, { op := op }, { op := .maybeRetry }, { op := .deallocate }])) := hcode
  -- The frame of the call is made, the goal is built there, and the call is set up.
  obtain ⟨m₁, hstep₁, hprep, halloc⟩ := allocate_prepares hw hblock hcode'.head hat hactive hcurrent
  obtain ⟨m₂, news, others, hcon, hrebuilt, u, hu, hdepicts⟩ := buildGoal_rebuilds hnames hblock
    hcode'.tail.left hprep (room_of_unlimited hw)
  obtain ⟨s, us, hgoal, hcell, hdenotes⟩ := hrebuilt.goal
  have hactive₂ : m₂.Active := (hcon.reaches hstep₁.goes).active hstep₁.goes
  have hcurrent₂ : m₂.current = m.current := hcon.passes.current.trans halloc.current
  have hfields₂ : ∀ f, { m₂.frame f with vars := [] } = { m₁.frame f with vars := [] } :=
    hrebuilt.fields
  have hcaller₂ : { m₂.frame m.current with vars := [] } = { m.frame m.current with vars := [] } := by
    rw [hfields₂, halloc.frames _ hcurrent]
  have hquiet₂ : (m₂.frame m₂.current).alternatives = [] := by
    rw [hcurrent₂]
    exact (Frame.field_eq hcaller₂ Frame.alternatives fun _ => rfl).trans hquiet
  have hnew₂ : { m₂.frame m.frames.size with vars := [] } = ({ position := m.depth } : Frame) := by
    rw [hfields₂, halloc.new]
  have hsize₂ : m₂.frames.size = m.frames.size + 1 := by rw [hcon.passes.frames, halloc.size]
  have hstack₂ : m₂.stack = m.stack.push m.frames.size := by rw [hcon.passes.stack, halloc.stack]
  have htop₂ : m₂.top? = some m.frames.size := by rw [top?, hstack₂, Array.back?_push]
  have hdeep₂ : 1 < m₂.depth := by
    rw [depth, hstack₂, Array.size_push]
    exact Nat.succ_lt_succ hdepth
  obtain ⟨m₃, hstep₃, hselecting, hheap, hstack, hsize, hframes⟩ := setup_selects hw
    hcon.passes.behind hblock hcode'.tail.right.head hactive₂ (hcon.target.trans hprep.target)
    (hcurrent₂ ▸ hcurrent) (hsize₂ ▸ Nat.lt_succ_self _) hquiet₂ hnew₂ hgoal htop₂ hdeep₂
  rw [hcurrent₂] at hselecting
  have hindex : i + 1 + ((buildGoal g).eval e).1.length + 1 = i + callIndex g e := by
    unfold callIndex
    omega
  have hframe₃ : ∀ f < m.frames.size, m₃.frame f = m₂.frame f := fun f hf =>
    hframes f (Nat.ne_of_lt hf)
  have hvalue₁ : ∀ x, m₁.value? x = m.value? x := fun x =>
    congrArg (Frame.get? · x) ((congrArg m₁.frame halloc.current).trans (halloc.frames _ hcurrent))
  have hvalue₃ : ∀ x, m₃.value? x = m₂.value? x := fun x => by
    unfold value?
    rw [hselecting.current, hcurrent₂, hframe₃ _ hcurrent]
  obtain rfl : u = .struct s := Option.some.inj (hu.symm.trans hgoal)
  have hknown₃ : ∀ x u, m₂.known ((buildGoal g).eval e).2.seen x = some u →
      m₃.known ((buildGoal g).eval e).2.seen x = some u := by
    intro x u hx
    unfold known at hx ⊢
    split at hx
    · next hmem => rw [if_pos hmem, hvalue₃, hx]
    · exact absurd hx (by simp)
  have hraised : Raised g e news others s m m₃ :=
    { depicts := hheap ▸ hdepicts.mono (fun _ _ h => h) hknown₃
      bindings := fun v => by rw [hheap, hcon.makes.bindings, halloc.heap]
      occurred := fun x => by
        refine ⟨fun hx => ?_, fun hx => hx.elim (hcon.makes.mono x) fun hnew => (hcon.makes.noted x hnew).1⟩
        by_cases hbefore : x ∈ e.seen
        · exact .inl hbefore
        · exact .inr (hcon.makes.first x hx hbefore)
      kept := fun x hx hsome => by
        rw [hvalue₃, hcon.makes.entry_of_notMem (hcon.makes.kept x hx (hvalue₁ x ▸ hsome)), hvalue₁] }
  refine ⟨m₃, s, news, others, ((Reaches.single hstep₁).trans (hcon.reaches hstep₁.goes)).trans
    (.single hstep₃), ?_, hraised⟩
  exact
    { calling := hindex ▸ hselecting
      goal := ⟨us, hheap ▸ hcell, hheap ▸ hdenotes.mono (fun _ _ h => h) fun x u hx =>
        (hvalue₃ x).trans hx⟩
      renewed := fun x => by rw [hrebuilt.renewed, hvalue₁]
      entries := fun x => by rw [hvalue₃, hrebuilt.entries, hvalue₁]
      names := hrebuilt.names
      distinct := hrebuilt.distinct
      new := fun v hv => hheap ▸ halloc.heap ▸ hrebuilt.new v hv
      vars := fun v hv => by
        rw [hheap, ← halloc.heap]
        exact hrebuilt.vars v (halloc.heap.symm ▸ hv)
      structs := fun s cell hs => hheap ▸ hrebuilt.structs s cell (halloc.heap.symm ▸ hs)
      stack := hstack.trans hstack₂
      size := hsize.trans hsize₂
      frames := fun f hf hne => by
        rw [hframe₃ f hf, hrebuilt.frames f (halloc.current ▸ hne) (Nat.ne_of_lt hf),
          halloc.frames f hf]
      fields := by rw [hframe₃ _ hcurrent, hcaller₂] }

/-- **The code of a goal leads to its call.** -/
theorem goal_called (hw : w.maxSteps ≤ 0) (hnames : ∀ x ∈ namesAll g.args, isRegister x = false)
    (hblock : c.block? label = some block) (hcode : Segment block i (callCode g e op))
    (hat : At c label i m) (hactive : m.Active) (hcurrent : m.current < m.frames.size)
    (hquiet : (m.frame m.current).alternatives = []) (hdepth : 0 < m.depth) :
    ∃ m' s news others, Reaches w m m' ∧
      Called c label (i + callIndex g e) g e.seen news others s m m' := by
  obtain ⟨m', s, news, others, hreaches, hcalled, -⟩ :=
    goal_raised hw hnames hblock hcode hat hactive hcurrent hquiet hdepth
  exact ⟨m', s, news, others, hreaches, hcalled⟩

/-- The instructions of the call are there. -/
theorem callSite_of_segment (hop : op = .call ∨ op = .bcall) (hblock : c.block? label = some block)
    (hcode : Segment block i (callCode g e op)) : CallSite c label (i + callIndex g e) := by
  have hindex : ∀ k, i + callIndex g e + k = i + (((buildGoal g).eval e).1.length + 2 + k) := by
    intro k
    unfold callIndex
    omega
  have hget : ∀ k instr, [{ op := .setup }, { op := op }, { op := .maybeRetry },
      { op := .deallocate }][k + 1]? = some instr → block[i + callIndex g e + k]? = some instr := by
    intro k instr hk
    rw [hindex]
    refine hcode.get ?_
    show ({ op := .allocate } :: (((buildGoal g).eval e).1 ++ _))[_ + 2 + k]? = _
    rw [show ((buildGoal g).eval e).1.length + 2 + k = ((buildGoal g).eval e).1.length + (k + 1) + 1 by
      omega, List.getElem?_cons_succ, List.getElem?_append_right (Nat.le_add_right _ _),
      Nat.add_sub_cancel_left]
    exact hk
  exact ⟨block, op, hblock, hop, hget 0 _ rfl, hget 1 _ rfl, hget 2 _ rfl⟩

end Machine

end PrologMachine
