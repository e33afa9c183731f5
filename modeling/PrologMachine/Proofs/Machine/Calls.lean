/-
  PrologMachine.Proofs.Machine.Calls ── **A CALL FROM OUTSIDE.**

  The caller of a predicate runs three instructions: the call itself, the one that tries the next
  clause after a failure, and the one that drops the frame when no clause is left.  Seen from there
  a call is entered, returns, is tried again, or is given up.

    * `Machine.CallSite`, `Machine.Underway`: the instructions of a call, and a call that is under way.
    * `Machine.setup_selects`, `Machine.Selecting.enters`: a call is set up, and a clause is entered.
    * `Machine.proceed_returns`, `Machine.Underway.fails`: the clause comes to its end.
    * `Machine.Failing.retries`, `Machine.Failing.abandons`: the call failed.
    * `Machine.Attempt.retried`, `Machine.Attempt.givenUp`: what it had bound is unbound again.
-/
import PrologMachine.Proofs.Heap.Growth
import PrologMachine.Proofs.Machine.Replies

namespace PrologMachine

/-- A frame with other variables has the same fields otherwise. -/
theorem Frame.field_eq {α : Type} {fr fr' : Frame}
    (h : { fr' with vars := [] } = { fr with vars := [] }) (p : Frame → α)
    (hp : ∀ fr : Frame, p { fr with vars := [] } = p fr) : p fr' = p fr := by
  rw [← hp fr', ← hp fr, h]

namespace Machine

open Exec

variable {w : World} {c cl : Clause} {label l : String} {i j k : Nat} {block : Code}
  {f g : FrameId} {fr fr' : Frame} {s : StructId} {m m' m'' : Machine} {ok : Bool}

/-! ## §1. Changes of one frame. -/

/-- Of all frames only `f` has changed, and it is `fr` now. -/
structure Updates (f : FrameId) (fr : Frame) (m m' : Machine) : Prop where
  /-- The frame. -/
  self : m'.frame f = fr
  /-- The others. -/
  others : ∀ f', f' ≠ f → m'.frame f' = m.frame f'
  /-- No frame was made. -/
  size : m'.frames.size = m.frames.size

namespace Updates

/-- Where one frame is rewritten in place, it alone changes. -/
theorem of_modify (change : Frame → Frame) (hf : f < m.frames.size)
    (h : m'.frames = m.frames.modify f change) : Updates f (change (m.frame f)) m m' where
  self := (frame_modify h f).trans (frame_changeFrame_self hf)
  others f' hne := (frame_modify h f').trans (frame_changeFrame_of_ne hne)
  size := by rw [h, Array.size_modify]

/-- No frame changes where the list of frames is the same. -/
theorem of_frames (h : m'.frames = m.frames) : Updates f (m.frame f) m m' where
  self := by simp only [frame, h]
  others f' _ := by simp only [frame, h]
  size := by rw [h]

/-- Of two changes of one frame the later one counts. -/
protected theorem trans (h : Updates f fr m m') (h' : Updates f fr' m' m'') :
    Updates f fr' m m'' where
  self := h'.self
  others f' hne := (h'.others f' hne).trans (h.others f' hne)
  size := h'.size.trans h.size

/-- A later machine with the same frames has seen the same change. -/
theorem frames (h : Updates f fr m m') (hm : m''.frames = m'.frames) : Updates f fr m m'' :=
  h.trans (h.self ▸ of_frames hm)

end Updates

/-! ## §2. Call sites. -/

/-- Instruction `i` of the block is a call, and the two behind it see to its failure. -/
structure CallSite (c : Clause) (label : String) (i : Nat) : Prop where
  /-- The instructions. -/
  exists_block : ∃ block op, c.block? label = some block ∧ (op = .call ∨ op = .bcall) ∧
    block[i]? = some { op } ∧ block[i + 1]? = some { op := .maybeRetry } ∧
    block[i + 2]? = some { op := .deallocate }

/-- Where a call returns to that the frame `g` makes there. -/
def pastCall (c : Clause) (label : String) (i : Nat) (g : FrameId) : ReturnPoint :=
  { code := some c, label, index := i + 1, frame := g, alternatives := [] }

/-- The call of frame `f` is under way, which the frame `g` made there; `f` is on top. -/
structure Underway (c : Clause) (label : String) (i : Nat) (g f : FrameId) (m : Machine) : Prop where
  /-- Where it returns to. -/
  point : (m.frame f).returnPoint = some (pastCall c label i g)
  /-- No cut has removed it. -/
  uncut : (m.frame f).cutTo = none
  /-- It is not committed to a clause. -/
  uncommitted : (m.frame f).committed = false
  /-- The caller has no pending alternatives. -/
  quiet : (m.frame g).alternatives = []
  /-- The frame is on top. -/
  top : m.top? = some f
  /-- The frame of the caller is older. -/
  caller : g < f
  /-- The frame exists. -/
  lt : f < m.frames.size
  /-- There is a frame below. -/
  deep : 1 < m.depth

namespace Underway

/-- A call under way is a choice point, which a failure comes back to. -/
theorem choicePoint (h : Underway c label i g f m) : m.ChoicePoint f (pastCall c label i g) where
  top := h.top
  call := Nat.ne_of_gt (Nat.zero_lt_of_lt h.caller)
  uncut := h.uncut
  point := h.point
  caller := h.quiet

/-- The call stays under way while its frame keeps what concerns the caller.  It is under way again
    when goals that it has called are given up. -/
theorem later (h : Underway c label i g f m)
    (hpoint : (m'.frame f).returnPoint = (m.frame f).returnPoint)
    (hcut : (m'.frame f).cutTo = (m.frame f).cutTo)
    (hcommitted : (m'.frame f).committed = (m.frame f).committed)
    (hcaller : m'.frame g = m.frame g) (hsize : m.frames.size ≤ m'.frames.size)
    (hstack : m'.stack = m.stack) : Underway c label i g f m' where
  point := hpoint.trans h.point
  uncut := hcut.trans h.uncut
  uncommitted := hcommitted.trans h.uncommitted
  quiet := by rw [hcaller]; exact h.quiet
  top := by rw [top?, hstack]; exact h.top
  caller := h.caller
  lt := h.lt.trans_le hsize
  deep := by rw [depth, hstack]; exact h.deep

/-- A call stays under way where only its own frame changes, and not in what concerns the caller. -/
theorem updates (h : Underway c label i g f m) (hu : Updates f fr m m')
    (hpoint : fr.returnPoint = (m.frame f).returnPoint) (hcut : fr.cutTo = (m.frame f).cutTo)
    (hcommitted : fr.committed = (m.frame f).committed) (hstack : m'.stack = m.stack) :
    Underway c label i g f m' := by
  obtain ⟨rfl, hothers, hsize⟩ := hu
  exact h.later hpoint hcut hcommitted (hothers g (Nat.ne_of_lt h.caller)) hsize.ge hstack

/-- It stays under way where nothing changes but the machine's place in the code. -/
theorem of_matches (h : Underway c label i g f m) (hm : Matches m m') : Underway c label i g f m' :=
  h.updates (.of_frames hm.frames) rfl rfl rfl hm.stack

end Underway

/-- The call is left: control stands behind its three instructions. -/
structure Left (c : Clause) (label : String) (i : Nat) (g : FrameId) (ok : Bool) (m : Machine) :
    Prop where
  /-- It stands there. -/
  place : At c label (i + 3) m
  /-- The search goes on. -/
  active : m.Active
  /-- How the call came out. -/
  success : m.success = ok
  /-- The caller goes on. -/
  current : m.current = g

/-! ## §3. Entering a clause. -/

/-- The call of frame `f` is about to enter clause `j` of the goal in structure `s`. -/
structure Selecting (c : Clause) (label : String) (i : Nat) (g f : FrameId) (j : Nat) (s : StructId)
    (m : Machine) : Prop extends Underway c label i g f m where
  /-- It stands at the call. -/
  place : At c label i m
  /-- The search goes on. -/
  active : m.Active
  /-- The frame of the call. -/
  target : m.target = some f
  /-- The caller. -/
  current : m.current = g
  /-- The goal. -/
  goal : (m.frame f).get? "$x0" = some (.struct s)
  /-- The clause. -/
  clause : (m.frame f).clause = j
  /-- Nothing was bound. -/
  trail : (m.frame f).trail = []

/-- **The call is set up.**  Its frame has the goal, and is new otherwise. -/
theorem setup_selects {p : Nat} (hw : w.maxSteps ≤ 0) (hat : At c label i m)
    (hblock : c.block? label = some block) (hi : block[i]? = some { op := .setup })
    (hactive : m.Active) (htarget : m.target = some f) (hcaller : m.current < f)
    (hf : f < m.frames.size) (hquiet : (m.frame m.current).alternatives = [])
    (hnew : { m.frame f with vars := [] } = ({ position := p } : Frame))
    (hgoal : (m.frame f).get? "$x0" = some (.struct s)) (htop : m.top? = some f)
    (hdeep : 1 < m.depth) :
    ∃ m', Step w m m' ∧ Selecting c label (i + 1) m.current f 0 s m' ∧ m'.heap = m.heap ∧
      m'.stack = m.stack ∧ m'.frames.size = m.frames.size ∧
      ∀ f', f' ≠ f → m'.frame f' = m.frame f' := by
  let m' : Machine := (m.counted w { op := .setup }).readied f
  have hstep : Step w m m' := hat.step hblock hi (room_of_unlimited hw) hactive (eval_setup htarget)
    ⟨rfl, rfl, rfl, rfl⟩
  -- The caller has no alternatives that a disjunction left, so the return point carries none.
  have hpoint : (m.counted w { op := .setup }).callPoint = pastCall c label (i + 1) m.current := by
    show (⟨m.code, m.label, m.index + 1 + 1, m.current, (m.frame m.current).alternatives⟩ :
      ReturnPoint) = ⟨some c, label, _, m.current, []⟩
    rw [hat.code, hat.label, hat.index, hquiet]
  have hupdates : Updates f { m.frame f with
      clause := 0, returnPoint := some (pastCall c label (i + 1) m.current) } m m' := by
    rw [← hpoint]
    exact .of_modify (fun fr => { fr with
      clause := 0, returnPoint := some (m.counted w { op := .setup }).callPoint }) hf rfl
  -- The new frame has its defaults in every field but the variables.
  have hfield : ∀ {α : Type} (q : Frame → α), (∀ fr : Frame, q { fr with vars := [] } = q fr) →
      q (m.frame f) = q { position := p } := fun q hq => (hq _).symm.trans (congrArg q hnew)
  refine ⟨m', hstep, ⟨⟨?_, ?_, ?_, ?_, htop, hcaller, hupdates.size.symm ▸ hf, hdeep⟩,
    ⟨hat.code, hat.label, congrArg (· + 1) hat.index⟩, hstep.goes, htarget, rfl, ?_, ?_, ?_⟩, rfl, rfl,
    hupdates.size, hupdates.others⟩
  · rw [hupdates.self]
  · rw [hupdates.self]
    exact hfield Frame.cutTo fun _ => rfl
  · rw [hupdates.self]
    exact hfield Frame.committed fun _ => rfl
  · rw [hupdates.others _ (Nat.ne_of_lt hcaller)]
    exact hquiet
  · rw [hupdates.self]
    exact hgoal
  · rw [hupdates.self]
  · rw [hupdates.self]
    exact hfield Frame.trail fun _ => rfl

/-- The clause `cl` of the goal in structure `s` was entered in frame `f`. -/
structure Entered (cl : Clause) (f : FrameId) (m : Machine) : Prop where
  /-- It stands at the beginning. -/
  place : At cl headLabel 0 m
  /-- The search goes on. -/
  active : m.Active
  /-- The frame of the clause. -/
  current : m.current = f
  /-- Nothing has failed. -/
  success : m.success = true
  /-- The goal is not taken apart yet. -/
  decoding : m.decoding = none
  /-- No register is being decoded. -/
  register : m.register = ""

theorem eval_execute_call {op : Opcode} (hop : op = .call ∨ op = .bcall) :
    execute w { op } = Exec.call w op := by
  rcases hop with rfl | rfl <;> rfl

/-- **A clause is entered.** -/
theorem Selecting.enters {cell : StructCell} {cs : List Clause} (h : Selecting c label i g f j s m)
    (hw : w.maxSteps ≤ 0) (hsite : CallSite c label i) (hcell : m.heap.structCell s = cell)
    (hcs : w.base.get ⟨cell.name, cell.args.length⟩ = .ok cs) (hcl : cs[j]? = some cl)
    (hnative : cl.native = false) :
    ∃ m', Step w m m' ∧ Entered cl f m' ∧ m'.heap = m.heap ∧ m'.stack = m.stack ∧
      Updates f { m.frame f with
        vars := [("$x0", .struct s)], alternatives := [], cutTo := none, clauses := cs.length } m m' := by
  obtain ⟨block, op, hblock, hop, hi, -, -⟩ := hsite.exists_block
  have hclause : cs[((m.counted w { op }).frame f).clause]? = some cl := by
    rw [show ((m.counted w { op }).frame f).clause = j from h.clause]
    exact hcl
  -- The call finds the clause of that number and enters it.
  have heval : eval (execute w { op }) (m.counted w { op }) =
      (.ok (), ((m.counted w { op }).called f (.struct s) cs.length).entered f cl) := by
    rw [eval_execute_call hop]
    exact eval_call_enter (m := m.counted w { op }) h.target h.goal hcell hcs hclause hnative
  have hstep := h.place.step hblock hi (room_of_unlimited hw) h.active heval ⟨rfl, rfl, rfl, rfl⟩
  -- Only the frame of the call changes.
  have hupdates : Updates f _ m
      (((m.counted w { op }).called f (.struct s) cs.length).entered f cl) :=
    .of_modify (fun fr => { fr with
      vars := [("$x0", .struct s)], alternatives := [], cutTo := none, clauses := cs.length })
      h.lt rfl
  exact ⟨_, hstep, ⟨⟨rfl, rfl, rfl⟩, hstep.goes, rfl, rfl, rfl, rfl⟩, rfl, rfl, hupdates⟩

/-! ## §4. Leaving a clause. -/

/-- The call of frame `f` failed: its next clause is to be tried. -/
structure Failing (c : Clause) (label : String) (i : Nat) (g f : FrameId) (m : Machine) : Prop
    extends Underway c label i g f m where
  /-- It stands behind the call. -/
  place : At c label (i + 1) m
  /-- The search goes on. -/
  active : m.Active
  /-- The frame of the call. -/
  target : m.target = some f
  /-- The caller. -/
  current : m.current = g
  /-- The call failed. -/
  failed : m.success = false

/-- **A failure resumes the call.** -/
theorem Underway.resumes (h : Underway c label i g f m) (hactive : m.Active) :
    Failing c label i g f (m.resumed f (pastCall c label i g)) := by
  have hpoint := h.choicePoint
  refine ⟨h.of_matches hpoint.matches_resumed, ?_, hpoint.flags_resumed.active hactive, ?_, ?_, ?_⟩
  all_goals rw [hpoint.resumed_eq]
  · exact ⟨rfl, rfl, rfl⟩
  all_goals rfl

/-- **A clause that succeeded returns.** -/
theorem proceed_returns (hpoint : (m.frame f).returnPoint = some (pastCall c label i g))
    (hcaller : g < f) (hw : w.maxSteps ≤ 0) (hsite : CallSite c label i) (hat : At cl l k m)
    (hblock : cl.block? l = some block) (hi : block[k]? = some { op := .proceed })
    (hactive : m.Active) (hcurrent : m.current = f) (hs : m.success = true) :
    ∃ m', Reaches w m m' ∧ Matches m m' ∧ Left c label i g true m' := by
  obtain ⟨block', op, hblock', -, -, hretry, hdrop⟩ := hsite.exists_block
  have hcall : (m.counted w { op := .proceed }).current ≠ queryFrame := by
    rw [show (m.counted w { op := .proceed }).current = f from hcurrent]
    exact Nat.ne_of_gt (Nat.zero_lt_of_lt hcaller)
  have hr : ((m.counted w { op := .proceed }).frame
      (m.counted w { op := .proceed }).current).returnPoint = some (pastCall c label i g) := by
    rw [show (m.counted w { op := .proceed }).current = f from hcurrent]
    exact hpoint
  have hstep := hat.step hblock hi (room_of_unlimited hw) hactive
    (eval_proceed_return hs hcall hr) ⟨rfl, rfl, rfl, rfl⟩
  generalize hm₁ : ({ m.counted w { op := .proceed } with
    code := (pastCall c label i g).code, label := (pastCall c label i g).label
    index := (pastCall c label i g).index
    target := some (m.counted w { op := .proceed }).current
    current := (pastCall c label i g).frame } : Machine) = m₁ at hstep
  have hat₁ : At c label (i + 1) m₁ := by subst hm₁; exact ⟨rfl, rfl, rfl⟩
  have hs₁ : m₁.success = true := by subst hm₁; exact hs
  -- Behind a success the two instructions that see to a failure do nothing.
  have hstep₁ := hat₁.step hblock' hretry (room_of_unlimited hw) hstep.goes
    (eval_maybeRetry_success (m := m₁.counted w { op := .maybeRetry }) hs₁) ⟨rfl, rfl, rfl, rfl⟩
  have hat₂ : At c label (i + 2) (m₁.counted w { op := .maybeRetry }) := hat₁.counted
  have hstep₂ := hat₂.step hblock' hdrop (room_of_unlimited hw) hstep₁.goes
    (eval_deallocate_keep (m := (m₁.counted w { op := .maybeRetry }).counted w { op := .deallocate })
      (.inl hs₁)) ⟨rfl, rfl, rfl, rfl⟩
  refine ⟨_, ((Reaches.single hstep).trans (.single hstep₁)).trans (.single hstep₂), ?_, ?_,
    hstep₂.goes, ?_, ?_⟩
  · subst hm₁
    exact ⟨rfl, rfl, rfl⟩
  · exact hat₁.counted.counted
  · exact hs₁
  · subst hm₁
    rfl

/-- **A clause that failed at its end resumes its call.** -/
theorem Underway.fails (h : Underway c label i g f m) (hw : w.maxSteps ≤ 0) (hat : At cl l k m)
    (hblock : cl.block? l = some block) (hi : block[k]? = some { op := .proceed })
    (hactive : m.Active) (hcurrent : m.current = f) (hs : m.success = false)
    (hquiet : (m.frame f).alternatives = []) :
    ∃ m', Step w m m' ∧ Matches m m' ∧ Failing c label i g f m' := by
  let m₁ : Machine := m.counted w { op := .proceed }
  have h₁ : Underway c label i g f m₁ := h.of_matches ⟨rfl, rfl, rfl⟩
  have hquiet₁ : (m₁.frame m₁.current).alternatives = [] := by
    rw [show m₁.current = f from hcurrent]
    exact hquiet
  -- At its end the clause is left, and a call that failed goes back to where it was made.
  have heval : eval (execute w { op := .proceed }) m₁ =
      (.ok (), m₁.resumed f (pastCall c label i g)) := by
    show eval proceed m₁ = _
    rw [eval_proceed_failure (show m₁.success = false from hs)]
    exact h₁.choicePoint.eval_failure hquiet₁
  have hflags : Flags m (m₁.resumed f (pastCall c label i g)) := by
    rw [h₁.choicePoint.resumed_eq]
    exact ⟨rfl, rfl, rfl, rfl⟩
  have hactive₁ : m₁.Active := hactive
  refine ⟨_, hat.step hblock hi (room_of_unlimited hw) hactive heval hflags, ?_,
    h₁.resumes hactive₁⟩
  rw [h₁.choicePoint.resumed_eq]
  exact ⟨rfl, rfl, rfl⟩

/-! ## §5. After a failure. -/

/-- The bindings of the failed call are undone. -/
theorem Failing.updates_unwound (h : Failing c label i g f m) (instr : Instruction) :
    Updates f { m.frame f with trail := [] } m ((m.counted w instr).unwound f 0) := by
  have hupdates : Updates f _ m ((m.counted w instr).unwound f 0) :=
    .of_modify (fun fr => { fr with
      trail := (m.frame f).trail.drop ((m.frame f).trail.length - 0) }) h.lt rfl
  rwa [Nat.sub_zero, List.drop_length] at hupdates

/-- **The next clause is tried.** -/
theorem Failing.retries (h : Failing c label i g f m) (hw : w.maxSteps ≤ 0)
    (hsite : CallSite c label i) (hu : Unwindable m f)
    (hmore : (m.frame f).clause + 1 < (m.frame f).clauses) :
    ∃ m', Step w m m' ∧ At c label i m' ∧ m'.target = some f ∧ m'.current = g ∧
      m'.heap = m.heap.resetAll (m.frame f).trail ∧ m'.stack = m.stack ∧
      Updates f { m.frame f with trail := [], clause := (m.frame f).clause + 1 } m m' := by
  obtain ⟨block, op, hblock, -, -, hretry, -⟩ := hsite.exists_block
  let m₁ : Machine := m.counted w { op := .maybeRetry }
  have hu₁ : Unwindable m₁ f := hu
  -- Another clause is left, so undoing the bindings goes on with it, two instructions back.
  have hcond : (m₁.frame f).committed = false ∧ (m₁.frame f).clause + 1 < (m₁.frame f).clauses :=
    ⟨h.uncommitted, hmore⟩
  have heval : eval (execute w { op := .maybeRetry }) m₁ =
      (.ok (), { m₁.unwound f 0 with index := (m₁.unwound f 0).index - 2 }.changeFrame f
        (fun fr => { fr with clause := fr.clause + 1 })) := by
    show eval maybeRetry m₁ = _
    rw [eval_maybeRetry_failure (m := m₁) h.failed h.target, eval_retry hu₁, if_pos hcond]
    rfl
  refine ⟨_, h.place.step hblock hretry (room_of_unlimited hw) h.active heval ⟨rfl, rfl, rfl, rfl⟩,
    ⟨h.place.code, h.place.label, ?_⟩, h.target, h.current, ?_, rfl, ?_⟩
  · show m.index + 1 - 2 = i
    rw [h.place.index]
    rfl
  · show m.heap.resetAll ((m.frame f).trail.take ((m.frame f).trail.length - 0)) = _
    rw [Nat.sub_zero, List.take_length]
  -- First the trail is emptied, then the number of the clause goes up: both changes are of the same
  -- frame.
  · have hunwound := h.updates_unwound (w := w) { op := .maybeRetry }
    have hnext : Updates f _ (m₁.unwound f 0)
        ({ m₁.unwound f 0 with index := (m₁.unwound f 0).index - 2 }.changeFrame f
          (fun fr => { fr with clause := fr.clause + 1 })) :=
      .of_modify (fun fr => { fr with clause := fr.clause + 1 }) (hunwound.size.symm ▸ h.lt) rfl
    rw [hunwound.self] at hnext
    exact hunwound.trans hnext

/-- **A call without clauses left is given up.** -/
theorem Failing.abandons (h : Failing c label i g f m) (hw : w.maxSteps ≤ 0)
    (hsite : CallSite c label i) (hu : Unwindable m f)
    (hlast : (m.frame f).clauses ≤ (m.frame f).clause + 1) :
    ∃ m', Reaches w m m' ∧ Left c label i g false m' ∧
      m'.heap = m.heap.resetAll (m.frame f).trail ∧ m'.stack = m.stack.pop ∧
      (∀ f', f' ≠ f → m'.frame f' = m.frame f') ∧ m'.frames.size = m.frames.size := by
  obtain ⟨block, op, hblock, -, -, hretry, hdrop⟩ := hsite.exists_block
  let m₁ : Machine := m.counted w { op := .maybeRetry }
  have hu₁ : Unwindable m₁ f := hu
  have hcond : ¬ ((m₁.frame f).committed = false ∧
      (m₁.frame f).clause + 1 < (m₁.frame f).clauses) := fun hmore => Nat.not_lt.mpr hlast hmore.2
  have heval₁ : eval (execute w { op := .maybeRetry }) m₁ = (.ok (), m₁.unwound f 0) := by
    show eval maybeRetry m₁ = _
    rw [eval_maybeRetry_failure (m := m₁) h.failed h.target, eval_retry hu₁, if_neg hcond]
    rfl
  have hstep₁ := h.place.step hblock hretry (room_of_unlimited hw) h.active heval₁
    ⟨rfl, rfl, rfl, rfl⟩
  have hunwound := h.updates_unwound (w := w) { op := .maybeRetry }
  -- The frame is left without bindings, so dropping it undoes none.
  let m₂ : Machine := (m₁.unwound f 0).counted w { op := .deallocate }
  have htrail : (m₂.frame f).trail = [] := by
    show ((m₁.unwound f 0).frame f).trail = []
    rw [hunwound.self]
  have hu₂ : Unwindable { m₂ with target := none } f := by
    show (m₂.frame f).trail.Nodup ∧ ∀ v ∈ (m₂.frame f).trail, _
    rw [htrail]
    exact ⟨List.nodup_nil, fun v hv => absurd hv List.not_mem_nil⟩
  have heval₂ : eval (execute w { op := .deallocate }) m₂ =
      (.ok (), ({ m₂ with target := none } : Machine).popped) := by
    show eval deallocate m₂ = _
    rw [eval_deallocate_drop (m := m₂) h.failed h.target h.choicePoint.call h.top]
    exact eval_pop (m := { m₂ with target := none }) h.deep h.top hu₂
  have hpopped : ({ m₂ with target := none } : Machine).popped =
      { ({ m₂ with target := none } : Machine).unwound f 0 with stack := m.stack.pop } := by
    rw [popped, show ({ m₂ with target := none } : Machine).top? = some f from h.top]
    rfl
  have hat₁ : At c label (i + 2) (m₁.unwound f 0) := ⟨h.place.code, h.place.label, by
    show m.index + 1 = i + 2
    rw [h.place.index]⟩
  have hstep₂ := hat₁.step hblock hdrop (room_of_unlimited hw) hstep₁.goes heval₂
    (by rw [hpopped]; exact ⟨rfl, rfl, rfl, rfl⟩)
  refine ⟨_, (Reaches.single hstep₁).trans (.single hstep₂), ?_⟩
  have hgoes := hstep₂.goes
  rw [hpopped] at hgoes ⊢
  have hlast : Updates f _ (m₁.unwound f 0) (({ m₂ with target := none } : Machine).unwound f 0) :=
    .of_modify (fun fr => { fr with
      trail := (m₂.frame f).trail.drop ((m₂.frame f).trail.length - 0) })
      (hunwound.size.symm ▸ h.lt) rfl
  have hboth := hunwound.trans hlast
  refine ⟨⟨⟨h.place.code, h.place.label, ?_⟩, hgoes, h.failed, h.current⟩, ?_, rfl, hboth.others,
    hboth.size⟩
  · show m.index + 1 + 1 = i + 3
    rw [h.place.index]
  · show (m.heap.resetAll ((m.frame f).trail.take ((m.frame f).trail.length - 0))).resetAll
      ((m₂.frame f).trail.take ((m₂.frame f).trail.length - 0)) = _
    rw [htrail, Nat.sub_zero, List.take_length]
    rfl

/-! ## §6. What a call leaves. -/

/-- Frames older than `f` are what they were, and so are the cells but for the variables in `vs`;
    there may be new frames and new cells. -/
structure Preserves (f : FrameId) (vs : List VarId) (m m' : Machine) : Prop where
  /-- Older frames are what they were. -/
  frames : ∀ f' < f, m'.frame f' = m.frame f'
  /-- No frame is lost. -/
  size : m.frames.size ≤ m'.frames.size
  /-- The cells. -/
  cells : m.heap.Grown vs m'.heap

namespace Preserves

variable {vs vs' : List VarId}

/-- A second stretch may also bind variables that the first one made. -/
protected theorem trans (h : Preserves f vs m m') (h' : Preserves g vs' m' m'') (hf : f ≤ g)
    (hvs : ∀ v ∈ vs', v ∈ vs ∨ m.heap.vars.size ≤ v) : Preserves f vs m m'' where
  frames f' hf' := (h'.frames f' (hf'.trans_le hf)).trans (h.frames f' hf')
  size := h.size.trans h'.size
  cells := h.cells.trans h'.cells hvs

/-- It may be said to bind more variables than it does. -/
theorem mono (h : Preserves f vs m m') (hvs : vs ⊆ vs') : Preserves f vs' m m' :=
  ⟨h.frames, h.size, h.cells.mono hvs⟩

/-- What a step leaves alone stays preserved. -/
theorem of_matches (h : Preserves f vs m m') (hm : Matches m' m'') : Preserves f vs m m'' where
  frames f' hf' := (hm.frame f').trans (h.frames f' hf')
  size := hm.frames ▸ h.size
  cells := hm.heap ▸ h.cells

end Preserves

/-- The call of frame `f`, made with the machine `m`, has no more answers. -/
structure GivenUp (c : Clause) (label : String) (i : Nat) (g f : FrameId) (m m' : Machine) : Prop
    extends Preserves f [] m m' where
  /-- It was left. -/
  left : Left c label i g false m'
  /-- The frame of the call is gone. -/
  stack : m'.stack = m.stack.pop

/-- The machine `m'` tries the call of frame `f` again that was made with the machine `m`. -/
structure Retried (f : FrameId) (m m' : Machine) : Prop extends Preserves f [] m m' where
  /-- The stack is what it was. -/
  stack : m'.stack = m.stack

/-- A call that is given up after it was tried again is given up, seen from the first try. -/
theorem GivenUp.retried (h : GivenUp c label i g f m' m'') (hr : Retried f m m') :
    GivenUp c label i g f m m'' where
  toPreserves := hr.toPreserves.trans h.toPreserves le_rfl fun _ hv => .inl hv
  left := h.left
  stack := h.stack.trans (congrArg Array.pop hr.stack)

/-- A clause of the call of frame `f` has bound variables.  Those in `vs` were there and unbound when
    the call was made with the machine `m`; the others were made since. -/
structure Attempt (f : FrameId) (vs : List VarId) (m m' : Machine) : Prop
    extends Preserves f vs m m' where
  /-- The stack is what it was. -/
  stack : m'.stack = m.stack
  /-- The trail can be undone. -/
  unwindable : Unwindable m' f
  /-- The variables were unbound. -/
  free : ∀ v ∈ vs, m.heap.binding? v = none
  /-- They are on the trail. -/
  recorded : ∀ v ∈ vs, v ∈ (m'.frame f).trail
  /-- So are some of the new variables. -/
  new : ∀ v ∈ (m'.frame f).trail, v ∈ vs ∨ m.heap.vars.size ≤ v

namespace Attempt

variable {vs : List VarId}

/-- With the bindings of the attempt undone, the older cells are what they were before it. -/
theorem resetAll (h : Attempt f vs m m') : m.heap.Grown [] (m'.heap.resetAll (m'.frame f).trail) :=
  h.cells.resetAll h.free h.recorded h.new

/-- **The next clause finds the cells as the first did.** -/
theorem retried (h : Attempt f vs m m') (hm : Failing c label i g f m') (hw : w.maxSteps ≤ 0)
    (hsite : CallSite c label i) (hgoal : (m'.frame f).get? "$x0" = some (.struct s))
    (hclause : (m'.frame f).clause = j) (hmore : j + 1 < (m'.frame f).clauses) :
    ∃ m'', Step w m' m'' ∧ Selecting c label i g f (j + 1) s m'' ∧ Retried f m m'' := by
  subst hclause
  -- The call is retried with its next clause, and the trail of the attempt is undone.
  obtain ⟨m'', hstep, hat, htarget, hcurrent, hheap, hstack, hupdates⟩ :=
    hm.retries hw hsite h.unwindable hmore
  refine ⟨m'', hstep, ?_, ⟨fun f' hf' => ?_, ?_, ?_⟩, hstack.trans h.stack⟩
  · exact
      { toUnderway := hm.toUnderway.updates hupdates rfl rfl rfl hstack
        place := hat
        active := hstep.goes
        target := htarget
        current := hcurrent
        goal := by rw [hupdates.self]; exact hgoal
        clause := by rw [hupdates.self]
        trail := by rw [hupdates.self] }
  · rw [hupdates.others f' (Nat.ne_of_lt hf'), h.frames f' hf']
  · rw [hupdates.size]
    exact h.size
  · rw [hheap]
    exact h.resetAll

/-- **So does whoever made the call**, when no clause is left. -/
theorem givenUp (h : Attempt f vs m m') (hm : Failing c label i g f m') (hw : w.maxSteps ≤ 0)
    (hsite : CallSite c label i) (hlast : (m'.frame f).clauses ≤ (m'.frame f).clause + 1) :
    ∃ m'', Reaches w m' m'' ∧ GivenUp c label i g f m m'' := by
  obtain ⟨m'', hrun, hleft, hheap, hstack, hframes, hsize⟩ := hm.abandons hw hsite h.unwindable hlast
  refine ⟨m'', hrun, ⟨fun f' hf' => ?_, ?_, ?_⟩, hleft, hstack.trans (congrArg Array.pop h.stack)⟩
  · rw [hframes f' (Nat.ne_of_lt hf'), h.frames f' hf']
  · rw [hsize]
    exact h.size
  · rw [hheap]
    exact h.resetAll

end Attempt

end Machine

end PrologMachine
