/-
  PrologMachine.Proofs.Machine.Unwinding ── **WHAT CONTROL ACTIONS DO.**

  Calls, returns and backtracking, evaluated once.  Undoing bindings can only go wrong on a trail
  that repeats a variable or names an unbound one; on all others it is a plain change of the state.

    * `Exec.unwindTrail_eq`: a trail of distinct bound variables unwinds without a fault.
    * `Machine.unwound`, `Machine.popped`, `Machine.poppedMany` are the states it leaves.
    * `Machine.resumed`, `Machine.entered` are the states in which a call is resumed and entered.
-/
import PrologMachine.Proofs.Machine.Actions

namespace PrologMachine

/-! ## §1. Frames. -/

namespace Machine

variable {m : Machine} {f f' : FrameId} {g : Frame → Frame}

/-- A changed frame is changed. -/
theorem frame_changeFrame_self (hf : f < m.frames.size) :
    (m.changeFrame f g).frame f = g (m.frame f) := by
  simp [frame, changeFrame, Array.getElem_modify, hf]

/-- The other frames are as they were. -/
theorem frame_changeFrame_of_ne (hne : f' ≠ f) : (m.changeFrame f g).frame f' = m.frame f' := by
  simp [frame, changeFrame, Array.getElem?_modify, hne.symm]

/-- A field that a change leaves alone is as it was, in every frame. -/
theorem frame_changeFrame_field {α : Type} (p : Frame → α) (hp : ∀ fr, p (g fr) = p fr) :
    p ((m.changeFrame f g).frame f') = p (m.frame f') := by
  by_cases hne : f' = f
  · subst hne
    by_cases hf : f' < m.frames.size
    · rw [frame_changeFrame_self hf, hp]
    · simp [frame, changeFrame, hf]
  · rw [frame_changeFrame_of_ne hne]

/-- The frames of a machine one of whose frames was changed. -/
theorem frame_modify {m' : Machine} (hframes : m'.frames = m.frames.modify f g) (f' : FrameId) :
    m'.frame f' = (m.changeFrame f g).frame f' := by
  simp [frame, Machine.changeFrame, hframes]

@[simp] theorem frames_size_changeFrame : (m.changeFrame f g).frames.size = m.frames.size := by
  simp [changeFrame]

/-- The frame on top of the stack without its bindings behind the first `mark`. -/
def unwound (m : Machine) (f : FrameId) (mark : Nat) : Machine :=
  { m with
    heap := m.heap.resetAll
      ((m.frame f).trail.take ((m.frame f).trail.length - mark)) }.changeFrame f
    (fun fr => { fr with
      trail := (m.frame f).trail.drop ((m.frame f).trail.length - mark) })

/-- The machine without the top frame and its bindings. -/
def popped (m : Machine) : Machine :=
  match m.top? with
  | some f => { m.unwound f 0 with stack := m.stack.pop }
  | none => m

/-- The machine without the top `n` frames and their bindings. -/
def poppedMany : Nat → Machine → Machine
  | 0, m => m
  | n + 1, m => poppedMany n m.popped

/-- The machine with a new frame on top. -/
def pushed (m : Machine) : Machine :=
  { m with
    frames := m.frames.push { position := m.depth }, stack := m.stack.push m.frames.size
    target := some m.frames.size }

/-- The call of a frame returns as failed. -/
def resumed (m : Machine) (f : FrameId) (r : ReturnPoint) : Machine :=
  { m with
    code := r.code, label := r.label, index := r.index, current := r.frame, target := some f
    success := false }.changeFrame r.frame (fun fr => { fr with alternatives := r.alternatives })

/-- The frame of a call with nothing in it but the goal. -/
def cleared (m : Machine) (f : FrameId) (goal : Value) : Machine :=
  m.changeFrame f (fun fr => { fr with vars := [("$x0", goal)], alternatives := [], cutTo := none })

/-- The frame of a call with nothing in it but the goal and the number of its clauses. -/
def called (m : Machine) (f : FrameId) (goal : Value) (count : Nat) : Machine :=
  m.changeFrame f (fun fr =>
    { fr with vars := [("$x0", goal)], alternatives := [], cutTo := none, clauses := count })

/-- A clause of the goal of frame `f` is entered. -/
def entered (m : Machine) (f : FrameId) (c : Clause) : Machine :=
  { m with
    code := some c, label := headLabel, index := 0, current := f, success := true
    decoding := none, argument := 0, register := "" }

/-- The point behind the call instruction that follows. -/
def callPoint (m : Machine) : ReturnPoint :=
  { code := m.code, label := m.label, index := m.index + 1, frame := m.current
    alternatives := (m.frame m.current).alternatives }

/-- The call of frame `f` is set up. -/
def readied (m : Machine) (f : FrameId) : Machine :=
  m.changeFrame f (fun fr => { fr with clause := 0, returnPoint := some m.callPoint })

/-- An alternative of the running clause is recorded while `f` is on top. -/
def recorded (m : Machine) (f : FrameId) (label : String) : Machine :=
  m.changeFrame m.current (fun fr =>
    { fr with alternatives := ⟨label, m.depth, (m.frame f).trail.length⟩ :: fr.alternatives })

/-- The mark that a cut leaves: the lower one of its barrier and of an older mark. -/
def lowerMark (barrier : Nat) : Option Nat → Option Nat
  | some old => if barrier < old then some barrier else some old
  | none => some barrier

/-- The running clause has committed itself while `f` is on top. -/
def severed (m : Machine) (f : FrameId) : Machine :=
  (m.changeFrame f (fun fr =>
      { fr with cutTo := lowerMark (m.frame m.current).position fr.cutTo })).changeFrame
    m.current (fun fr => { fr with committed := true, alternatives := [] })

/-- Two changes of a frame in turn are one. -/
theorem changeFrame_changeFrame {g' : Frame → Frame} :
    (m.changeFrame f g).changeFrame f g' = m.changeFrame f (fun fr => g' (g fr)) := by
  have h : (m.frames.modify f g).modify f g' = m.frames.modify f (fun fr => g' (g fr)) := by
    apply Array.ext_getElem?
    intro k
    simp only [Array.getElem?_modify]
    split
    · simp [Function.comp_def]
    · rfl
  simp only [changeFrame, h]

/-- Noting the number of clauses after clearing is one change. -/
theorem changeFrame_cleared {goal : Value} (count : Nat) :
    (m.cleared f goal).changeFrame f (fun fr => { fr with clauses := count }) =
      m.called f goal count :=
  changeFrame_changeFrame

/-- Noting another number of clauses supersedes the first. -/
theorem changeFrame_called {goal : Value} {count : Nat} (count' : Nat) :
    (m.called f goal count).changeFrame f (fun fr => { fr with clauses := count' }) =
      m.called f goal count' :=
  changeFrame_changeFrame

end Machine

namespace Exec

variable {w : World} {m : Machine} {f : FrameId} {op : Opcode}

/-! ## §2. Undoing bindings. -/

/-- **A trail of distinct bound variables unwinds without a fault.** -/
theorem unwindTrail_eq : ∀ (n : Nat) (vs : List VarId) (h : Heap), vs.Nodup →
    (∀ v ∈ vs, h.isBound v = true) →
    unwindTrail n vs h = (none, vs.drop n, h.resetAll (vs.take n)) := by
  intro n vs
  induction vs generalizing n with
  | nil => intro h _ _; cases n <;> rfl
  | cons v vs ih =>
    intro h hnd hb
    cases n with
    | zero => rfl
    | succ n =>
      obtain ⟨hv, hnd⟩ := List.nodup_cons.1 hnd
      simp only [unwindTrail, hb v (by simp), if_true, List.drop_succ_cons, List.take_succ_cons]
      rw [ih n (h.reset v) hnd]
      · rfl
      · intro u hu
        have hne : u ≠ v := by rintro rfl; exact hv hu
        have := hb u (by simp [hu])
        rwa [Heap.isBound, Heap.binding?_reset, if_neg hne]

/-- The trail of a frame names each bound variable once. -/
def Unwindable (m : Machine) (f : FrameId) : Prop :=
  (m.frame f).trail.Nodup ∧ ∀ v ∈ (m.frame f).trail, m.heap.isBound v = true

/-- Undoing a trail to a mark succeeds where its variables are bound. -/
theorem eval_unwindTo (hu : Unwindable m f) (mark : Nat) :
    eval (unwindTo f mark) m = (.ok (), m.unwound f mark) := by
  simp [unwindTo, unwindTrail_eq _ _ _ hu.1 hu.2, Machine.unwound]

theorem eval_unwind (hu : Unwindable m f) : eval (unwind f) m = (.ok (), m.unwound f 0) :=
  eval_unwindTo hu 0

/-- A frame above another one is popped. -/
theorem eval_pop (hd : 1 < m.depth) (ht : m.top? = some f) (hu : Unwindable m f) :
    eval pop m = (.ok (), m.popped) := by
  have hd' : ¬ m.depth ≤ 1 := by omega
  simp [pop, hd', ht, unwindTrail_eq _ _ _ hu.1 hu.2, Machine.popped, Machine.unwound,
    Machine.changeFrame]

/-! ## §3. Failure. -/

@[simp] theorem eval_jump (label : String) :
    eval (jump label) m = (.ok (), { m with label, index := 0 }) := rfl

/-- A return sets the place in the code to the return point. -/
theorem eval_returnTo {r : ReturnPoint} (hr : (m.frame f).returnPoint = some r) :
    eval (returnTo f) m =
      (.ok (), { m with code := r.code, label := r.label, index := r.index }) := by
  simp [returnTo, hr]

/-- A call is resumed at its return point. -/
theorem eval_resume {r : ReturnPoint} (hr : (m.frame f).returnPoint = some r) :
    eval (resume f) m = (.ok (), m.resumed f r) := by
  simp [resume, hr, eval_returnTo hr, Machine.resumed]

/-- Without a frame above that of the query there is nothing to go back to. -/
theorem eval_backtrack_query (ht : m.top? = some Machine.queryFrame) :
    eval backtrack m = (.ok false, m) := by
  simp [backtrack, ht]

/-- Without a mark the top frame is resumed. -/
theorem eval_backtrack_top {r : ReturnPoint} (ht : m.top? = some f) (hf : f ≠ Machine.queryFrame)
    (hc : (m.frame f).cutTo = none) (hr : (m.frame f).returnPoint = some r) :
    eval backtrack m = (.ok true, m.resumed f r) := by
  simp [backtrack, ht, hf, hc, eval_resume hr]

/-- A mark for the frame of the query ends the search. -/
theorem eval_backtrack_cut_query {cut : Nat} {m' : Machine} (ht : m.top? = some f)
    (hf : f ≠ Machine.queryFrame) (hc : (m.frame f).cutTo = some cut)
    (hp : eval (popMany (m.depth - 1 - cut)) m = (.ok (), m'))
    (ht' : m'.top? = some Machine.queryFrame) :
    eval backtrack m = (.ok false, m') := by
  simp [backtrack, ht, hf, hc, hp, ht']

/-- A mark is gone down to, and the frame found there is resumed. -/
theorem eval_backtrack_cut {cut : Nat} {m' : Machine} {f' : FrameId} {r : ReturnPoint}
    (ht : m.top? = some f) (hf : f ≠ Machine.queryFrame) (hc : (m.frame f).cutTo = some cut)
    (hp : eval (popMany (m.depth - 1 - cut)) m = (.ok (), m')) (ht' : m'.top? = some f')
    (hf' : f' ≠ Machine.queryFrame) (hr : (m'.frame f').returnPoint = some r) :
    eval backtrack m =
      (.ok true, (m'.changeFrame f' (fun fr => { fr with cutTo := none })).resumed f' r) := by
  have hr' : ((m'.changeFrame f' (fun fr => { fr with cutTo := none })).frame f').returnPoint
      = some r := by
    rw [← hr]
    exact Machine.frame_changeFrame_field Frame.returnPoint (by intro; rfl)
  simp [backtrack, ht, hf, hc, hp, ht', hf', eval_resume hr']

/-- Without a choice the search is over. -/
theorem eval_backtrackOrEnd {ok : Bool} {m' : Machine} (hb : eval backtrack m = (.ok ok, m')) :
    eval backtrackOrEnd m =
      (.ok (), if ok then m' else { m' with ended := true, exhausted := true }) := by
  cases ok <;> simp [backtrackOrEnd, hb]

@[simp] theorem eval_headFail :
    eval headFail m = eval backtrackOrEnd { m with success := false } := by
  simp [headFail]

/-- A pending alternative recorded on a stack of this depth is taken. -/
theorem eval_failure_alternative {a : Alternative} {rest : List Alternative}
    (has : pruneAlternatives m.depth (m.frame m.current).alternatives = a :: rest)
    (ha : a.depth = m.depth) (ht : m.top? = some f)
    (hu : Unwindable (m.changeFrame m.current (fun fr => { fr with alternatives := rest })) f) :
    eval failure m =
      (.ok (), { ((m.changeFrame m.current
          (fun fr => { fr with alternatives := rest })).unwound f a.mark) with
        success := true, label := a.label, index := 0 }) := by
  have hu' : Unwindable ({ m with success := false }.changeFrame m.current
      (fun fr => { fr with alternatives := rest })) f := hu
  have has' : pruneAlternatives { m with success := false }.depth
      ({ m with success := false }.frame m.current).alternatives = a :: rest := has
  have hd' : a.depth = { m with success := false }.depth := ha
  have ht' : { m with success := false }.top? = some f := ht
  simp only [failure, eval_bind, eval_modify, eval_get, has', hd', if_true, ht',
    eval_changeCurrent, eval_unwindTo hu', eval_jump]
  rfl

/-- Otherwise the search goes back to the most recent choice point. -/
theorem eval_failure_backtrack
    (has : ∀ a rest, pruneAlternatives m.depth (m.frame m.current).alternatives = a :: rest →
      a.depth ≠ m.depth) :
    eval failure m =
      eval backtrackOrEnd ({ m with success := false }.changeFrame m.current (fun fr =>
        { fr with alternatives := pruneAlternatives m.depth (m.frame m.current).alternatives })) := by
  cases hp : pruneAlternatives m.depth (m.frame m.current).alternatives with
  | nil =>
    have hp' : pruneAlternatives { m with success := false }.depth
        ({ m with success := false }.frame m.current).alternatives = [] := hp
    simp only [failure, eval_bind, eval_modify, eval_get, hp', eval_changeCurrent]
  | cons a rest =>
    have hp' : pruneAlternatives { m with success := false }.depth
        ({ m with success := false }.frame m.current).alternatives = a :: rest := hp
    have hd' : ¬ a.depth = { m with success := false }.depth := has a rest hp
    simp only [failure, eval_bind, eval_modify, eval_get, hp', hd', if_false, eval_changeCurrent]

/-! ## §4. Control instructions. -/

theorem eval_allocate : eval allocate m = (.ok (), m.pushed) := by
  simp [allocate, Machine.pushed]

/-- The target notes where it returns to. -/
theorem eval_setup (hf : m.target = some f) :
    eval setup m = (.ok (), m.readied f) := by
  simp [setup, target, hf, Machine.readied, Machine.callPoint]

section Call

variable {s : StructId} {t : Value} {cell : StructCell} {cs : List Clause} {c : Clause}

/-- What a call does before it looks up the clauses of its goal. -/
private theorem eval_call (hf : m.target = some f)
    (hx : (m.frame f).get? "$x0" = some (.struct s)) (hcell : m.heap.structCell s = cell) :
    eval (call w op) m =
      (let m₁ := m.cleared f (.struct s)
       match w.base.get ⟨cell.name, cell.args.length⟩ with
       | .error e =>
         if w.unknownFails then
           eval (returnTo f) ({ m₁ with success := false }.changeFrame f
             (fun fr => { fr with clauses := 1 }))
         else (.error (.storing e), m₁)
       | .ok cs =>
         let m₂ := m.called f (.struct s) cs.length
         match cs[(m₂.frame f).clause]? with
         | none => (.error (.running (.noClause ⟨cell.name, cell.args.length⟩
             (m₂.frame f).clause)), m₂)
         | some c =>
           if c.native then eval (callNative w f ⟨cell.name, cell.args.length⟩ cell.args) m₂
           else (.ok (), m₂.entered f c)) := by
  subst hcell
  cases hcs : w.base.get ⟨(m.heap.structCell s).name, (m.heap.structCell s).args.length⟩ with
  | error e => simp [call, target, hf, hx, hcs, Machine.cleared]
  | ok cs =>
    simp only [call, target, hf, hx, hcs, eval_bind, eval_get, eval_pure, Option.getD_some,
      -- The cases are those of the instruction: no clauses, no clause of that number, a native one, a
      -- compiled one.
      Heap.deref_struct, eval_set, eval_modify]
    rw [← Machine.changeFrame_cleared]
    split
    · next h => simp only [Machine.cleared, h, eval_stop]
    · next c h =>
      simp only [Machine.cleared, h]
      by_cases hn : c.native <;> simp [hn, Machine.entered]

private theorem clause_called (n : Nat) :
    ((m.called f t n).frame f).clause = (m.frame f).clause :=
  Machine.frame_changeFrame_field Frame.clause (by intro; rfl)

/-- A clause with code is entered. -/
theorem eval_call_enter (hf : m.target = some f)
    (hx : (m.frame f).get? "$x0" = some (.struct s)) (hcell : m.heap.structCell s = cell)
    (hcs : w.base.get ⟨cell.name, cell.args.length⟩ = .ok cs)
    (hc : cs[(m.frame f).clause]? = some c) (hn : c.native = false) :
    eval (call w op) m = (.ok (), (m.called f (.struct s) cs.length).entered f c) := by
  simp [eval_call hf hx hcell, hcs, clause_called, hc, hn]

/-- A native clause leaves the call to its predicate. -/
theorem eval_call_native (hf : m.target = some f)
    (hx : (m.frame f).get? "$x0" = some (.struct s)) (hcell : m.heap.structCell s = cell)
    (hcs : w.base.get ⟨cell.name, cell.args.length⟩ = .ok cs)
    (hc : cs[(m.frame f).clause]? = some c) (hn : c.native = true) :
    eval (call w op) m =
      eval (callNative w f ⟨cell.name, cell.args.length⟩ cell.args)
        (m.called f (.struct s) cs.length) := by
  simp [eval_call hf hx hcell, hcs, clause_called, hc, hn]

/-- A predicate without clauses fails, where the world says so. -/
theorem eval_call_unknown {e : StoreError} {r : ReturnPoint} (hf : m.target = some f)
    (hx : (m.frame f).get? "$x0" = some (.struct s)) (hcell : m.heap.structCell s = cell)
    (hcs : w.base.get ⟨cell.name, cell.args.length⟩ = .error e) (hw : w.unknownFails = true)
    (hr : (m.frame f).returnPoint = some r) :
    eval (call w op) m =
      (.ok (), { m.called f (.struct s) 1 with
        success := false, code := r.code, label := r.label, index := r.index }) := by
  have hr' : (({ m.cleared f (.struct s) with success := false }.changeFrame f
      (fun fr => { fr with clauses := 1 })).frame f).returnPoint = some r := by
    rw [← hr]
    refine (Machine.frame_changeFrame_field Frame.returnPoint (by intro; rfl)).trans ?_
    exact Machine.frame_changeFrame_field Frame.returnPoint (by intro; rfl)
  simp only [eval_call hf hx hcell, hcs, hw, if_true]
  rw [← Machine.changeFrame_cleared]
  exact eval_returnTo hr'

/-- Elsewhere it is an error. -/
theorem eval_call_error {e : StoreError} (hf : m.target = some f)
    (hx : (m.frame f).get? "$x0" = some (.struct s)) (hcell : m.heap.structCell s = cell)
    (hcs : w.base.get ⟨cell.name, cell.args.length⟩ = .error e) (hw : w.unknownFails = false) :
    eval (call w op) m = (.error (.storing e), m.cleared f (.struct s)) := by
  simp [eval_call hf hx hcell, hcs, hw]

/-- The handler of a native clause answers at once. -/
theorem eval_callNative {b : Builtin} {goal : Signature} {args : List Value}
    (hb : w.natives.lookup? goal = some b) :
    eval (callNative w f goal args) m =
      (let m₁ := m.changeFrame f (fun fr => { fr with clauses := 1 })
       let out := b.call args ⟨m₁.heap, [], m₁.transcript, w.complaint⟩
       let m₂ := { m₁ with heap := out.2.heap, transcript := out.2.transcript }.trailAll out.2.bound
       match out.1 with
       | .error e => (.error e, m₂)
       | .ok ok => eval (returnTo f) { m₂ with success := ok }) := by
  simp only [callNative, hb, eval_bind, eval_modify, eval_get, eval_set]
  generalize b.call args _ = out
  obtain ⟨_ | ok, scene⟩ := out
  · simp
  · rfl

end Call

/-- The next clause of a failed call is tried, if there is one and no cut forbids it. -/
theorem eval_retry (hu : Unwindable m f) :
    eval (retry f) m =
      (let m₁ := m.unwound f 0
       if (m.frame f).committed = false ∧ (m.frame f).clause + 1 < (m.frame f).clauses then
         (.ok true, { m₁ with index := m₁.index - 2 }.changeFrame f
           (fun fr => { fr with clause := fr.clause + 1 }))
       else (.ok false, m₁)) := by
  have hk : ∀ {α : Type} (p : Frame → α), (∀ fr vs, p { fr with trail := vs } = p fr) →
      p ((m.unwound f 0).frame f) = p (m.frame f) := fun p hp =>
    Machine.frame_changeFrame_field p (by intro; exact hp _ _)
  have h₁ := hk Frame.committed (by intros; rfl)
  have h₂ := hk Frame.clause (by intros; rfl)
  have h₃ := hk Frame.clauses (by intros; rfl)
  simp only [retry, eval_bind, eval_unwind hu, eval_get, h₁, h₂, h₃]
  by_cases hc : (m.frame f).committed = false ∧ (m.frame f).clause + 1 < (m.frame f).clauses
  · simp [hc.1, hc.2]
  · have hc' : ((!(m.frame f).committed) &&
        decide ((m.frame f).clause + 1 < (m.frame f).clauses)) = false := by
      rcases hcm : (m.frame f).committed with _ | _
      · simpa [hcm] using hc
      · simp
    simp [hc, hc']

/-- After success nothing is retried. -/
theorem eval_maybeRetry_success (hs : m.success = true) : eval maybeRetry m = (.ok (), m) := by
  simp [maybeRetry, hs]

/-- After a failure another clause is tried. -/
theorem eval_maybeRetry_failure (hs : m.success = false) (hf : m.target = some f) :
    eval maybeRetry m = ((eval (retry f) m).1.map (fun _ => ()), (eval (retry f) m).2) := by
  simp only [maybeRetry, eval_bind, eval_get, hs, hf]
  rcases eval (retry f) m with ⟨_ | _, m'⟩ <;> rfl

/-- A negated call that succeeded fails, and its frames are dropped. -/
theorem eval_maybeRetryN_success {m' : Machine} (hs : m.success = true) (hf : m.target = some f)
    (hp : eval (popTo (m.frame f).position) m = (.ok (), m')) (hs' : m'.success = true) :
    eval maybeRetryN m = (.ok (), { m' with target := none, success := false }) := by
  simp [maybeRetryN, hs, hf, hp, hs']

/-- A negated call that failed with another clause to try goes back to it. -/
theorem eval_maybeRetryN_retry {m' : Machine} (hs : m.success = false) (hf : m.target = some f)
    (hr : eval (retry f) m = (.ok true, m')) : eval maybeRetryN m = (.ok (), m') := by
  simp [maybeRetryN, hs, hf, hr]

/-- A negated call that failed for good succeeds. -/
theorem eval_maybeRetryN_failure {m₁ m' : Machine} (hs : m.success = false)
    (hf : m.target = some f) (hr : eval (retry f) m = (.ok false, m₁))
    (hp : eval (popTo (m₁.frame f).position) m₁ = (.ok (), m')) (hs' : m'.success = false) :
    eval maybeRetryN m = (.ok (), { m' with target := none, success := true }) := by
  simp [maybeRetryN, hs, hf, hr, hp, hs']

/-- Popping down to a depth is popping so many frames. -/
theorem eval_popTo (n : Nat) : eval (popTo n) m = eval (popMany (m.depth - max n 1)) m := by
  simp [popTo]

/-- A call that failed for good is dropped. -/
theorem eval_deallocate_drop (hs : m.success = false) (hf : m.target = some f)
    (hq : f ≠ Machine.queryFrame) (ht : m.top? = some f) :
    eval deallocate m = eval pop { m with target := none } := by
  simp [deallocate, hs, hf, hq, ht]

/-- A call that succeeded stays. -/
theorem eval_deallocate_keep (h : m.success = true ∨ m.target = none) :
    eval deallocate m = (.ok (), m) := by
  rcases h with h | h
  · simp [deallocate, h]
  · cases hs : m.success <;> simp [deallocate, h, hs]

/-- Nothing happens after a success. -/
theorem eval_maybeFail :
    eval maybeFail m = if m.success then (.ok (), m) else eval failure m := by
  cases hs : m.success <;> simp [maybeFail, hs]

/-- An alternative is noted in the frame on top. -/
theorem eval_tryElse {label : String} (ht : m.top? = some f) :
    eval (tryElse label) m = (.ok (), m.recorded f label) := by
  simp [tryElse, ht, Machine.recorded]

/-- Only the pending alternative is forgotten. -/
theorem eval_tryFinally :
    eval tryFinally m =
      (.ok (), m.changeFrame m.current (fun fr =>
        { fr with alternatives := pruneAlternatives m.depth fr.alternatives })) := by
  simp [tryFinally]

/-- A query ends with an answer or goes on searching. -/
theorem eval_endQuery :
    eval endQuery m = if m.success then (.ok (), { m with ended := true }) else eval failure m := by
  cases hs : m.success <;> simp [endQuery, hs]

/-- A clause that failed is left through failure. -/
theorem eval_proceed_failure (hs : m.success = false) : eval proceed m = eval failure m := by
  simp [proceed, hs]

/-- The query ends. -/
theorem eval_proceed_query (hs : m.success = true) (hq : m.current = Machine.queryFrame) :
    eval proceed m = eval endQuery m := by
  simp [proceed, hs, hq]

/-- A clause that succeeded returns to its caller. -/
theorem eval_proceed_return {r : ReturnPoint} (hs : m.success = true)
    (hq : m.current ≠ Machine.queryFrame) (hr : (m.frame m.current).returnPoint = some r) :
    eval proceed m =
      (.ok (), { m with
        code := r.code, label := r.label, index := r.index, target := some m.current
        current := r.frame }) := by
  simp [proceed, hs, hq, hr, eval_returnTo hr]

/-- A cut drops the choices since the clause was called. -/
theorem eval_cut (ht : m.top? = some f) : eval cut m = (.ok (), m.severed f) := by
  simp [cut, ht]
  rfl

/-! ## §5. Operands. -/

section Operands

variable {s : StructId} {a b : Value} {x y : Float} {i : Instruction}

/-- The two operands are found. -/
theorem eval_operands (hs : (m.frame m.current).get? scratchRegister = some (.struct s))
    (hab : (m.heap.structCell s).args = [a, b]) : eval operands m = (.ok (a, b), m) := by
  simp [operands, eval_scratch hs, hab]

/-- An operand is a number or an error. -/
theorem eval_number (t : Value) :
    eval (number t) m = match m.heap.operand t with
      | .ok x => (.ok x, m)
      | .error e => (.error (.running e), m) := by
  simp only [number, eval_bind, eval_get]
  split <;> simp [*]

/-- The outcome of a comparison is the outcome of the instruction. -/
theorem eval_conclude (ok : Bool) :
    eval (conclude ok) m =
      if ok then (.ok (), { m with success := true }) else eval failure { m with success := false } := by
  cases ok <;> simp [conclude]

/-- A comparison. -/
theorem eval_applyOperator_compare {c : CompareOp}
    (hs : (m.frame m.current).get? scratchRegister = some (.struct s))
    (hab : (m.heap.structCell s).args = [a, b]) :
    eval (applyOperator i (.compare c)) m = match m.heap.operand a, m.heap.operand b with
      | .ok x, .ok y => eval (conclude (c.holds x y)) m
      | .error e, _ => (.error (.running e), m)
      | .ok _, .error e => (.error (.running e), m) := by
  simp only [applyOperator, eval_bind, eval_operands hs hab, eval_number]
  cases m.heap.operand a <;> cases hb : m.heap.operand b <;> simp [hb]

/-- An operator with a value. -/
theorem eval_applyOperator_value {o : ArithOp} (hi : i.result ≠ "")
    (hs : (m.frame m.current).get? scratchRegister = some (.struct s))
    (hab : (m.heap.structCell s).args = [a, b]) :
    eval (applyOperator i (.value o)) m = match m.heap.operand a, m.heap.operand b with
      | .ok x, .ok y =>
        match o.eval? x y with
        | none => (.error (.running (.divisionByZero i.op)), m)
        | some z =>
          (.ok (), { m.changeFrame m.current
              (·.put i.result (.const ⟨.number z, .heap m.heap.constants⟩)) with
            heap := (m.heap.newConst (.number z)).2, success := true })
      | .error e, _ => (.error (.running e), m)
      | .ok _, .error e => (.error (.running e), m) := by
  simp only [applyOperator, eval_bind, eval_operands hs hab, eval_number]
  cases ha : m.heap.operand a with
  | error e => simp
  | ok x =>
    cases hb : m.heap.operand b with
    | error e => simp [hb]
    | ok y =>
      cases ho : o.eval? x y with
      | none => simp [hb, ho]
      | some z => simp [hb, ho, hi, eval_conclude, Machine.changeFrame]

/-- An evaluation binds its target. -/
theorem eval_assign (hs : (m.frame m.current).get? scratchRegister = some (.struct s))
    (hab : (m.heap.structCell s).args = [a, b])
    (hfree : ∀ v, m.heap.deref a = .var v → m.heap.binding? v = none) :
    eval assign m = match m.heap.deref a with
      | .var v =>
        match m.heap.operand b with
        | .ok x =>
          (.ok (), { ({ m with heap := (m.heap.newConst (.number x)).2 }.bindVar v
              (.const ⟨.number x, .heap m.heap.constants⟩)) with success := true })
        | .error e => (.error (.running e), m)
      | _ => (.error (.running (.targetNotVariable (m.heap.text a))), m) := by
  simp only [assign, eval_bind, eval_operands hs hab, eval_deref]
  cases hd : m.heap.deref a with
  | var v =>
    -- An unbound target is looked at before the value; any other target is an error whatever the value.
    cases hb : m.heap.operand b with
    | error e => simp [eval_number, hb]
    | ok x =>
      have hbind := eval_bind_free (m := { m with heap := (m.heap.newConst (.number x)).2 })
        (v := v) (t := .const ⟨.number x, .heap m.heap.constants⟩)
        (by simpa using hfree v hd) (by simp) (by simp)
      simp only [Heap.newConst] at hbind
      simp [eval_number, hb, hbind, eval_conclude, Heap.newConst]
  | const c => simp
  | struct s => simp
  | absent => simp

end Operands

end Exec

end PrologMachine
