/-
  PrologMachine.Machine.Control ── **CALLS, RETURNS AND BACKTRACKING.**

  Control instructions are actions on the machine state that may stop with an error; what they
  did before the error stays.

    * `call` enters a clause of the goal in `$x0`; a native predicate answers at once.
    * `failure` goes to the newest pending alternative of the clause when no frame was pushed
      since, else `backtrack` resumes the most recent choice point.
    * `cut` marks the top frame with the index that backtracking must unwind to.
-/
import PrologMachine.Heap.Binding
import PrologMachine.Machine.State

namespace PrologMachine

/-- An action of the machine. -/
abbrev Exec := ExceptT Error (StateM Machine)

namespace Exec

/-! ## §1. Frames and variables. -/

/-- Stop with a run-time error. -/
def stop {α : Type} (e : RunError) : Exec α := throw (.running e)

/-- The frame of the clause being run. -/
def current : Exec Frame := do
  let m ← get
  return m.frame m.current

/-- Change the frame of the clause being run. -/
def changeCurrent (g : Frame → Frame) : Exec Unit :=
  modify (fun m => m.changeFrame m.current g)

/-- The frame of the call under construction; `op` needs it. -/
def target (op : Opcode) : Exec FrameId := do
  match (← get).target with
  | some f => return f
  | none => stop (.noTargetFrame op)

/-- A new variable with the next number. -/
def fresh (name : String) : Exec Value := do
  let m ← get
  let (v, heap) := m.heap.fresh name
  set { m with heap }
  return .var v

/-- A new structure without arguments. -/
def newStruct (name : String) : Exec StructId := do
  let m ← get
  let (s, heap) := m.heap.newStruct name [] .none
  set { m with heap }
  return s

/-- A new number. -/
def newNumber (x : Float) : Exec Value := do
  let m ← get
  let (c, heap) := m.heap.newConst (.number x)
  set { m with heap }
  return .const c

/-- Add an argument to a structure. -/
def pushArg (s : StructId) (t : Value) : Exec Unit :=
  modify (fun m => { m with heap := m.heap.pushArg s t })

/-- The value of a clause variable, which is made on first use. -/
def lookup (name : String) : Exec Value := do
  match (← current).get? name with
  | some t => return t
  | none =>
    let v ← fresh name
    changeCurrent (·.put name v)
    return v

/-- What a value stands for. -/
def deref (t : Value) : Exec Value := do return (← get).heap.deref t

/-- Bind a variable and record it. -/
def bind (v : VarId) (t : Value) : Exec Unit := do
  if !(← get).heap.isBound v then modify (·.trail v)
  match (← get).heap.bindFault? v t with
  | some e => stop e
  | none => modify (fun m => { m with heap := m.heap.set v t })

/-- Unify two terms and record the bindings. -/
def unify (a b : Value) : Exec Bool := do
  let (ok, m) := (← get).unify a b
  set m
  return ok

/-! ## §2. Undoing bindings. -/

/-- Unbind the first `n` variables of a trail that has the newest first.  A variable that is not
    bound is an error and is taken off the trail. -/
def unwindTrail : (n : Nat) → List VarId → Heap → Option RunError × List VarId × Heap
  | n + 1, v :: vs, h =>
    if h.isBound v then unwindTrail n vs (h.reset v)
    else (some (.notBound (h.varCell v).name), vs, h)
  | _, vs, h => (none, vs, h)

/-- Undo the bindings on the trail of a frame behind the first `mark` ones. -/
def unwindTo (f : FrameId) (mark : Nat) : Exec Unit := do
  let m ← get
  let vs := (m.frame f).trail
  let (e, rest, heap) := unwindTrail (vs.length - mark) vs m.heap
  set ({ m with heap }.changeFrame f (fun fr => { fr with trail := rest }))
  match e with
  | some e => stop e
  | none => return ()

/-- Undo all bindings on the trail of a frame. -/
def unwind (f : FrameId) : Exec Unit := unwindTo f 0

/-- Take the top frame off the stack and undo its bindings. -/
def pop : Exec Unit := do
  let m ← get
  if m.depth ≤ 1 then stop .popOfQuery
  else
    match m.top? with
    | none => stop .popOfQuery
    | some f =>
      let vs := (m.frame f).trail
      let (e, rest, heap) := unwindTrail vs.length vs m.heap
      set ({ m with heap, stack := m.stack.pop }.changeFrame f (fun fr => { fr with trail := rest }))
      match e with
      | some e => stop e
      | none => return ()

/-- Pop `n` frames. -/
def popMany : (n : Nat) → Exec Unit
  | 0 => return ()
  | n + 1 => do
    pop
    popMany n

/-- Pop frames until `depth` remain, or one. -/
def popTo (depth : Nat) : Exec Unit := do popMany ((← get).depth - max depth 1)

/-! ## §3. Failure. -/

/-- Go on at a label of the same clause. -/
def jump (label : String) : Exec Unit := modify (fun m => { m with label, index := 0 })

/-- Go on where the call of a frame returns to; a frame that was never set up leaves no code. -/
def returnTo (f : FrameId) : Exec Unit :=
  modify (fun m =>
    match (m.frame f).returnPoint with
    | some r => { m with code := r.code, label := r.label, index := r.index }
    | none => { m with code := none, label := "", index := 0 })

/-- Resume the choice point in the top frame, which is not the query's: the call returns as
    failed, so that its next clause is tried. -/
def resume (f : FrameId) : Exec Unit := do
  match ((← get).frame f).returnPoint with
  | none => stop .noReturnPoint
  | some r =>
    returnTo f
    modify (fun m =>
      { m with current := r.frame, target := some f, success := false }.changeFrame r.frame
        (fun fr => { fr with alternatives := r.alternatives }))

/-- Resume the most recent choice point that no cut has removed.  The answer is false when only
    the query is left. -/
def backtrack : Exec Bool := do
  let m ← get
  match m.top? with
  | none => return false
  | some f =>
    if f = Machine.queryFrame then return false
    else match (m.frame f).cutTo with
      | none =>
        resume f
        return true
      | some cut =>
        popMany (m.depth - 1 - cut)
        match (← get).top? with
        | none => return false
        | some f =>
          if f = Machine.queryFrame then return false
          else
            modify (fun m => m.changeFrame f (fun fr => { fr with cutTo := none }))
            resume f
            return true

/-- Backtrack; without a choice point the search is over. -/
def backtrackOrEnd : Exec Unit := do
  if !(← backtrack) then modify (fun m => { m with ended := true, exhausted := true })

/-- A mismatch in a head. -/
def headFail : Exec Unit := do
  modify (fun m => { m with success := false })
  backtrackOrEnd

/-- Without the alternatives that were recorded on a deeper stack. -/
def pruneAlternatives (depth : Nat) (as : List Alternative) : List Alternative :=
  as.dropWhile (fun a => depth < a.depth)

/-- A goal failed: take the newest alternative of the clause if the stack is as deep as when it
    was recorded, else backtrack. -/
def failure : Exec Unit := do
  modify (fun m => { m with success := false })
  let m ← get
  let depth := m.depth
  let top := m.top?
  let as := pruneAlternatives depth (m.frame m.current).alternatives
  match as with
  | a :: rest =>
    if a.depth = depth then
      changeCurrent (fun fr => { fr with alternatives := rest })
      match top with
      | some f => unwindTo f a.mark
      | none => return ()
      modify (fun m => { m with success := true })
      jump a.label
    else
      changeCurrent (fun fr => { fr with alternatives := as })
      backtrackOrEnd
  | [] =>
    changeCurrent (fun fr => { fr with alternatives := [] })
    backtrackOrEnd

/-! ## §4. Control instructions. -/

/-- Push the frame of a call under construction. -/
def allocate : Exec Unit :=
  modify (fun m =>
    let f := m.frames.size
    let position := m.depth
    { m with
      frames := m.frames.push { position }, stack := m.stack.push f, target := some f })

/-- Save where the call returns to: behind the call instruction that follows. -/
def setup : Exec Unit := do
  let f ← target .setup
  let m ← get
  let r : ReturnPoint :=
    { code := m.code, label := m.label, index := m.index + 1, frame := m.current,
      alternatives := (m.frame m.current).alternatives }
  set (m.changeFrame f (fun fr => { fr with clause := 0, returnPoint := some r }))

/-- Let a native predicate answer the call of frame `f`. -/
def callNative (w : World) (f : FrameId) (goal : Signature) (args : List Value) : Exec Unit := do
  match w.natives.lookup? goal with
  | none => stop (.noHandler goal)
  | some b =>
    modify (fun m => m.changeFrame f (fun fr => { fr with clauses := 1 }))
    let m ← get
    let (r, s) := b.call args ⟨m.heap, [], m.transcript, w.complaint⟩
    set ({ m with heap := s.heap, transcript := s.transcript }.trailAll s.bound)
    match r with
    | .error e => throw e
    | .ok ok =>
      modify (fun m => { m with success := ok })
      returnTo f

/-- Enter a clause of the goal in `$x0` of the frame under construction. -/
def call (w : World) (op : Opcode) : Exec Unit := do
  let f ← target op
  let m ← get
  let x0 := (m.frame f).get? "$x0"
  match m.heap.deref (x0.getD .absent) with
  | .struct s =>
    let cell := m.heap.structCell s
    let goal : Signature := ⟨cell.name, cell.args.length⟩
    set (m.changeFrame f (fun fr =>
      { fr with vars := [("$x0", x0.getD .absent)], alternatives := [], cutTo := none }))
    match w.base.get goal with
    | .error e =>
      if w.unknownFails then
        modify (fun m =>
          { m with success := false }.changeFrame f (fun fr => { fr with clauses := 1 }))
        returnTo f
      else throw (.storing e)
    | .ok clauses =>
      modify (fun m => m.changeFrame f (fun fr => { fr with clauses := clauses.length }))
      let index := ((← get).frame f).clause
      match clauses[index]? with
      | none => stop (.noClause goal index)
      | some c =>
        if c.native then callNative w f goal cell.args
        else
          modify (fun m =>
            { m with
              code := some c
              label := headLabel
              index := 0
              current := f
              success := true
              decoding := none
              argument := 0
              register := "" })
  | _ => stop .goalNotFunctor

/-- After a failed call of frame `f`, undo its bindings and go back to the call instruction for
    the next clause; the answer says whether there is one. -/
def retry (f : FrameId) : Exec Bool := do
  unwind f
  let m ← get
  let fr := m.frame f
  if !fr.committed && fr.clause + 1 < fr.clauses then
    set ({ m with index := m.index - 2 }.changeFrame f
      (fun fr => { fr with clause := fr.clause + 1 }))
    return true
  else return false

/-- Try the next clause of a failed call. -/
def maybeRetry : Exec Unit := do
  let m ← get
  match m.success, m.target with
  | false, some f => do
    let _ ← retry f
  | _, _ => return ()

/-- The same for a negated call; once there is no clause left to try, the outcome is inverted and
    the frames of the call are dropped. -/
def maybeRetryN : Exec Unit := do
  let m ← get
  match m.target with
  | none => return ()
  | some f =>
    let retried ← if m.success then pure false else retry f
    if retried then return ()
    else
      popTo ((← get).frame f).position
      modify (fun m => { m with target := none, success := !m.success })

/-- Drop the frame of a call that failed for good; one that succeeded stays as choice point. -/
def deallocate : Exec Unit := do
  let m ← get
  match m.success, m.target with
  | false, some f =>
    if f = Machine.queryFrame || m.top? ≠ some f then return ()
    else
      modify (fun m => { m with target := none })
      pop
  | _, _ => return ()

/-- Leave the clause when the last call failed. -/
def maybeFail : Exec Unit := do
  if (← get).success then return () else failure

/-- Record an alternative. -/
def tryElse (label : String) : Exec Unit := do
  let m ← get
  let mark := match m.top? with
    | some f => (m.frame f).trail.length
    | none => 0
  let a : Alternative := ⟨label, m.depth, mark⟩
  changeCurrent (fun fr => { fr with alternatives := a :: fr.alternatives })

/-- Drop the alternatives recorded on a deeper stack. -/
def tryFinally : Exec Unit := do
  let depth := (← get).depth
  changeCurrent (fun fr =>
    { fr with alternatives := pruneAlternatives depth fr.alternatives })

/-- The end of the query: an answer, or the search goes on. -/
def endQuery : Exec Unit := do
  if (← get).success then modify (fun m => { m with ended := true }) else failure

/-- Return from the clause. -/
def proceed : Exec Unit := do
  let m ← get
  if !m.success then failure
  else if m.current = Machine.queryFrame then endQuery
  else
    let f := m.current
    let caller := (m.frame f).returnPoint.map ReturnPoint.frame
    returnTo f
    modify (fun m => { m with target := some f, current := caller.getD f })

/-- Commit to the clause: its frame tries no other clause and has no pending alternatives, and
    backtracking into a frame above it unwinds down to it. -/
def cut : Exec Unit := do
  let m ← get
  let barrier := (m.frame m.current).position
  match m.top? with
  | some f =>
    modify (fun m => m.changeFrame f (fun fr =>
      { fr with
        cutTo := match fr.cutTo with
          | some old => if barrier < old then some barrier else some old
          | none => some barrier }))
  | none => return ()
  changeCurrent (fun fr => { fr with committed := true, alternatives := [] })

end Exec

end PrologMachine
