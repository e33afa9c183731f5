/-
  PrologMachine.Machine.Run ── **RUNNING.**

  One step fetches and executes one instruction.  A run is a bounded number of steps that stops
  early at an answer, at the end of the search or at an error; the next answer is asked for with
  `redo`.  A search without a bound is a run with a budget that it does not use up.
-/
import PrologMachine.Machine.Evaluation
import PrologMachine.Machine.Structure

namespace PrologMachine

/-! ## §1. One instruction. -/

/-- Execute an instruction. -/
def Exec.execute (w : World) (i : Instruction) : Exec Unit :=
  match i.op with
  | .getStruct => getStruct i
  | .getVar | .unifVar => getVar i.name
  | .getValue | .unifValue => getValue i.name
  | .unifVoid => unifVoid
  | .getTerm | .getNumber | .getNil | .unifyTerm | .unifyNumber | .unifyNil => getConst i
  | .putStruct => putStruct i
  | .putVar => putVar i.name
  | .putVoid => putVoid
  | .putValue => putValue i
  | .putTerm | .putNumber | .putNil => putConst i
  | .allocate => allocate
  | .setup => setup
  | .call | .bcall => call w i.op
  | .maybeRetry => maybeRetry
  | .maybeRetryN => maybeRetryN
  | .deallocate => deallocate
  | .maybeFail => maybeFail
  | .tryElse => tryElse i.label
  | .tryFinally => tryFinally
  | .jump => jump i.label
  | .proceed => proceed
  | .cut => cut
  | .fail => failure
  | .end_ => endQuery
  | .prepare => prepare
  | .pushVar => pushVar i.name
  | .pushValue => pushValue i.name
  | .pushTerm | .pushNumber => pushConst i.constant
  | .is => assign
  | .plus => applyOperator i (.value .plus)
  | .minus => applyOperator i (.value .minus)
  | .mult => applyOperator i (.value .mult)
  | .div => applyOperator i (.value .div)
  | .intDiv => applyOperator i (.value .intDiv)
  | .mod => applyOperator i (.value .mod)
  | .lt => applyOperator i (.compare .lt)
  | .gt => applyOperator i (.compare .gt)
  | .le => applyOperator i (.compare .le)
  | .ge => applyOperator i (.compare .ge)
  | .eq => applyOperator i (.compare .eq)
  | .ne => applyOperator i (.compare .ne)
  | .invalid => stop (.invalidInstruction .invalid)
  | .unknown c => stop (.invalidInstruction (.unknown c))

namespace Machine

/-! ## §2. One step. -/

/-- What a step reports: whether the machine has ended, and the error that stopped it. -/
structure Report where
  /-- The machine has ended. -/
  done : Bool
  /-- The error. -/
  error : Option Error

/-- Stop with an error; the first one counts. -/
def fault (m : Machine) (e : Error) : Machine :=
  match m.error with
  | some _ => m
  | none => { m with error := some e, ended := true }

/-- The signature of the code being run. -/
def codeSignature (m : Machine) : Signature := (m.code.map Clause.signature).getD ⟨"", 0⟩

/-- The instruction to run next, or why there is none. -/
def fetch (m : Machine) : Except RunError Instruction :=
  match m.code with
  | none => .error .noReturnPoint
  | some c =>
    match c.block? m.label with
    | none => .error (.noLabel c.signature m.label)
    | some code =>
      match code[m.index]? with
      | none => .error (.ranOff c.signature m.label)
      | some i => .ok i

/-- Count a step, unless the limit is used up. -/
def count (w : World) (m : Machine) : Except RunError Unit × Machine :=
  let m := { m with index := m.index + 1, steps := m.steps + 1 }
  if 0 < w.maxSteps && w.maxSteps < m.steps then (.error (.stepLimit w.maxSteps), m)
  else (.ok (), m)

/-- Run an action; an error stops the machine. -/
def perform (m : Machine) (action : Exec Unit) : Machine :=
  match action.run.run m with
  | (.ok (), m) => m
  | (.error e, m) => m.fault e

/-- Run one instruction of a machine that is not stopped. -/
def advance (w : World) (m : Machine) : Machine :=
  match m.fetch with
  | .error e => m.fault (.running e)
  | .ok i =>
    match m.count w with
    | (.error e, m) => m.fault (.running e)
    | (.ok (), m) =>
      let m := { m with
        transcript :=
          m.transcript.logIf w.debug (.step i m.codeSignature m.label m.depth) }
      m.perform (Exec.execute w i)

/-- Run one instruction and report. -/
def step (w : World) (m : Machine) : Report × Machine :=
  match m.error with
  | some e => (⟨true, some e⟩, m)
  | none =>
    if !m.asked then (⟨true, some (.running .noQuestion)⟩, m)
    else if m.ended then (⟨true, none⟩, m)
    else
      let m := m.advance w
      (⟨m.ended, m.error⟩, m)

/-- Run up to `n` steps, one after the other, up to the first that ends; the reports and the
    states after them. -/
def trace (w : World) : (n : Nat) → Machine → List (Report × Machine) × Machine
  | 0, m => ([], m)
  | n + 1, m =>
    let (r, m) := m.step w
    if r.done then ([(r, m)], m)
    else
      let (rest, last) := m.trace w n
      ((r, m) :: rest, last)

/-! ## §3. Runs. -/

/-- What a run reports. -/
structure Outcome where
  /-- How far the search came. -/
  status : Status
  /-- The instructions executed. -/
  steps : Nat
  /-- The error that stopped it. -/
  error : Option Error

/-- Run up to `budget` steps after `taken` ones. -/
def runFrom (w : World) : (budget taken : Nat) → Machine → Outcome × Machine
  | 0, taken, m => (⟨.paused, taken, none⟩, m)
  | budget + 1, taken, m =>
    match m.step w with
    | (⟨_, some e⟩, m) => (⟨.paused, taken, some e⟩, m)
    | (⟨true, none⟩, m) => (⟨m.status, taken + 1, none⟩, m)
    | (⟨false, none⟩, m) => runFrom w budget (taken + 1) m

/-- Run up to `budget` steps; a canceled run takes none. -/
def run (w : World) (canceled : Bool) (budget : Nat) (m : Machine) : Outcome × Machine :=
  if !m.asked then (⟨.exhausted, 0, some (.running .noQuestion)⟩, m)
  else if m.ended then (⟨m.status, 0, m.error⟩, m)
  else if canceled then (⟨.paused, 0, some .canceled⟩, m)
  else m.runFrom w budget 0

/-- Ask for the next answer; the answer is false when there can be none. -/
def redo (m : Machine) : Bool × Machine :=
  if !m.asked || m.error.isSome || m.exhausted then (false, m)
  else
    let m := { m with ended := false, success := false, steps := 0 }.perform Exec.failure
    (m.error.isNone && !m.exhausted, m)

/-- Resume the most recent choice point by hand; false when only the query is left. -/
def backtrack (m : Machine) : Bool × Machine :=
  match (Exec.backtrack).run.run m with
  | (.ok ok, m) => (ok, m)
  | (.error e, m) => (false, m.fault e)

end Machine

/-! ## §4. Native clauses. -/

/-- Give every native predicate without a builtin clause its native clause, in the order of the
    written signatures. -/
def KnowledgeBase.installNatives (kb : KnowledgeBase) (r : Registry) : KnowledgeBase × List LogEntry :=
  r.sorted.foldl
    (fun (kb, log) b =>
      if kb.builtin.contains b.signature then (kb, log)
      else
        let i := kb.insertBuiltin b.signature (some ⟨b.signature, [], true, []⟩)
        (i.base, log ++ i.log))
    (kb, [])

end PrologMachine
