/-
  PrologMachine.Machine.Evaluation ── **ARITHMETIC INSTRUCTIONS.**

  Operands are pushed onto a scratch structure; an operator takes exactly two.  A value goes to
  the operator's result register, a comparison that does not hold fails, and `is` binds its left
  operand, which must be an unbound variable.
-/
import PrologMachine.Arithmetic
import PrologMachine.Machine.Control

namespace PrologMachine

/-- The register of the scratch structure. -/
def scratchRegister : String := "$y0"

/-- The number an operand stands for. -/
def Heap.operand (h : Heap) (t : Value) : Except RunError Float :=
  match h.deref t with
  | .const c =>
    match c.value.number? with
    | some x => .ok x
    | none => .error (.notANumber (h.text (.const c)))
  | .var v => .error (.unboundOperand (h.varCell v).name)
  | d => .error (.notANumber (h.text d))

namespace Exec

/-- The scratch structure, if there is one. -/
def scratch : Exec (Option StructId) := do
  match (← current).get? scratchRegister with
  | some (.struct s) => return some s
  | _ => return none

/-- Clear the operands. -/
def prepare : Exec Unit := do
  let s ← newStruct scratchRegister
  changeCurrent (·.put scratchRegister (.struct s))

/-- Push an operand. -/
def push (t : Value) : Exec Unit := do
  match ← scratch with
  | some s => pushArg s t
  | none => stop .pushWithoutPrepare

/-- Push a new variable of the clause, the target of an evaluation. -/
def pushVar (name : String) : Exec Unit := do
  let v ← fresh name
  changeCurrent (·.put name v)
  push v

/-- Push a known variable. -/
def pushValue (name : String) : Exec Unit := do
  match ← lookup name with
  | .absent =>
    match ← scratch with
    | some _ => stop .pushOfNothing
    | none => stop .pushWithoutPrepare
  | t => push t

/-- Push a constant, or the place of a missing one. -/
def pushConst (c : Option Constant) : Exec Unit :=
  match c with
  | some c => push (.const c)
  | none => push .absent

/-- The two operands. -/
def operands : Exec (Value × Value) := do
  match ← scratch with
  | none => stop .operandCount
  | some s =>
    match ((← get).heap.structCell s).args with
    | [a, b] => return (a, b)
    | _ => stop .operandCount

/-- The number an operand stands for. -/
def number (t : Value) : Exec Float := do
  match (← get).heap.operand t with
  | .ok x => return x
  | .error e => stop e

/-- The outcome of a primitive: a failure leaves it like a failed goal. -/
def conclude (ok : Bool) : Exec Unit := do
  modify (fun m => { m with success := ok })
  if ok then return () else failure

/-- Apply an operator to the operands. -/
def applyOperator (i : Instruction) (op : Operator) : Exec Unit := do
  let (l, r) ← operands
  let a ← number l
  let b ← number r
  match op with
  | .compare c => conclude (c.holds a b)
  | .value o =>
    match o.eval? a b with
    | none => stop (.divisionByZero i.op)
    | some x =>
      if i.result = "" then stop (.noResultRegister i.op)
      else
        let v ← newNumber x
        changeCurrent (·.put i.result v)
        conclude true

/-- Bind the left operand to the value of the right one. -/
def assign : Exec Unit := do
  let (l, r) ← operands
  match ← deref l with
  | .var v =>
    let x ← number r
    bind v (← newNumber x)
    conclude true
  | _ => stop (.targetNotVariable ((← get).heap.text l))

end Exec

end PrologMachine
