/-
  PrologMachine.Code.Build ── **CODE THAT BUILDS AND CALLS A GOAL.**

  A goal is built in register `$x0` of a new frame.  Nested structures are built first, each in a
  register of its own, and are then passed to their parent.
-/
import PrologMachine.Code.Emitter

namespace PrologMachine

open Emit

/-- The instruction that passes an argument that is no structure. -/
def putArg : Term → Emit Instruction
  | .var name _ => do
    if isAnonymous name then return { op := .putVoid }
    else if ← occurs name then return { op := .putVar, name }
    else return { op := .putValue, name }
  | .const a _ => do
    let op : Opcode := match a with
      | .number _ => .putNumber
      | .nil => .putNil
      | .atom _ => .putTerm
    return { op, constant := some (← constant a) }
  | .app name _ _ _ => do return { op := .putTerm, constant := some (← constant (.atom name)) }
  | .absent => return { op := .putVoid }

/-- The instructions that pass the arguments; one with a register was built there. -/
def putArgs : List Term → List (Option Nat) → Emit Code
  | _ :: ts, some r :: rs => do
    let rest ← putArgs ts rs
    return { op := .putValue, name := structRegister r } :: rest
  | t :: ts, none :: rs => do
    let own ← putArg t
    let rest ← putArgs ts rs
    return own :: rest
  | _, _ => return []

/-- The start of a structure under construction. -/
def putStruct (name : String) (arity r : Nat) : Instruction :=
  { op := .putStruct, functor := name, arity, register := structRegister r }

/-- The code that builds the structures among the arguments, and their registers. -/
def buildNested : List Term → Emit (Code × List (Option Nat))
  | [] => return ([], [])
  | .app name (a :: as) _ _ :: ts => do
    let r ← newRegister
    let (below, regs) ← buildNested (a :: as)
    let puts ← putArgs (a :: as) regs
    let (code, rs) ← buildNested ts
    return (below ++ putStruct name (a :: as).length r :: puts ++ code, some r :: rs)
  | _ :: ts => do
    let (code, rs) ← buildNested ts
    return (code, none :: rs)

/-- The code that builds a goal in `$x0`. -/
def buildGoal (g : Goal) : Emit Code := do
  clearRegisters
  let (below, regs) ← buildNested g.args
  let puts ← putArgs g.args regs
  return below ++ putStruct g.name g.args.length 0 :: puts

/-- The code that calls a goal, plainly or negated, without what follows the call. -/
def callGoal (isNative : Signature → Bool) (g : Goal) (negated : Bool) : Emit Code := do
  let build ← buildGoal g
  let enter : Opcode := if g.attrs.has .builtin || isNative g.signature then .bcall else .call
  let retry : Opcode := if negated then .maybeRetryN else .maybeRetry
  return { op := .allocate } :: build ++
    [{ op := .setup }, { op := enter }, { op := retry }, { op := .deallocate }]

/-! ## Arithmetic. -/

/-- The instruction that pushes a constant as operand. -/
def pushConst (value : Atomic) : Emit Instruction := do
  let op : Opcode := match value with
    | .number _ => .pushNumber
    | _ => .pushTerm
  return { op, constant := some (← constant value) }

/-- The code that evaluates the operators inside an expression, and the instruction that then
    pushes its value as operand. -/
def evalOperand : Expr → Emit (Code × Instruction)
  | .var name => do
    let _ ← occurs name
    return ([], { op := .pushValue, name })
  | .const a => do return ([], ← pushConst a)
  | .apply op keeps l r => do
    let (left, a) ← evalOperand l
    let (right, b) ← evalOperand r
    let y ← if keeps then newResult else pure ""
    return (left ++ right ++ [{ op := .prepare }, a, b, { op := op.opcode, result := y }],
      { op := .pushValue, name := y })

/-- The instruction that pushes the target of an evaluation. -/
def pushTarget : Target → Emit Instruction
  | .var name => do
    let first ← occurs name
    if first || isAnonymous name then return { op := .pushVar, name }
    else return { op := .pushValue, name }
  | .const a => pushConst a

/-- The code of an evaluation into a target. -/
def assignCode (target : Target) (value : Expr) : Emit Code := do
  let (code, right) ← evalOperand value
  let left ← pushTarget target
  let y ← newResult
  return code ++ [{ op := .prepare }, left, right, { op := .is, result := y }]

end PrologMachine
