/-
  PrologMachine.Code.Decode ── **CODE THAT TAKES A GOAL APART.**

  The head of a clause compiles to code that walks the goal in register `$x0`.  A structure's
  arguments are decoded in order; a nested structure leaves a register behind, and the nested
  structures are decoded after their parent, in order and each with all that it contains.
-/
import PrologMachine.Code.Emitter

namespace PrologMachine

open Emit

/-- The instruction for a variable among the arguments of the root or of a nested structure. -/
def decodeVar (root : Bool) (name : String) : Emit Instruction := do
  if isAnonymous name then return { op := .unifVoid }
  else
    let first ← occurs name
    let op : Opcode := match first, root with
      | true, true => .getVar
      | true, false => .unifVar
      | false, true => .getValue
      | false, false => .unifValue
    return { op, name }

/-- The instruction for a constant. -/
def decodeConst (root : Bool) (value : Atomic) : Emit Instruction := do
  let op : Opcode := match value, root with
    | .number _, true => .getNumber
    | .number _, false => .unifyNumber
    | .nil, true => .getNil
    | .nil, false => .unifyNil
    | .atom _, true => .getTerm
    | .atom _, false => .unifyTerm
  return { op, constant := some (← constant value) }

/-- The code for one argument, and the register it leaves when it is a structure.  A missing
    argument has no code. -/
def decodeArg (root : Bool) : Term → Emit (Code × Option Nat)
  | .var name _ => do return ([← decodeVar root name], none)
  | .const a _ => do return ([← decodeConst root a], none)
  | .app name [] _ _ => do return ([← decodeConst root (.atom name)], none)
  | .app _ (_ :: _) _ _ => do
    let r ← newRegister
    return ([{ op := if root then .getVar else .unifVar, name := structRegister r }], some r)
  | .absent => return ([], none)

/-- The code for the arguments, and the registers of those that are structures. -/
def decodeArgs (root : Bool) : List Term → Emit (Code × List (Option Nat))
  | [] => return ([], [])
  | t :: ts => do
    let (code, r) ← decodeArg root t
    let (codes, rs) ← decodeArgs root ts
    return (code ++ codes, r :: rs)

/-- The start of a structure. -/
def getStruct (name : String) (arity r : Nat) : Instruction :=
  { op := .getStruct, functor := name, arity, register := structRegister r }

/-- The code for the structures among the arguments, each with all that it contains. -/
def decodeNested : List Term → List (Option Nat) → Emit Code
  | .app name args _ _ :: ts, some r :: rs => do
    let (own, regs) ← decodeArgs false args
    let below ← decodeNested args regs
    let rest ← decodeNested ts rs
    return getStruct name args.length r :: own ++ below ++ rest
  | _ :: ts, _ :: rs => decodeNested ts rs
  | _, _ => return []

/-- The code of a head, ended by a jump to the body or, for a fact, by the return. -/
def decodeHead (name : String) (args : List Term) (hasBody : Bool) : Emit Code := do
  clearRegisters
  let (own, regs) ← decodeArgs true args
  let below ← decodeNested args regs
  let last : Instruction :=
    if hasBody then { op := .jump, label := bodyLabel } else { op := .proceed }
  return getStruct name args.length 0 :: own ++ below ++ [last]

end PrologMachine
