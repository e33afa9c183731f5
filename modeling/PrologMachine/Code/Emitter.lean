/-
  PrologMachine.Code.Emitter ── **THE STATE OF CODE GENERATION.**

  While the code of one clause is emitted, the emitter remembers which variables have occurred,
  and numbers registers, results, leaf goals and constants.  Generation cannot fail.
-/
import PrologMachine.Body

namespace PrologMachine

/-- A piece of code. -/
abbrev Code := List Instruction

/-- What code generation remembers. -/
structure Emitter where
  /-- Which compiler owns the constants. -/
  compiler : Nat
  /-- How many constants this compiler has emitted. -/
  constants : Nat
  /-- The variables that have occurred in the clause. -/
  seen : List String := []
  /-- How many structure registers the present head or goal uses. -/
  registers : Nat := 0
  /-- How many result registers the clause uses. -/
  results : Nat := 0
  /-- How many leaf goals the clause has. -/
  leaves : Nat := 0
  /-- The auxiliary clauses of the clause. -/
  auxiliaries : List Clause := []

/-- Code generation. -/
abbrev Emit := StateM Emitter

/-- The name of structure register `n`. -/
def structRegister (n : Nat) : String := String.ofList ('$' :: 'x' :: Nat.toDigits 10 n)

/-- The name of result register `n`. -/
def resultRegister (n : Nat) : String := String.ofList ('$' :: 'y' :: Nat.toDigits 10 n)

/-- The label of leaf goal `n`. -/
def leafLabel (n : Nat) : String := String.ofList ('g' :: Nat.toDigits 10 n)

namespace Emit

/-- A constant in a new cell of the code. -/
def constant (value : Atomic) : Emit Constant := do
  let e ← get
  set { e with constants := e.constants + 1 }
  return ⟨value, .code e.compiler e.constants⟩

/-- Note an occurrence of a variable; the answer says whether it is the first. -/
def occurs (name : String) : Emit Bool := do
  let e ← get
  if e.seen.contains name then return false
  else
    set { e with seen := name :: e.seen }
    return true

/-- Forget the structure registers: a new head or goal starts. -/
def clearRegisters : Emit Unit := modify (fun e => { e with registers := 0 })

/-- A new structure register. -/
def newRegister : Emit Nat := do
  modify (fun e => { e with registers := e.registers + 1 })
  return (← get).registers

/-- A new result register. -/
def newResult : Emit String := do
  modify (fun e => { e with results := e.results + 1 })
  return resultRegister (← get).results

/-- The label of a new leaf goal. -/
def newLeaf : Emit String := do
  let e ← get
  set { e with leaves := e.leaves + 1 }
  return leafLabel e.leaves

end Emit

end PrologMachine
