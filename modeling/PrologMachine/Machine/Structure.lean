/-
  PrologMachine.Machine.Structure ── **TAKING STRUCTURES APART AND BUILDING THEM.**

  Head instructions decode the structure in a register.  A structure that is there is read; an
  unbound variable is bound to a new structure whose arguments the instructions then write.  Put
  instructions build the goal of a call.
-/
import PrologMachine.Machine.Control

namespace PrologMachine

namespace Exec

/-! ## §1. Decoding. -/

/-- Start decoding the structure in a register. -/
def getStruct (i : Instruction) : Exec Unit := do
  let m ← get
  if m.decoding.isSome && m.register = i.register then stop (.decodedTwice i.register)
  else match (m.frame m.current).get? i.register with
    | none => stop (.emptyRegister i.register)
    | some t =>
      let start (mode : Mode) (s : StructId) : Exec Unit :=
        modify (fun m =>
          { m with mode, decoding := some s, argument := 0, register := i.register })
      match m.heap.deref t with
      | .struct s =>
        let cell := m.heap.structCell s
        if cell.name ≠ i.functor || (cell.args.length : Int) ≠ i.arity then headFail
        else start .read s
      | .var v =>
        let s ← newStruct i.functor
        bind v (.struct s)
        start .write s
      | .const c =>
        if i.arity ≠ 0 || !c.isAtom i.functor then headFail
        else start .read (← newStruct i.functor)
      | .absent => stop (.registerHoldsNothing i.register)

/-- The next argument of the structure being read. -/
def nextArg : Exec Value := do
  let m ← get
  let arg := match m.decoding with
    | some s => (m.heap.structCell s).args[m.argument]?
    | none => none
  match arg with
  | some t =>
    set { m with argument := m.argument + 1 }
    return t
  | none => stop .noArgumentLeft

/-- Add an argument to the structure being written. -/
def writeArg (t : Value) : Exec Unit := do
  match (← get).decoding with
  | some s => pushArg s t
  | none => stop .noStructureToWrite

/-- First occurrence of a variable, or the place of a nested structure. -/
def getVar (name : String) : Exec Unit := do
  match (← get).mode with
  | .write =>
    let v ← fresh name
    changeCurrent (·.put name v)
    writeArg v
  | .read =>
    let t ← nextArg
    changeCurrent (·.put name t)

/-- Later occurrence of a variable. -/
def getValue (name : String) : Exec Unit := do
  let known ← lookup name
  match (← get).mode with
  | .write => writeArg known
  | .read =>
    let t ← nextArg
    if ← unify known t then return () else headFail

/-- An anonymous variable. -/
def unifVoid : Exec Unit := do
  match (← get).mode with
  | .write => writeArg (← fresh "_")
  | .read =>
    let _ ← nextArg

/-- A constant. -/
def getConst (i : Instruction) : Exec Unit := do
  match i.constant with
  | none => stop (.noConstant i.op)
  | some c =>
    match (← get).mode with
    | .write => writeArg (.const c)
    | .read =>
      let t ← nextArg
      match ← deref t with
      | .var v => bind v (.const c)
      | _ =>
        let (ok, u) := (← get).heap.unify t (.const c)
        modify (fun m => { m with heap := u.heap })
        if ok then return () else headFail

/-! ## §2. Building. -/

/-- Start a structure in a register of the frame under construction. -/
def putStruct (i : Instruction) : Exec Unit := do
  let f ← target i.op
  let s ← newStruct i.functor
  modify (fun m =>
    { m with building := some s }.changeFrame f (·.put i.register (.struct s)))

/-- Add an argument to the structure under construction. -/
def putArg (t : Value) : Exec Unit := do
  match (← get).building with
  | some s => pushArg s t
  | none => stop .noGoalUnderConstruction

/-- Pass a new variable of the clause. -/
def putVar (name : String) : Exec Unit := do
  let v ← fresh name
  changeCurrent (·.put name v)
  putArg v

/-- Pass an anonymous variable. -/
def putVoid : Exec Unit := do putArg (← fresh "_")

/-- Pass a known variable, or a structure built before. -/
def putValue (i : Instruction) : Exec Unit := do
  if isStructRegister i.name then
    let f ← target i.op
    match ((← get).frame f).get? i.name with
    | some t => putArg t
    | none => stop (.emptyPut i.name)
  else putArg (← lookup i.name)

/-- Pass a constant. -/
def putConst (i : Instruction) : Exec Unit := do
  match i.constant with
  | some c => putArg (.const c)
  | none => stop (.noConstant i.op)

end Exec

end PrologMachine
