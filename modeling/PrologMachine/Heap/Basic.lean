/-
  PrologMachine.Heap.Basic ── **RUN-TIME TERMS AS CELLS.**

  At run time variables and structures are cells of a heap.  A variable cell is unbound or holds
  a value; a structure cell has a name and arguments and may still be under construction.  Terms
  share cells, and through bound variables they may be cyclic.

    * `Heap.deref` follows bound variables.
    * `Heap.set` and `Heap.reset` change the value of a variable without a check.
-/
import PrologMachine.Constant

namespace PrologMachine

/-! ## §1. Values and cells. -/

/-- The number of a variable cell. -/
abbrev VarId := Nat

/-- The number of a structure cell. -/
abbrev StructId := Nat

/-- A run-time term: a reference to a cell, a constant, or nothing. -/
inductive Value where
  /-- A variable cell. -/
  | var (v : VarId)
  /-- A constant. -/
  | const (c : Constant)
  /-- A structure cell. -/
  | struct (s : StructId)
  /-- The place of a missing term. -/
  | absent
  deriving Inhabited

/-- The two values are the same cell. -/
def Value.same : Value → Value → Bool
  | .var a, .var b => a == b
  | .const a, .const b => a.same b
  | .struct a, .struct b => a == b
  | .absent, .absent => true
  | _, _ => false

/-- A variable cell. -/
structure VarCell where
  /-- The name in the source, or one made up. -/
  name : String
  /-- The run-time number; zero or less for a variable that has none. -/
  id : Int
  /-- The value, while it is bound. -/
  binding : Option Value
  deriving Inhabited

/-- A structure cell. -/
structure StructCell where
  /-- The functor. -/
  name : String
  /-- The arguments so far. -/
  args : List Value
  /-- The marks. -/
  attrs : Attrs
  deriving Inhabited

/-- The cells of run-time terms. -/
structure Heap where
  /-- The variable cells. -/
  vars : Array VarCell := #[]
  /-- The structure cells. -/
  structs : Array StructCell := #[]
  /-- How many constant cells were made. -/
  constants : Nat := 0
  /-- How many variable numbers were handed out. -/
  numbered : Nat := 0
  deriving Inhabited

namespace Heap

/-! ## §2. Making cells. -/

/-- A new unbound variable with a name and a number. -/
def newVar (h : Heap) (name : String) (id : Int) : VarId × Heap :=
  (h.vars.size, { h with vars := h.vars.push ⟨name, id, none⟩ })

/-- A new unbound variable with the next number. -/
def fresh (h : Heap) (name : String) : VarId × Heap :=
  let n := h.numbered + 1
  { h with numbered := n }.newVar name n

/-- The next name for an anonymous variable, which takes a number too. -/
def freshAnonymous (h : Heap) : String × Heap :=
  (anonymousName (h.numbered + 1), { h with numbered := h.numbered + 1 })

/-- A new structure. -/
def newStruct (h : Heap) (name : String) (args : List Value) (attrs : Attrs) : StructId × Heap :=
  (h.structs.size, { h with structs := h.structs.push ⟨name, args, attrs⟩ })

/-- A new constant cell. -/
def newConst (h : Heap) (value : Atomic) : Constant × Heap :=
  (⟨value, .heap h.constants⟩, { h with constants := h.constants + 1 })

/-! ## §3. Looking at cells. -/

/-- The variable cell; an unbound nameless one for a number that has none. -/
def varCell (h : Heap) (v : VarId) : VarCell := (h.vars[v]?).getD ⟨"", 0, none⟩

/-- The structure cell; a nameless one without arguments for a number that has none. -/
def structCell (h : Heap) (s : StructId) : StructCell := (h.structs[s]?).getD ⟨"", [], .none⟩

/-- The value of a variable. -/
def binding? (h : Heap) (v : VarId) : Option Value := (h.varCell v).binding

/-- The variable is bound. -/
def isBound (h : Heap) (v : VarId) : Bool := (h.binding? v).isSome

/-- Follow bound variables from `v`, for at most `n` steps; a chain that comes back to `origin`
    ends there. -/
def chase (h : Heap) (origin : VarId) : (n : Nat) → (v : VarId) → Value
  | 0, v => .var v
  | n + 1, v =>
    match h.binding? v with
    | none => .var v
    | some (.var w) => if w = origin then .var origin else h.chase origin n w
    | some t => t

/-- What a value stands for: an unbound variable or no variable.  A chain visits a variable at
    most once. -/
def deref (h : Heap) : Value → Value
  | .var v => h.chase v (h.vars.size + 1) v
  | t => t

/-- The number that a value stands for. -/
def number? (h : Heap) (t : Value) : Option Float :=
  match h.deref t with
  | .const c => c.value.number?
  | _ => none

/-! ## §4. Changing cells. -/

/-- Give a variable a value. -/
def set (h : Heap) (v : VarId) (t : Value) : Heap :=
  { h with vars := h.vars.modify v (fun c => { c with binding := some t }) }

/-- Take its value from a variable. -/
def reset (h : Heap) (v : VarId) : Heap :=
  { h with vars := h.vars.modify v (fun c => { c with binding := none }) }

/-- Take their values from variables, in order. -/
def resetAll (h : Heap) (vs : List VarId) : Heap := vs.foldl reset h

/-- Add an argument to a structure under construction. -/
def pushArg (h : Heap) (s : StructId) (t : Value) : Heap :=
  { h with structs := h.structs.modify s (fun c => { c with args := c.args ++ [t] }) }

end Heap

end PrologMachine
