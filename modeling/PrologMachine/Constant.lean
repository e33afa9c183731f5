/-
  PrologMachine.Constant ── **CONSTANTS WITH AN IDENTITY.**

  A constant at run time is a cell: two cells with the same content are equal by content, and a
  cell is always equal to itself.  The second half matters for constants that read as NaN, which
  differ from every other cell, so each cell has an identity.  The constants of compiled code are
  cells of the code; arithmetic and native predicates make cells of the heap.
-/
import PrologMachine.Term.Writer

namespace PrologMachine

/-- The identity of a constant's cell. -/
inductive Cell where
  /-- The cell of a constant in compiled code: which compiler made it, and its number there. -/
  | code (compiler index : Nat)
  /-- A cell made at run time. -/
  | heap (index : Nat)
  deriving DecidableEq, Repr, Inhabited

/-- A constant in its cell. -/
structure Constant where
  /-- The content. -/
  value : Atomic
  /-- The identity. -/
  cell : Cell

namespace Constant

/-- The two constants are one cell. -/
def same (a b : Constant) : Bool := a.cell == b.cell

/-- Equality of constants: one cell, or loosely equal contents. -/
def equal (a b : Constant) : Bool := a.same b || a.value.looseEq b.value

/-- The constant is an atom with this name. -/
def isAtom (c : Constant) (name : String) : Bool :=
  match c.value with
  | .atom s => s == name
  | _ => false

end Constant

end PrologMachine
