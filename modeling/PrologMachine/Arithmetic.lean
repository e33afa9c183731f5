/-
  PrologMachine.Arithmetic ── **OPERATORS ON NUMBERS.**

  Six operators have a value and six compare.  Division, whole division and remainder refuse a
  zero divisor; the remainder has the sign of the divisor.
-/
import PrologMachine.Code.Opcode
import PrologMachine.Number.Binary

namespace PrologMachine

/-- The operators that have a value. -/
inductive ArithOp where
  /-- Sum. -/
  | plus
  /-- Difference. -/
  | minus
  /-- Product. -/
  | mult
  /-- Quotient. -/
  | div
  /-- Quotient cut off toward zero. -/
  | intDiv
  /-- Remainder. -/
  | mod
  deriving DecidableEq, Repr

/-- The operators that compare. -/
inductive CompareOp where
  /-- Less. -/
  | lt
  /-- Greater. -/
  | gt
  /-- Less or equal. -/
  | le
  /-- Greater or equal. -/
  | ge
  /-- Equal. -/
  | eq
  /-- Different. -/
  | ne
  deriving DecidableEq, Repr

/-- An operator of either sort. -/
inductive Operator where
  /-- It has a value. -/
  | value (op : ArithOp)
  /-- It compares. -/
  | compare (op : CompareOp)
  deriving DecidableEq, Repr

namespace ArithOp

/-- The operator refuses a zero as its right operand. -/
def divides : ArithOp → Bool
  | .div | .intDiv | .mod => true
  | _ => false

/-- The value of an operator, whatever its right operand. -/
def apply : ArithOp → Float → Float → Float
  | .plus, a, b => a + b
  | .minus, a, b => a - b
  | .mult, a, b => a * b
  | .div, a, b => a / b
  | .intDiv, a, b => Number.towardZero (a / b)
  | .mod, a, b => a - b * (a / b).floor

/-- The value of an operator, or nothing when it would divide by zero. -/
def eval? (op : ArithOp) (a b : Float) : Option Float :=
  if op.divides && b == 0 then none else some (op.apply a b)

/-- The instruction of an operator. -/
def opcode : ArithOp → Opcode
  | .plus => .plus
  | .minus => .minus
  | .mult => .mult
  | .div => .div
  | .intDiv => .intDiv
  | .mod => .mod

end ArithOp

namespace CompareOp

/-- The comparison holds. -/
def holds : CompareOp → Float → Float → Bool
  | .lt, a, b => a < b
  | .gt, a, b => b < a
  | .le, a, b => a ≤ b
  | .ge, a, b => b ≤ a
  | .eq, a, b => a == b
  | .ne, a, b => a != b

/-- The instruction of a comparison. -/
def opcode : CompareOp → Opcode
  | .lt => .lt
  | .gt => .gt
  | .le => .le
  | .ge => .ge
  | .eq => .eq
  | .ne => .ne

end CompareOp

namespace Operator

/-- The instruction of an operator. -/
def opcode : Operator → Opcode
  | .value op => op.opcode
  | .compare op => op.opcode

/-- The operator with a name. -/
def ofName? (name : String) : Option Operator :=
  if name = "+" then some (.value .plus)
  else if name = "-" then some (.value .minus)
  else if name = "*" then some (.value .mult)
  else if name = "/" then some (.value .div)
  else if name = "//" then some (.value .intDiv)
  else if name = "mod" then some (.value .mod)
  else if name = "<" then some (.compare .lt)
  else if name = ">" then some (.compare .gt)
  else if name = "=<" then some (.compare .le)
  else if name = ">=" then some (.compare .ge)
  else if name = "=:=" then some (.compare .eq)
  else if name = "=\\=" then some (.compare .ne)
  else none

end Operator

end PrologMachine
