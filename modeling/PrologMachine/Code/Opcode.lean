/-
  PrologMachine.Code.Opcode ── **THE INSTRUCTION VOCABULARY.**

  Head instructions take a goal structure apart, put instructions build one, control instructions
  call, retry and return, and primitive instructions evaluate arithmetic.
-/

namespace PrologMachine

/-- What an instruction does.  A number outside the vocabulary is kept as it came. -/
inductive Opcode where
  /-- No instruction. -/
  | invalid
  /-- Start decoding the structure in a register. -/
  | getStruct
  /-- First occurrence of a variable among the arguments of a head. -/
  | getVar
  /-- Later occurrence of a variable among the arguments of a head. -/
  | getValue
  /-- An atom among the arguments of a head. -/
  | getTerm
  /-- A number among the arguments of a head. -/
  | getNumber
  /-- The empty list among the arguments of a head. -/
  | getNil
  /-- First occurrence of a variable inside a nested structure. -/
  | unifVar
  /-- Later occurrence of a variable inside a nested structure. -/
  | unifValue
  /-- An anonymous variable. -/
  | unifVoid
  /-- An atom inside a nested structure. -/
  | unifyTerm
  /-- A number inside a nested structure. -/
  | unifyNumber
  /-- The empty list inside a nested structure. -/
  | unifyNil
  /-- Start building a structure in a register. -/
  | putStruct
  /-- Pass a variable for the first time. -/
  | putVar
  /-- Pass an anonymous variable. -/
  | putVoid
  /-- Pass a known variable or a structure built before. -/
  | putValue
  /-- Pass an atom. -/
  | putTerm
  /-- Pass a number. -/
  | putNumber
  /-- Pass the empty list. -/
  | putNil
  /-- Push the frame of the call under construction. -/
  | allocate
  /-- Save where the call returns to. -/
  | setup
  /-- Call a predicate. -/
  | call
  /-- Call a native predicate. -/
  | bcall
  /-- After a failed call try its next clause. -/
  | maybeRetry
  /-- The same for a negated call, whose outcome is inverted at the end. -/
  | maybeRetryN
  /-- Drop the frame of a call that failed for good. -/
  | deallocate
  /-- Leave the clause when the last call failed. -/
  | maybeFail
  /-- Record an alternative. -/
  | tryElse
  /-- Mark the last alternative. -/
  | tryFinally
  /-- Go on at a label. -/
  | jump
  /-- Return from the clause. -/
  | proceed
  /-- Commit to the clause. -/
  | cut
  /-- Fail. -/
  | fail
  /-- The end of the query. -/
  | end_
  /-- Clear the operands. -/
  | prepare
  /-- Push a new variable as operand. -/
  | pushVar
  /-- Push a known variable as operand. -/
  | pushValue
  /-- Push an atom as operand. -/
  | pushTerm
  /-- Push a number as operand. -/
  | pushNumber
  /-- Bind the left operand to the value of the right one. -/
  | is
  /-- Addition. -/
  | plus
  /-- Subtraction. -/
  | minus
  /-- Multiplication. -/
  | mult
  /-- Division. -/
  | div
  /-- Division cut off toward zero. -/
  | intDiv
  /-- Remainder with the sign of the divisor. -/
  | mod
  /-- Less. -/
  | lt
  /-- Greater. -/
  | gt
  /-- Less or equal. -/
  | le
  /-- Greater or equal. -/
  | ge
  /-- Equal as numbers. -/
  | eq
  /-- Different as numbers. -/
  | ne
  /-- A number that stands for no instruction. -/
  | unknown (code : UInt8)
  deriving DecidableEq, Repr, Inhabited

namespace Opcode

/-- The vocabulary in the order of its numbers, `invalid` being number zero. -/
def all : List Opcode :=
  [.invalid, .getStruct, .getVar, .getValue, .getTerm, .getNumber, .getNil, .unifVar, .unifValue,
    .unifVoid, .unifyTerm, .unifyNumber, .unifyNil, .putStruct, .putVar, .putVoid, .putValue,
    .putTerm, .putNumber, .putNil, .allocate, .setup, .call, .bcall, .maybeRetry, .maybeRetryN,
    .deallocate, .maybeFail, .tryElse, .tryFinally, .jump, .proceed, .cut, .fail, .end_, .prepare,
    .pushVar, .pushValue, .pushTerm, .pushNumber, .is, .plus, .minus, .mult, .div, .intDiv, .mod,
    .lt, .gt, .le, .ge, .eq, .ne]

/-- The mnemonic. -/
def text : Opcode → String
  | .invalid => "invalid"
  | .getStruct => "get_struct"
  | .getVar => "get_var"
  | .getValue => "get_value"
  | .getTerm => "get_term"
  | .getNumber => "get_number"
  | .getNil => "get_nil"
  | .unifVar => "unif_var"
  | .unifValue => "unif_value"
  | .unifVoid => "unif_void"
  | .unifyTerm => "unify_term"
  | .unifyNumber => "unify_number"
  | .unifyNil => "unify_nil"
  | .putStruct => "put_struct"
  | .putVar => "put_var"
  | .putVoid => "put_void"
  | .putValue => "put_value"
  | .putTerm => "put_term"
  | .putNumber => "put_number"
  | .putNil => "put_nil"
  | .allocate => "allocate"
  | .setup => "setup"
  | .call => "call"
  | .bcall => "bcall"
  | .maybeRetry => "maybe_retry"
  | .maybeRetryN => "maybe_retryn"
  | .deallocate => "deallocate"
  | .maybeFail => "maybe_fail"
  | .tryElse => "try_else"
  | .tryFinally => "try_finally"
  | .jump => "jump"
  | .proceed => "proceed"
  | .cut => "cut"
  | .fail => "fail"
  | .end_ => "end"
  | .prepare => "prepare"
  | .pushVar => "push_var"
  | .pushValue => "push_value"
  | .pushTerm => "push_term"
  | .pushNumber => "push_number"
  | .is => "op_is"
  | .plus => "op_plus"
  | .minus => "op_minus"
  | .mult => "op_mult"
  | .div => "op_div"
  | .intDiv => "op_intdiv"
  | .mod => "op_mod"
  | .lt => "op_lt"
  | .gt => "op_gt"
  | .le => "op_le"
  | .ge => "op_ge"
  | .eq => "op_eq"
  | .ne => "op_ne"
  | .unknown c => "opcode(" ++ String.ofList (Nat.toDigits 10 c.toNat) ++ ")"

/-- The opcode with number `n`, taken modulo 256. -/
def ofCode (n : UInt8) : Opcode := all.getD n.toNat (.unknown n)

/-- The number of an opcode. -/
def code : Opcode → Nat
  | .unknown c => c.toNat
  | op => all.idxOf op

/-- The opcode belongs to the vocabulary. -/
def valid : Opcode → Bool
  | .invalid => false
  | .unknown _ => false
  | _ => true

/-- The opcode with a mnemonic. -/
def ofText? (mnemonic : String) : Option Opcode :=
  all.find? (fun op => op.valid && op.text == mnemonic)

end Opcode

end PrologMachine
