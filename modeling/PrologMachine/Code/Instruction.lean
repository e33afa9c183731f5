/-
  PrologMachine.Code.Instruction ── **INSTRUCTION WORDS.**

  An instruction is an opcode with operand fields; an opcode reads the fields it needs and leaves
  the others alone.  The assembly text shows the fields that are set.
-/
import PrologMachine.Code.Opcode
import PrologMachine.Constant
import PrologMachine.Signature

namespace PrologMachine

/-- One instruction. -/
structure Instruction where
  /-- What to do. -/
  op : Opcode
  /-- The functor of a structure. -/
  functor : String := ""
  /-- The arity of a structure. -/
  arity : Int := 0
  /-- The register of a structure. -/
  register : String := ""
  /-- The name of a variable or register. -/
  name : String := ""
  /-- A constant. -/
  constant : Option Constant := none
  /-- The register of a result. -/
  result : String := ""
  /-- A label. -/
  label : String := ""
  deriving Inhabited

/-- A blank and the text, unless the text is empty. -/
def spaced (s : String) : String := if s = "" then "" else " " ++ s

/-- The assembly text of an instruction. -/
def Instruction.text (i : Instruction) : String :=
  i.op.text ++
    match i.op with
    | .getStruct | .putStruct => " " ++ (Signature.mk i.functor i.arity).text ++ " " ++ i.register
    | .tryElse | .jump => " " ++ i.label
    | _ =>
      spaced i.name ++ spaced i.register ++
        (match i.constant with
          | some c => " " ++ c.value.text
          | none => "") ++
        spaced i.result

end PrologMachine
