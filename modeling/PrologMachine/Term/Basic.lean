/-
  PrologMachine.Term.Basic ── **TERMS AS THEY ARE READ.**

  The reader produces, and the compiler consumes, trees: variables known by name, constants, and
  compounds of a name and arguments.  Run-time terms, which share cells and may be cyclic, live
  on a heap of their own.

  Constants compare loosely: an atom whose text reads as a number equals that number, so `5`,
  `5.0` and `'5'` are one constant.
-/
import PrologMachine.Number.Decimal
import PrologMachine.Number.Numeral

namespace PrologMachine

/-! ## §1. Constants. -/

/-- A constant. -/
inductive Atomic where
  /-- A symbolic constant. -/
  | atom (name : String)
  /-- A number. -/
  | number (value : Float)
  /-- The empty list. -/
  | nil

namespace Atomic

/-- The text of a constant, without quotes. -/
def name : Atomic → String
  | .atom s => s
  | .number x => Number.text x
  | .nil => "[]"

/-- The number in a number constant. -/
def number? : Atomic → Option Float
  | .number x => some x
  | _ => none

/-- The number a constant is taken for in a comparison: its own, or the one an atom's text
    reads as. -/
def numeric? : Atomic → Option Float
  | .number x => some x
  | .atom s => (Number.read s.toList).toOption
  | .nil => none

/-- Loose equality of constants: by number where both sides have one, else by text.  The empty
    list equals itself only.  A constant that reads as NaN differs even from itself. -/
def looseEq : Atomic → Atomic → Bool
  | .nil, .nil => true
  | .nil, _ => false
  | _, .nil => false
  | a, b =>
    match a.numeric?, b.numeric? with
    | some x, some y => x == y
    | _, _ => a.name == b.name

end Atomic

/-! ## §2. Attributes. -/

/-- Marks on a compound that steer how it is compiled, one bit each. -/
structure Attrs where
  /-- The marks as bits. -/
  bits : UInt8 := 0
  deriving DecidableEq, Repr, Inhabited

namespace Attrs

/-- No mark at all. -/
def none : Attrs := ⟨0⟩
/-- Evaluated in place by an operator instruction. -/
def primitive : Attrs := ⟨1⟩
/-- A primitive that succeeds or fails instead of having a value. -/
def boolean : Attrs := ⟨2⟩
/-- A goal that a native predicate answers. -/
def builtin : Attrs := ⟨4⟩
/-- An arithmetic expression. -/
def toEvaluate : Attrs := ⟨8⟩

/-- The marks of both. -/
def union (a b : Attrs) : Attrs := ⟨a.bits ||| b.bits⟩

/-- All marks of `b` are set in `a`. -/
def has (a b : Attrs) : Bool := a.bits &&& b.bits == b.bits

end Attrs

/-! ## §3. Terms. -/

/-- A term as a tree. -/
inductive Term where
  /-- A variable; one with a positive number was created at run time. -/
  | var (name : String) (id : Int)
  /-- A constant and where it stands in the source, -1 for nowhere. -/
  | const (value : Atomic) (position : Int)
  /-- A compound: name, arguments, marks and where it stands. -/
  | app (name : String) (args : List Term) (attrs : Attrs) (position : Int)
  /-- The place of a missing term. -/
  | absent
  deriving Inhabited

namespace Term

/-- A list cell. -/
def cons (head tail : Term) : Term := .app "cons" [head, tail] .none (-1)

/-- The list of `elements`, ended by `tail`. -/
def ofList (elements : List Term) (tail : Term) : Term := elements.foldr cons tail

/-- Where a term stands, -1 for nowhere. -/
def position : Term → Int
  | .const _ p => p
  | .app _ _ _ p => p
  | _ => -1

end Term

/-! ## §4. Names of variables without a name. -/

/-- How the names start that are made up for anonymous variables; no variable can be written so. -/
def anonymousLead : List Char := ['_', '#']

/-- The made-up name of the `n`-th anonymous variable. -/
def anonymousName (n : Nat) : String := String.ofList (anonymousLead ++ Nat.toDigits 10 n)

/-- The name was made up for an anonymous variable. -/
def isAnonymous (name : String) : Bool := anonymousLead.isPrefixOf name.toList

end PrologMachine
