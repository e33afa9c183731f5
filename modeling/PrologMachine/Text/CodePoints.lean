/-
  PrologMachine.Text.CodePoints ── **SETS OF CODE POINTS AS SORTED TABLES.**

  A Unicode category is written as a list of spans in increasing order.  A span holds the code
  points `lo, lo + step, lo + 2·step, …` up to `hi`, so that the alternating upper and lower case
  letters of the Latin and Cyrillic blocks take one line each.
-/

namespace PrologMachine.Text

/-- The code points `lo, lo + step, …` that do not exceed `hi`. -/
structure Span where
  /-- First code point of the span. -/
  lo : Nat
  /-- Upper end of the span, included when a step lands on it. -/
  hi : Nat
  /-- Distance of two neighbours. -/
  step : Nat
  deriving DecidableEq, Repr

/-- The span holds the code point `n`. -/
def Span.holds (s : Span) (n : Nat) : Bool :=
  s.lo ≤ n && n ≤ s.hi && (n - s.lo) % s.step == 0

/-- Some span of the table holds the code point of `c`. -/
def inTable (table : List Span) (c : Char) : Bool :=
  table.any (·.holds c.toNat)

end PrologMachine.Text
