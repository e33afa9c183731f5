/-
  PrologMachine.Number.Binary ── **DOUBLES AS EXACT DYADIC NUMBERS.**

  A finite double is `± m · 2^q` with natural `m` and integer `q`.  `parts` takes a double apart;
  `ofRatio?` goes the other way and rounds a ratio of naturals to the nearest double, a half to
  the even neighbour.  Everything is exact arithmetic on naturals, so the number texts built on it
  can be reasoned about.
-/

namespace PrologMachine.Number

/-- What a double stands for. -/
inductive Parts where
  /-- No number. -/
  | nan
  /-- An infinity; negative when the flag is set. -/
  | infinite (negative : Bool)
  /-- The number `± mantissa · 2^exponent`. -/
  | finite (negative : Bool) (mantissa : Nat) (exponent : Int)
  deriving DecidableEq, Repr

/-- The exponent of the smallest positive double. -/
def leastExponent : Int := -1074

/-- The largest exponent that goes with a 53 bit mantissa. -/
def greatestExponent : Int := 971

/-- Take a double apart: one sign bit, eleven exponent bits, fifty-two fraction bits. -/
def parts (x : Float) : Parts :=
  let bits := x.toBits.toNat
  let negative := bits / Nat.pow 2 63 == 1
  let field : Nat := bits / Nat.pow 2 52 % 2048
  let fraction := bits % Nat.pow 2 52
  if field = 2047 then
    if fraction = 0 then .infinite negative else .nan
  else if field = 0 then .finite negative fraction leastExponent
  else .finite negative (fraction + Nat.pow 2 52) (field - 1075)

/-- Put a double together from a mantissa below `2^53` and its exponent. -/
def assemble (negative : Bool) (mantissa : Nat) (exponent : Int) : Float :=
  let magnitude :=
    if mantissa < Nat.pow 2 52 then mantissa
    else (exponent + 1075).toNat * Nat.pow 2 52 + (mantissa - Nat.pow 2 52)
  Float.ofBits (UInt64.ofNat (if negative then magnitude + Nat.pow 2 63 else magnitude))

/-- The quotient `a / b` rounded to the nearest natural, a half to the even neighbour. -/
def roundDiv (a b : Nat) : Nat :=
  let d := a / b
  let twice := 2 * (a % b)
  if b < twice || (twice == b && d % 2 == 1) then d + 1 else d

/-- The numerator of `num / den / 2^q` over the denominator `den` or `den · 2^q`. -/
def scaleByTwo (num den : Nat) (q : Int) : Nat × Nat :=
  if 0 ≤ q then (num, den * Nat.pow 2 q.toNat) else (num * Nat.pow 2 (-q).toNat, den)

/-- The exponent whose grid carries the doubles around `num / den`. -/
def gridExponent (num den : Nat) : Int :=
  let guess := max ((Nat.log2 num : Int) - Nat.log2 den - 53) leastExponent
  let (n, d) := scaleByTwo num den guess
  if Nat.pow 2 53 ≤ n / d then guess + 1 else guess

/-- The double nearest to `num / den`, or nothing when it is beyond the largest one. -/
def ofRatio? (negative : Bool) (num den : Nat) : Option Float :=
  if num = 0 then some (assemble negative 0 leastExponent)
  else
    let q := gridExponent num den
    let (n, d) := scaleByTwo num den q
    let m := roundDiv n d
    let (m, q) := if m = Nat.pow 2 53 then (Nat.pow 2 52, q + 1) else (m, q)
    if greatestExponent < q then none else some (assemble negative m q)

/-! ## Rounding to whole numbers. -/

/-- The whole number next to `x` on the side of zero. -/
def towardZero (x : Float) : Float := if x < 0 then x.ceil else x.floor

/-- The truncation of `x` to a whole number is even; what is no number or too large counts as
    even. -/
def truncatesToEven (x : Float) : Bool :=
  match parts x with
  | .finite _ m q => if 0 ≤ q then q != 0 || m % 2 == 0 else (m / Nat.pow 2 (-q).toNat) % 2 == 0
  | _ => true

end PrologMachine.Number
