/-
  PrologMachine.Number.Decimal ── **THE SHORTEST DECIMAL THAT READS BACK.**

  A number is written with the fewest decimal digits that still read back as the same double; of
  several such decimals the nearest is taken.  The notation is positional whatever the size, so
  there is never an exponent: `1e22` has twenty-three digits.

  The search is the definition: for one, two, … digits look at the two neighbours of the value on
  that decimal grid and take the first that lies in the interval of reals rounding to the value.
-/
import PrologMachine.Number.Binary

namespace PrologMachine.Number

/-! ## §1. The interval of a double. -/

/-- The reals that round to one double: the value is `mid / den`, the ends are `lo / den` and
    `hi / den`, and the ends themselves belong to it when `closed` is set. -/
structure Interval where
  /-- Numerator of the lower end. -/
  lo : Nat
  /-- Numerator of the value. -/
  mid : Nat
  /-- Numerator of the upper end. -/
  hi : Nat
  /-- The common denominator. -/
  den : Nat
  /-- The ends round to the value too: the mantissa is even. -/
  closed : Bool

/-- The interval of the double `m · 2^q`.  Just above a power of two the gap below is half the gap
    above, so all is counted in quarters of the gap above. -/
def interval (m : Nat) (q : Int) : Interval :=
  let below := if m = Nat.pow 2 52 && leastExponent < q then 1 else 2
  let unit := if 2 ≤ q then Nat.pow 2 (q - 2).toNat else 1
  { lo := (4 * m - below) * unit
    mid := 4 * m * unit
    hi := (4 * m + 2) * unit
    den := if 2 ≤ q then 1 else Nat.pow 2 (2 - q).toNat
    closed := m % 2 == 0 }

/-- The decimal `d · 10^g` lies in the interval. -/
def Interval.admits (i : Interval) (d : Nat) (g : Int) : Bool :=
  let x := if 0 ≤ g then d * Nat.pow 10 g.toNat * i.den else d * i.den
  let s := if 0 ≤ g then 1 else Nat.pow 10 (-g).toNat
  if i.closed then i.lo * s ≤ x && x ≤ i.hi * s else i.lo * s < x && x < i.hi * s

/-! ## §2. The search. -/

/-- The exponent of the leading decimal digit of `num / den`. -/
def leadingExponent (num den : Nat) : Int :=
  if den ≤ num then (Nat.toDigits 10 (num / den)).length - 1
  else - ((Nat.toDigits 10 ((den - 1) / num)).length : Int)

/-- The neighbour of the value on the grid `10^g` that lies in the interval, the nearer of two. -/
def Interval.onGrid? (i : Interval) (g : Int) : Option Nat :=
  let (num, den) := if 0 ≤ g then (i.mid, i.den * Nat.pow 10 g.toNat)
    else (i.mid * Nat.pow 10 (-g).toNat, i.den)
  let d := num / den
  match i.admits d g, i.admits (d + 1) g with
  | true, true => some (roundDiv num den)
  | true, false => some d
  | false, true => some (d + 1)
  | false, false => none

/-- The first grid, from `digits` significant digits on, that has a decimal in the interval. -/
def Interval.search (i : Interval) (lead : Int) : (tries digits : Nat) → Nat × Int
  | 0, digits => (0, lead - digits + 1)
  | tries + 1, digits =>
    let g := lead - digits + 1
    match i.onGrid? g with
    | some d => (d, g)
    | none => i.search lead tries (digits + 1)

/-- The decimal `d · 10^g` with the fewest digits that reads back as the double `m · 2^q`; no
    double needs more than seventeen. -/
def shortest (m : Nat) (q : Int) : Nat × Int :=
  let i := interval m q
  i.search (leadingExponent i.mid i.den) 17 1

/-! ## §3. Positional notation. -/

/-- The digits `ds` without the zeros at their end. -/
def dropTrailingZeros (ds : List Char) : List Char :=
  (ds.reverse.dropWhile (· == '0')).reverse

/-- The decimal `d · 10^g` in positional notation, without zeros at the end of a fraction. -/
def positional (d : Nat) (g : Int) : List Char :=
  let ds := Nat.toDigits 10 d
  if 0 ≤ g then ds ++ List.replicate g.toNat '0'
  else
    let places := (-g).toNat
    let ds := List.replicate (places + 1 - ds.length) '0' ++ ds
    let whole := ds.take (ds.length - places)
    match dropTrailingZeros (ds.drop (ds.length - places)) with
    | [] => whole
    | fraction => whole ++ '.' :: fraction

/-- The sign in front of a number text. -/
def signText (negative : Bool) : List Char := if negative then ['-'] else []

/-- The text of a number. -/
def text (x : Float) : String :=
  match parts x with
  | .nan => "NaN"
  | .infinite true => "-Inf"
  | .infinite false => "+Inf"
  | .finite negative 0 _ => String.ofList (signText negative ++ ['0'])
  | .finite negative m q =>
    let (d, g) := shortest m q
    String.ofList (signText negative ++ positional d g)

end PrologMachine.Number
