/-
  PrologMachine.Number.Numeral ── **READING NUMBER TEXTS.**

  A number text is an infinity, a NaN, or a numeral: sign, digits with at most one point, and an
  exponent, in base ten or, after `0x`, in base sixteen with a binary exponent that must be given.
  Underscores may separate digits.  The value is rounded correctly; a value beyond the largest
  double is an error, one below the smallest is zero.

  Two rules bound the digits that count.  Of an exponent they are the leading ones, up to the one
  that takes it to ten thousand or more (`exponentSize`).  Of a decimal with very many digits
  before the point they are the first eight hundred, unless the first nineteen settle the value
  already (`Numeral.decimalValue?`).

  Atoms are compared through this reader: an atom whose text reads as a number is that number.
-/
import PrologMachine.Number.Binary
import PrologMachine.Text.Letters

namespace PrologMachine.Number

open PrologMachine.Text (isAsciiDigit)

/-- Why a text is no number. -/
inductive Fault where
  /-- The text does not have the form of a number. -/
  | malformed
  /-- The number is too large. -/
  | outOfRange
  deriving DecidableEq, Repr

/-- The words for the fault at the end of a message. -/
def Fault.text : Fault → String
  | .malformed => "invalid syntax"
  | .outOfRange => "value out of range"

/-! ## §1. Pieces of a numeral. -/

/-- The lower case of an ASCII letter. -/
def lowerAscii (c : Char) : Char := if 'A' ≤ c && c ≤ 'Z' then Char.ofNat (c.toNat + 32) else c

/-- The value of a digit in base sixteen; digits of base ten are among them. -/
def digitValue (c : Char) : Nat :=
  if isAsciiDigit c then c.toNat - '0'.toNat else (lowerAscii c).toNat - 'a'.toNat + 10

/-- The letters that are digits in base sixteen. -/
def isHexLetter (c : Char) : Bool := 'a' ≤ lowerAscii c && lowerAscii c ≤ 'f'

/-- The digits of a base. -/
def isDigitOf (hex : Bool) (c : Char) : Bool := isAsciiDigit c || (hex && isHexLetter c)

/-- The natural number that `ds` writes in `base`. -/
def ofDigits (base : Nat) (ds : List Char) : Nat :=
  ds.foldl (fun n c => n * base + digitValue c) 0

/-- Split off a sign; the flag is set for a minus. -/
def splitSign : List Char → Bool × List Char
  | '-' :: cs => (true, cs)
  | '+' :: cs => (false, cs)
  | cs => (false, cs)

/-- Split off the mark of base sixteen, which needs at least one more character. -/
def splitBase : List Char → Bool × List Char
  | '0' :: x :: c :: cs => if lowerAscii x = 'x' then (true, c :: cs) else (false, '0' :: x :: c :: cs)
  | cs => (false, cs)

/-- The last character that the underscore rule looks back at. -/
inductive Before where
  /-- A digit, or the mark of base sixteen. -/
  | digit
  /-- An underscore. -/
  | underscore
  /-- Anything else, or nothing. -/
  | other
  deriving DecidableEq

/-- Every underscore stands after a digit and before one. -/
def underscoresSeparate (hex : Bool) : Before → List Char → Bool
  | last, [] => last != .underscore
  | last, c :: cs =>
    if isDigitOf hex c then underscoresSeparate hex .digit cs
    else if c = '_' then last == .digit && underscoresSeparate hex .underscore cs
    else last != .underscore && underscoresSeparate hex .other cs

/-! ## §2. Numerals. -/

/-- A numeral without its sign: the value is `mantissa · base^(-places) · root^exponent`, where
    the root of the exponent is ten or two. -/
structure Numeral where
  /-- Written in base sixteen. -/
  hex : Bool
  /-- All digits read as one natural number. -/
  mantissa : Nat
  /-- How many digits there are from the first on that is not zero. -/
  count : Nat
  /-- How many of the digits stand after the point. -/
  places : Nat
  /-- The exponent, as far as its digits count. -/
  exponent : Int
  deriving DecidableEq, Repr

/-- A size of exponents that takes any numeral of ordinary length out of the range of doubles. -/
def exponentBound : Nat := 10000

/-- The size that the digits `ds` of an exponent give it.  Once it has reached `exponentBound`, the
    digits that follow do not count. -/
def exponentSize (ds : List Char) : Nat :=
  ds.foldl (fun n c => if n < exponentBound then n * 10 + digitValue c else n) 0

/-- The exponent after its letter: an optional sign and at least one digit, which comes first. -/
def readExponent (cs : List Char) : Option Int :=
  let (negative, ds) := splitSign cs
  match ds with
  | [] => none
  | d :: _ =>
    if isAsciiDigit d && ds.all (fun c => isAsciiDigit c || c == '_') then
      let n : Int := exponentSize (ds.filter (· != '_'))
      some (if negative then -n else n)
    else none

/-- Read a numeral that takes up all of `cs`. -/
def readNumeral (cs : List Char) : Option Numeral :=
  let (hex, body) := splitBase cs
  let inDigits := fun c => isDigitOf hex c || c == '_'
  let whole := body.takeWhile inDigits
  let (fraction, rest) := match body.dropWhile inDigits with
    | '.' :: r => (r.takeWhile inDigits, r.dropWhile inDigits)
    | r => ([], r)
  let fraction := fraction.filter (· != '_')
  let digits := whole.filter (· != '_') ++ fraction
  let exponent := match rest with
    | [] => if hex then none else some 0
    | c :: r => if lowerAscii c = (if hex then 'p' else 'e') then readExponent r else none
  match exponent with
  | none => none
  | some e =>
    if digits.isEmpty || !underscoresSeparate hex (if hex then .digit else .other) body then none
    else some
      { hex, mantissa := ofDigits (if hex then 16 else 10) digits
        count := (digits.dropWhile (· == '0')).length, places := fraction.length, exponent := e }

/-! ## §3. The value of a numeral. -/

/-- The double nearest to `mantissa · 10^exponent`, or nothing when it is beyond the largest one.
    The mantissa has `count` digits.  Sizes far outside the range of doubles are decided by their
    number alone, so no large power is computed for them. -/
def nearestDecimal? (negative : Bool) (mantissa count : Nat) (exponent : Int) : Option Float :=
  let size := count + exponent
  if mantissa = 0 || size < -400 then ofRatio? negative 0 1
  else if 400 < size then none
  else if 0 ≤ exponent then ofRatio? negative (mantissa * Nat.pow 10 exponent.toNat) 1
  else ofRatio? negative mantissa (Nat.pow 10 (-exponent).toNat)

/-- The double nearest to `mantissa · 2^exponent`, or nothing when it is beyond the largest one. -/
def nearestBinary? (negative : Bool) (mantissa : Nat) (exponent : Int) : Option Float :=
  let size := Nat.log2 mantissa + exponent
  if mantissa = 0 || size < -1100 then ofRatio? negative 0 1
  else if 1100 < size then none
  else if 0 ≤ exponent then ofRatio? negative (mantissa * Nat.pow 2 exponent.toNat) 1
  else ofRatio? negative mantissa (Nat.pow 2 (-exponent).toNat)

/-- How many leading digits of a long decimal are tried first. -/
def leadingDigits : Nat := 19

/-- How many digits before the point count when the leading ones do not settle the value. -/
def countedDigits : Nat := 800

/-- The bits of the double nearest to `head · 10^exponent` for a short `head`. -/
def nearestBits? (head : Nat) (exponent : Int) : Option UInt64 :=
  (nearestDecimal? false head (Nat.toDigits 10 head).length exponent).map Float.toBits

/-- The leading digits of a decimal numeral settle its value: whether the digits behind them are
    put down to zero or up to the next unit, the nearest double is the same, or both are beyond the
    largest one. -/
def Numeral.isSettled (n : Numeral) : Bool :=
  let behind := n.count - leadingDigits
  let unit := Nat.pow 10 behind
  let head := n.mantissa / unit
  let exponent := n.exponent - n.places + behind
  n.mantissa % unit == 0 || nearestBits? head exponent == nearestBits? (head + 1) exponent

/-- The value of a decimal numeral.  It is the nearest double, except for a numeral with more than
    `countedDigits` before the point, zeros in front left out, that its leading digits do not
    settle: there the point moves in front of those too many. -/
def Numeral.decimalValue? (negative : Bool) (n : Numeral) : Option Float :=
  let exponent := n.exponent - n.places
  let surplus := n.count - n.places - countedDigits
  nearestDecimal? negative n.mantissa n.count
    (if surplus = 0 || n.isSettled then exponent else exponent - surplus)

/-- The value of a numeral, or nothing when it is beyond the largest double. -/
def Numeral.value? (negative : Bool) (n : Numeral) : Option Float :=
  if n.hex then nearestBinary? negative n.mantissa (n.exponent - 4 * n.places)
  else n.decimalValue? negative

/-! ## §4. Number texts. -/

/-- The infinities and NaN, in any mixture of cases; NaN takes no sign. -/
def readSpecial (cs : List Char) : Option Float :=
  if cs.map lowerAscii = "nan".toList then some (Float.ofBits 0x7FF8000000000001)
  else
    let (negative, word) := splitSign cs
    let word := word.map lowerAscii
    if word = "inf".toList || word = "infinity".toList then
      some (Float.ofBits (if negative then 0xFFF0000000000000 else 0x7FF0000000000000))
    else none

/-- The number that a text denotes. -/
def read (cs : List Char) : Except Fault Float :=
  match readSpecial cs with
  | some x => .ok x
  | none =>
    let (negative, body) := splitSign cs
    match readNumeral body with
    | none => .error .malformed
    | some n =>
      match n.value? negative with
      | none => .error .outOfRange
      | some x => .ok x

/-! ## §5. Whole numbers. -/

/-- The natural number that the digits of `cs` write, as long as it fits sixty-four bits; the
    first character that breaks either rule decides. -/
def readNatural : Nat → List Char → Except Fault Nat
  | n, [] => .ok n
  | n, c :: cs =>
    if !isAsciiDigit c then .error .malformed
    else if Nat.pow 2 64 ≤ n * 10 + digitValue c then .error .outOfRange
    else readNatural (n * 10 + digitValue c) cs

/-- A whole number in base ten with an optional sign, in the range of sixty-four bit integers. -/
def readWhole (cs : List Char) : Except Fault Int :=
  let (negative, digits) := splitSign cs
  if digits.isEmpty then .error .malformed
  else match readNatural 0 digits with
    | .error f => .error f
    | .ok n =>
      if negative then if Nat.pow 2 63 < n then .error .outOfRange else .ok (-n)
      else if Nat.pow 2 63 ≤ n then .error .outOfRange else .ok n

end PrologMachine.Number
