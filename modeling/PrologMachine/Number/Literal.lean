/-
  PrologMachine.Number.Literal ── **WHOLE NUMBERS WITH A BASE, AND SPANS OF TIME.**

  Numbers on a command line are written like numbers in program text: `0b`, `0o` and `0x` announce
  the bases two, eight and sixteen, a leading zero alone means base eight, and underscores may
  separate digits or follow the announced base.  A span of time is a sum of amounts, each a
  decimal number and a unit, such as `1h30m` or `1.5s`.
-/
import PrologMachine.Number.Numeral

namespace PrologMachine.Number

open PrologMachine.Text (isAsciiDigit)

/-! ## §1. Whole numbers. -/

/-- The base that a letter behind a leading zero announces. -/
def baseOf? (letter : Char) : Option Nat :=
  match lowerAscii letter with
  | 'b' => some 2
  | 'o' => some 8
  | 'x' => some 16
  | _ => none

/-- The base of a literal without its sign, and its digits. -/
def splitLiteral : List Char → Nat × List Char
  | '0' :: letter :: c :: cs =>
    match baseOf? letter with
    | some base => (base, c :: cs)
    | none => (8, letter :: c :: cs)
  | '0' :: cs => (8, cs)
  | cs => (10, cs)

/-- The value of a digit or letter in bases up to thirty-six. -/
def literalDigit? (c : Char) : Option Nat :=
  if isAsciiDigit c then some (c.toNat - '0'.toNat)
  else if 'a' ≤ lowerAscii c && lowerAscii c ≤ 'z' then
    some ((lowerAscii c).toNat - 'a'.toNat + 10)
  else none

/-- The natural number that digits and underscores write in a base, as long as it fits sixty-four
    bits; the first character that breaks either rule decides. -/
def readDigits (base : Nat) : Nat → List Char → Except Fault Nat
  | n, [] => .ok n
  | n, '_' :: cs => readDigits base n cs
  | n, c :: cs =>
    match literalDigit? c with
    | none => .error .malformed
    | some d =>
      if base ≤ d then .error .malformed
      else if Nat.pow 2 64 ≤ n * base + d then .error .outOfRange
      else readDigits base (n * base + d) cs

/-- The underscores of a literal without its sign stand between digits; an announced base counts
    as one. -/
def literalUnderscores (cs : List Char) : Bool :=
  match cs with
  | '0' :: letter :: rest =>
    match baseOf? letter with
    | some base => underscoresSeparate (base == 16) .digit rest
    | none => underscoresSeparate false .other cs
  | _ => underscoresSeparate false .other cs

/-- The whole number that a literal with an optional sign denotes, in the range of sixty-four bit
    integers. -/
def readLiteral (cs : List Char) : Except Fault Int :=
  let (negative, body) := splitSign cs
  if body.isEmpty then .error .malformed
  else
    let (base, digits) := splitLiteral body
    match readDigits base 0 digits with
    | .error f => .error f
    | .ok n =>
      if digits.contains '_' && !literalUnderscores body then .error .malformed
      else if negative then if Nat.pow 2 63 < n then .error .outOfRange else .ok (-n)
      else if Nat.pow 2 63 ≤ n then .error .outOfRange else .ok n

/-! ## §2. Spans of time. -/

/-- The nanoseconds in a unit of time. -/
def unitNanos? (unit : List Char) : Option Nat :=
  match String.ofList unit with
  | "ns" => some 1
  | "us" => some 1000
  | "µs" => some 1000
  | "μs" => some 1000
  | "ms" => some 1000000
  | "s" => some 1000000000
  | "m" => some 60000000000
  | "h" => some 3600000000000
  | _ => none

/-- The amount at the start of `cs` in nanoseconds, and what follows its unit. -/
def readAmount (cs : List Char) : Option (Nat × List Char) :=
  let (whole, rest) := cs.span isAsciiDigit
  let (fraction, rest) := match rest with
    | '.' :: r => r.span isAsciiDigit
    | r => ([], r)
  if whole.isEmpty && fraction.isEmpty then none
  else
    let (unit, rest) := rest.span (fun c => c != '.' && !isAsciiDigit c)
    match unitNanos? unit with
    | none => none
    | some u =>
      some (ofDigits 10 whole * u + ofDigits 10 fraction * u / Nat.pow 10 fraction.length, rest)

/-- The sum of the amounts that make up `cs`, at most `n` of them. -/
def readAmounts : (n : Nat) → List Char → Option Nat
  | _, [] => some 0
  | 0, _ => none
  | n + 1, cs =>
    match readAmount cs with
    | none => none
    | some (a, rest) => (readAmounts n rest).map (a + ·)

/-- The span of time that a text with an optional sign denotes, in nanoseconds; it fits sixty-four
    bits. -/
def readDuration (cs : List Char) : Option Int :=
  let (negative, body) := splitSign cs
  if body = ['0'] then some 0
  else if body.isEmpty then none
  else match readAmounts body.length body with
    | none => none
    | some n =>
      if negative then if n ≤ Nat.pow 2 63 then some (-n) else none
      else if n < Nat.pow 2 63 then some n else none

end PrologMachine.Number
