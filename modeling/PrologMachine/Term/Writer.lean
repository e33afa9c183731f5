/-
  PrologMachine.Term.Writer ── **TERMS AS TEXT.**

  Terms are written in canonical form: `f(a,b)` whatever the operators, lists in brackets, atoms
  between single quotes when they could not be read back bare, anonymous variables as `_`.
-/
import PrologMachine.Term.Basic
import PrologMachine.Text.Letters

namespace PrologMachine

/-! ## §1. Atoms. -/

/-- The characters that form symbolic atoms such as `=..`. -/
def isSymbolChar (c : Char) : Bool :=
  "+-*/\\^<>=~:.?@#&$".toList.contains c

/-- The atom cannot be read back bare. -/
def needsQuotes (name : List Char) : Bool :=
  if name = [] then true
  else if name = "[]".toList || name = ['!'] || name = [';'] || name = ['\x7b', '\x7d'] then false
  else if name = [','] || name = ['|'] then true
  else match name with
    | [] => true
    | c :: _ =>
      if Text.isLower c then !name.all (fun r => Text.isLetter r || Text.isDigit r || r == '_')
      else !name.all isSymbolChar

/-- A single quote inside quotes gets a backslash. -/
def escapeQuote (c : Char) : List Char := if c = '\'' then ['\\', '\''] else [c]

/-- The written form of an atom. -/
def atomChars (name : List Char) : List Char :=
  if needsQuotes name then '\'' :: name.flatMap escapeQuote ++ ['\''] else name

/-- The written form of a constant. -/
def Atomic.chars : Atomic → List Char
  | .nil => ['[', ']']
  | .number x => (Number.text x).toList
  | .atom s => atomChars s.toList

/-- The written form of a constant. -/
def Atomic.text (a : Atomic) : String := String.ofList a.chars

/-- The written form of an unbound variable: its number at run time, else its name. -/
def varChars (name : String) (id : Int) : List Char :=
  if 0 < id then '_' :: 'G' :: Nat.toDigits 10 id.toNat
  else if isAnonymous name then ['_']
  else name.toList

/-- What stands for a missing term. -/
def absentChars : List Char := "<nil>".toList

/-! ## §2. Trees. -/

mutual

/-- The written form of a term. -/
def Term.chars : Term → List Char
  | .var name id => varChars name id
  | .const a _ => a.chars
  | .absent => absentChars
  | .app "cons" [h, t] _ _ => '[' :: h.chars ++ Term.tailChars t ++ [']']
  | .app name [] _ _ => atomChars name.toList
  | .app name (a :: as) _ _ =>
    atomChars name.toList ++ '(' :: a.chars ++ Term.restChars as ++ [')']

/-- What follows the first element inside the brackets of a list. -/
def Term.tailChars : Term → List Char
  | .const .nil _ => []
  | .app "cons" [h, t] _ _ => ',' :: h.chars ++ Term.tailChars t
  | .app name [] _ _ => '|' :: atomChars name.toList
  | .app name (a :: as) _ _ =>
    '|' :: atomChars name.toList ++ '(' :: a.chars ++ Term.restChars as ++ [')']
  | .var name id => '|' :: varChars name id
  | .const a _ => '|' :: a.chars
  | .absent => '|' :: absentChars

/-- The arguments after the first, each behind its comma. -/
def Term.restChars : List Term → List Char
  | [] => []
  | a :: as => ',' :: a.chars ++ Term.restChars as

end

/-- The written form of a term. -/
def Term.text (t : Term) : String := String.ofList t.chars

end PrologMachine
