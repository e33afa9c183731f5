/-
  PrologMachine.Signature ── **PREDICATE INDICATORS.**

  A predicate is known by its name and its number of arguments, written `name/arity`.
-/

namespace PrologMachine

/-- The name and the number of arguments of a predicate. -/
structure Signature where
  /-- The functor name. -/
  name : String
  /-- The number of arguments; negative only in requests that are then refused. -/
  arity : Int
  deriving DecidableEq, Repr, Inhabited

/-- The decimal text of a whole number. -/
def wholeText (n : Int) : String :=
  match n with
  | .ofNat k => String.ofList (Nat.toDigits 10 k)
  | .negSucc k => String.ofList ('-' :: Nat.toDigits 10 (k + 1))

/-- The written form `name/arity`. -/
def Signature.text (s : Signature) : String := s.name ++ "/" ++ wholeText s.arity

/-- The order of predicate listings: by written form. -/
def Signature.textLe (a b : Signature) : Bool := decide (a.text ≤ b.text)

end PrologMachine
