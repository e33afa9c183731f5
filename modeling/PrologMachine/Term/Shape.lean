/-
  PrologMachine.Term.Shape ── **FROM WRITTEN OPERATORS TO INTERNAL NAMES.**

  The compiler knows control constructs and operators by internal names.  Shaping renames every
  compound that has a written symbol for one, at any depth, and sets the marks that go with it:
  `a :- b` becomes `rule(a,b)`, `X = Y` the native goal `unif(X,Y)`, `1 + 2` an expression.
-/
import PrologMachine.Term.Basic

namespace PrologMachine

/-- The marks of an arithmetic operator. -/
def arithmeticAttrs : Attrs := Attrs.primitive.union .toEvaluate

/-- The marks of a comparison. -/
def comparisonAttrs : Attrs := Attrs.primitive.union .boolean

/-- The internal name of the compound written `name/arity`, and the marks that go with it. -/
def internalForm (name : String) (arity : Nat) : Option (String × Attrs) :=
  match arity with
  | 1 =>
    if name = "?-" then some ("query", .none)
    else if name = ":-" then some ("query", .none)
    else if name = "\\+" then some ("not", .none)
    else if name = "not" then some ("not", .none)
    else if name = "-" then some ("-", arithmeticAttrs)
    else none
  | 2 =>
    if name = ":-" then some ("rule", .none)
    else if name = ";" then some ("disj", .none)
    else if name = "," then some ("conj", .none)
    else if name = "=" then some ("unif", .builtin)
    else if name = "\\=" then some ("not_unif", .builtin)
    else if name = "==" then some ("equal", .builtin)
    else if name = "\\==" then some ("not_equal", .builtin)
    else if name = "is" then some ("is", .primitive)
    else if ["<", ">", "=<", ">=", "=:=", "=\\="].contains name then some (name, comparisonAttrs)
    else if ["+", "-", "*", "/", "//", "mod"].contains name then some (name, arithmeticAttrs)
    else none
  | _ => none

mutual

/-- The term with internal names and marks, at any depth. -/
def Term.shape : Term → Term
  | .app name args attrs pos =>
    let args' := Term.shapes args
    match internalForm name args.length with
    | some (internal, marks) => .app internal args' (attrs.union marks) pos
    | none => .app name args' attrs pos
  | t => t

/-- Every argument shaped. -/
def Term.shapes : List Term → List Term
  | [] => []
  | t :: ts => t.shape :: Term.shapes ts

end

end PrologMachine
