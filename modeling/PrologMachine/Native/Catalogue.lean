/-
  PrologMachine.Native.Catalogue ── **FURTHER NATIVE PREDICATES, BY KEY.**

  Native predicates that a session can be opened with besides the standard ones.  They show each
  kind of effect: a test, a result, bindings followed by failure, an error, logging with output.
-/
import PrologMachine.Native.Core

namespace PrologMachine

/-- The argument is a number whose truncation to a whole number is even. -/
def evenNative : List Value → Native
  | [t] => .look (fun h =>
      match h.number? t with
      | some x => .done (Number.truncatesToEven x)
      | none => .done false)
  | _ => .done false

/-- The second argument is twice the first. -/
def doubleNative : List Value → Native
  | [a, b] => .look (fun h =>
      match h.number? a with
      | some x => .constant (.number (2 * x)) (fun c => .unify b (.const c) .done)
      | none => .done false)
  | _ => .done false

/-- Bind the argument, then fail. -/
def spoilNative : List Value → Native
  | [t] => .constant (.atom "spoiled") (fun c => .unify t (.const c) (fun _ => .done false))
  | _ => .done false

/-- Give up, naming the argument. -/
def boomNative : List Value → Native
  | [t] => .look (fun h => .raise ("boom " ++ h.text t))
  | _ => .done false

/-- Log the first argument and write the second between angle brackets; give up when the output
    complains. -/
def sayNative : List Value → Native
  | [a, b] => .look (fun h =>
      .log ⟨.info, "say", [("a", h.text a)]⟩
        (writeText ("<" ++ h.text b ++ ">")))
  | _ => .done false

/-- The definition under a key. -/
def catalogue? (key : String) : Option Builtin :=
  match key with
  | "even" => some ⟨"even", 1, some evenNative⟩
  | "double" => some ⟨"double", 2, some doubleNative⟩
  | "spoil" => some ⟨"spoil", 1, some spoilNative⟩
  | "boom" => some ⟨"boom", 1, some boomNative⟩
  | "say" => some ⟨"say", 2, some sayNative⟩
  | _ => none

end PrologMachine
