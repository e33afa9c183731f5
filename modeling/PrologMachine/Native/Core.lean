/-
  PrologMachine.Native.Core ── **THE STANDARD NATIVE PREDICATES.**

  Unification and comparison, the type tests, and output.
-/
import PrologMachine.Native.Basic

namespace PrologMachine

/-! ## §1. Type tests. -/

/-- An unbound variable. -/
def Value.isVar : Value → Bool
  | .var _ => true
  | _ => false

/-- A constant that is no number, or a structure without arguments. -/
def Heap.isAtom (h : Heap) : Value → Bool
  | .const ⟨.number _, _⟩ => false
  | .const _ => true
  | .struct s => (h.structCell s).args.isEmpty
  | _ => false

/-- A number. -/
def Value.isNumber : Value → Bool
  | .const ⟨.number _, _⟩ => true
  | _ => false

/-- A structure with arguments. -/
def Heap.isCompound (h : Heap) : Value → Bool
  | .struct s => !(h.structCell s).args.isEmpty
  | _ => false

/-- The native predicate that tests what its argument stands for. -/
def typeTest (p : Heap → Value → Bool) : List Value → Native
  | [t] => .look (fun h => .done (p h (h.deref t)))
  | _ => .done false

/-! ## §2. Unification and comparison. -/

/-- Unify two terms. -/
def unifyNative : List Value → Native
  | [a, b] => .unify a b .done
  | _ => .done false

/-- The two terms do not unify. -/
def notUnifiableNative : List Value → Native
  | [a, b] => .look (fun h => .done (!(h.unifiable a b).1))
  | _ => .done false

/-- The two terms are the same. -/
def identicalNative : List Value → Native
  | [a, b] => .look (fun h => .done (h.identical a b))
  | _ => .done false

/-- The two terms are not the same. -/
def notIdenticalNative : List Value → Native
  | [a, b] => .look (fun h => .done (!h.identical a b))
  | _ => .done false

/-! ## §3. Output. -/

/-- Write text and succeed; give up when the output complains. -/
def writeText (text : String) : Native :=
  .write text (fun
    | some complaint => .raise complaint
    | none => .done true)

/-- How a term is written out: an atom bare, everything else as usual. -/
def Heap.plainText (h : Heap) (t : Value) : String :=
  match h.deref t with
  | .const ⟨.atom name, _⟩ => name
  | _ => h.text t

/-- Write a term. -/
def writeNative : List Value → Native
  | [t] => .look (fun h => writeText (h.plainText t))
  | _ => .done false

/-- Write a line break. -/
def newlineNative : List Value → Native
  | [] => writeText "\n"
  | _ => .done false

/-! ## §4. The registry. -/

/-- The standard native predicates. -/
def coreBuiltins : List Builtin :=
  [⟨"unif", 2, some unifyNative⟩,
    ⟨"not_unif", 2, some notUnifiableNative⟩,
    ⟨"equal", 2, some identicalNative⟩,
    ⟨"not_equal", 2, some notIdenticalNative⟩,
    ⟨"var", 1, some (typeTest (fun _ t => t.isVar))⟩,
    ⟨"nonvar", 1, some (typeTest (fun _ t => !t.isVar))⟩,
    ⟨"atom", 1, some (typeTest Heap.isAtom)⟩,
    ⟨"number", 1, some (typeTest (fun _ t => t.isNumber))⟩,
    ⟨"atomic", 1, some (typeTest (fun h t => h.isAtom t || t.isNumber))⟩,
    ⟨"compound", 1, some (typeTest Heap.isCompound)⟩,
    ⟨"write", 1, some writeNative⟩,
    ⟨"nl", 0, some newlineNative⟩]

/-- The registry of the standard native predicates. -/
def Registry.core : Registry := ⟨coreBuiltins⟩

end PrologMachine
