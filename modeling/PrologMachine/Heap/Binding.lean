/-
  PrologMachine.Heap.Binding ── **CHECKED BINDINGS.**

  Within a search a variable is bound at most once before it is unbound again.  Binding and
  unbinding by hand check this: the refusals name the variable and the value it has.
-/
import PrologMachine.Error
import PrologMachine.Heap.Writer

namespace PrologMachine

namespace Heap

/-- What is wrong with binding a variable to a term: only an unbound variable can be bound, and
    only to a term other than itself. -/
def bindFault? (h : Heap) (v : VarId) (t : Value) : Option RunError :=
  match h.binding? v, t with
  | some old, _ => some (.alreadyBound (h.varCell v).name (h.text old))
  | none, .absent => some (.bindToAbsent (h.varCell v).name)
  | none, .var w => if w = v then some (.bindToItself (h.varCell v).name) else none
  | none, _ => none

/-- Bind a variable to a term, unless something is wrong with it. -/
def bind? (h : Heap) (v : VarId) (t : Value) : Except RunError Heap :=
  match h.bindFault? v t with
  | some e => .error e
  | none => .ok (h.set v t)

/-- Unbind a bound variable. -/
def unbind? (h : Heap) (v : VarId) : Except RunError Heap :=
  if h.isBound v then .ok (h.reset v) else .error (.notBound (h.varCell v).name)

end Heap

end PrologMachine
