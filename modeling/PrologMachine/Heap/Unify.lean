/-
  PrologMachine.Heap.Unify ── **UNIFICATION AND COMPARISON.**

  Unification binds variables so that two terms become equal.  There is no occurs check, so terms
  are rational trees.  To end on cyclic terms, pairs of structures that are met deeper than
  `cycleDepth` are remembered, and a pair met again counts as equal.

    * `Heap.unify` reports the variables it binds, newest first, also when it fails; taking the
      bindings back is left to the caller's trail.
    * `Heap.identical` compares without binding.

  Both walks nest at most `Heap.walkBound` calls: below `cycleDepth` one per level, and deeper one
  per new pair of structures.
-/
import PrologMachine.Heap.Basic

namespace PrologMachine

/-- The nesting depth from which on pairs of structures are remembered. -/
def cycleDepth : Nat := 64

/-- The pairs of structures entered so far at depth `cycleDepth` or more. -/
abbrev SeenPairs := List (StructId × StructId)

/-- Enter a pair of structures; nothing when it was entered before. -/
def SeenPairs.enter? (seen : SeenPairs) (depth : Nat) (a b : StructId) : Option SeenPairs :=
  if depth < cycleDepth then some seen
  else if seen.contains (a, b) then none
  else some ((a, b) :: seen)

/-- The state of a unification. -/
structure Unifier where
  /-- The cells with the bindings made so far. -/
  heap : Heap
  /-- The variables bound so far, newest first. -/
  bound : List VarId
  /-- The remembered pairs. -/
  seen : SeenPairs

namespace Unifier

/-- Bind a variable and report it.  A variable on a chain that closes on itself is left alone. -/
def bind (u : Unifier) (v : VarId) (t : Value) : Bool × Unifier :=
  if u.heap.isBound v then (true, u)
  else (true, { u with heap := u.heap.set v t, bound := v :: u.bound })

/-- Run `f` on the arguments pair by pair, up to the first failure. -/
def pairwise (f : Value → Value → Unifier → Bool × Unifier) :
    List Value → List Value → Unifier → Bool × Unifier
  | a :: as, b :: bs, u =>
    match f a b u with
    | (true, u) => pairwise f as bs u
    | (false, u) => (false, u)
  | _, _, u => (true, u)

/-- Unify two values at a depth, nesting at most `n` calls. -/
def unify : (n depth : Nat) → Value → Value → Unifier → Bool × Unifier
  | 0, _, _, _, u => (false, u)
  | n + 1, depth, t₁, t₂, u =>
    if t₁.same t₂ then (true, u)
    else
      let a := u.heap.deref t₁
      let b := u.heap.deref t₂
      if a.same b then (true, u)
      else match a, b with
        | .var v, t => u.bind v t
        | t, .var v => u.bind v t
        | .struct x, .struct y =>
          let cx := u.heap.structCell x
          let cy := u.heap.structCell y
          if cx.name ≠ cy.name || cx.args.length ≠ cy.args.length then (false, u)
          else match u.seen.enter? depth x y with
            | none => (true, u)
            | some seen =>
              pairwise (unify n (depth + 1)) cx.args cy.args { u with seen }
        | .struct x, .const c =>
          ((u.heap.structCell x).args.isEmpty && c.isAtom (u.heap.structCell x).name, u)
        | .const c, .struct x =>
          ((u.heap.structCell x).args.isEmpty && c.isAtom (u.heap.structCell x).name, u)
        | .const c, .const d => (c.equal d, u)
        | _, _ => (false, u)

end Unifier

namespace Heap

/-- How deep a walk over two terms can nest. -/
def walkBound (h : Heap) : Nat := cycleDepth + h.structs.size * h.structs.size + 2

/-- Unify two values. -/
def unify (h : Heap) (a b : Value) : Bool × Unifier :=
  Unifier.unify h.walkBound 0 a b ⟨h, [], []⟩

/-- Unify two values, and take the bindings back newest first. -/
def unifiable (h : Heap) (a b : Value) : Bool × Heap :=
  let (ok, u) := h.unify a b
  (ok, u.heap.resetAll u.bound)

/-- Compare arguments pair by pair with `f`, up to the first difference. -/
def allPairs (f : Value → Value → SeenPairs → Bool × SeenPairs) :
    List Value → List Value → SeenPairs → Bool × SeenPairs
  | a :: as, b :: bs, seen =>
    match f a b seen with
    | (true, seen) => allPairs f as bs seen
    | (false, seen) => (false, seen)
  | _, _, seen => (true, seen)

/-- Compare two values at a depth, nesting at most `n` calls. -/
def compare (h : Heap) : (n depth : Nat) → Value → Value → SeenPairs → Bool × SeenPairs
  | 0, _, _, _, seen => (false, seen)
  | n + 1, depth, t₁, t₂, seen =>
    let a := h.deref t₁
    let b := h.deref t₂
    if a.same b then (true, seen)
    else match a, b with
      | .const c, .const d => (c.equal d, seen)
      | .struct x, .struct y =>
        let cx := h.structCell x
        let cy := h.structCell y
        if cx.name ≠ cy.name || cx.args.length ≠ cy.args.length then (false, seen)
        else match SeenPairs.enter? seen depth x y with
          | none => (true, seen)
          | some seen => allPairs (compare h n (depth + 1)) cx.args cy.args seen
      | _, _ => (false, seen)

/-- The two values are the same term: unbound variables are the same only as cells. -/
def identical (h : Heap) (a b : Value) : Bool := (h.compare h.walkBound 0 a b []).1

end Heap

end PrologMachine
