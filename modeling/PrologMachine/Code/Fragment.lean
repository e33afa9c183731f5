/-
  PrologMachine.Code.Fragment ── **LINKING BLOCKS INTO BODIES.**

  A body is compiled to a fragment: labelled blocks, the label where it is entered, and the blocks
  through which control leaves it.  A conjunction runs its right part behind every exit of the
  left: a single block behind a single exit is joined to it, otherwise each exit jumps.  A
  disjunction records the entry of the right part as alternative when the left is entered.
-/
import PrologMachine.Code.Build
import PrologMachine.Code.Decode

namespace PrologMachine

/-- A block through which control leaves a fragment. -/
structure Exit where
  /-- The label of the block. -/
  label : String
  /-- The block ends in code that handles its own failure. -/
  primitive : Bool
  deriving DecidableEq, Repr

/-- The code of a body. -/
structure Fragment where
  /-- Where it is entered. -/
  entry : String
  /-- Its blocks in order of their leaf goals. -/
  blocks : List Block
  /-- How control leaves it. -/
  exits : List Exit

namespace Fragment

/-- Change the block with a label. -/
def changeBlock (label : String) (f : Code → Code) (blocks : List Block) : List Block :=
  blocks.map (fun b => if b.1 = label then (b.1, f b.2) else b)

/-- Code without the return or the end of query behind it. -/
def stripTail (code : Code) : Code :=
  match code.getLast? with
  | some i => if i.op = .proceed || i.op = .end_ then code.dropLast else code
  | none => code

/-- Open an exit: what follows it comes behind its code, after a check of the last call. -/
def continueWith (e : Exit) (next : Code) (code : Code) : Code :=
  stripTail code ++ (if e.primitive then [] else [{ op := .maybeFail }]) ++ next

/-- Let every exit jump to a label. -/
def jumpFrom (label : String) (exits : List Exit) (blocks : List Block) : List Block :=
  exits.foldl (fun bs e => changeBlock e.label (continueWith e [{ op := .jump, label }]) bs) blocks

/-- First `left`, then `right`. -/
def conj (left right : Fragment) : Fragment :=
  match left.exits, right.blocks with
  | [e], [(_, code)] =>
    { entry := left.entry
      blocks := changeBlock e.label (continueWith e code) left.blocks
      exits := right.exits.map (fun x => { x with label := e.label }) }
  | exits, blocks =>
    { entry := left.entry
      blocks := jumpFrom right.entry exits left.blocks ++ blocks
      exits := right.exits }

/-- `left`, with `right` as alternative; the outermost disjunction also marks where its last
    alternative starts. -/
def disj (outermost : Bool) (left right : Fragment) : Fragment :=
  let mark : Code → Code := fun code => if outermost then { op := .tryFinally } :: code else code
  { entry := left.entry
    blocks :=
      changeBlock left.entry (fun code => { op := .tryElse, label := right.entry } :: code)
        left.blocks ++
      changeBlock right.entry mark right.blocks
    exits := left.exits ++ right.exits }

/-- A single goal. -/
def leaf (label : String) (code : Code) (primitive : Bool) : Fragment :=
  { entry := label, blocks := [(label, code)], exits := [⟨label, primitive⟩] }

end Fragment

/-! ## Bodies to fragments. -/

open Emit

/-- What the code of a clause depends on. -/
structure UnitInfo where
  /-- The clause is a query. -/
  isQuery : Bool
  /-- The predicates that native code answers. -/
  isNative : Signature → Bool

/-- The instruction that ends a body. -/
def UnitInfo.tail (u : UnitInfo) : Instruction := { op := if u.isQuery then .end_ else .proceed }

/-- Emit an auxiliary clause with an emitter of its own, and put it with the others. -/
def withAuxiliary (emit : Emit Clause) : Emit Unit := do
  let outer ← get
  let (clause, inner) := emit.run { compiler := outer.compiler, constants := outer.constants }
  set { outer with
    constants := inner.constants, auxiliaries := outer.auxiliaries ++ [clause] }

/-- The clause of a head and, for a rule, the fragment of its body. -/
def clauseOf (name : String) (args : List Term) (body : Option (Emit Fragment)) : Emit Clause := do
  let head ← decodeHead name args body.isSome
  let blocks ← match body with
    | some emit => do
      let f ← emit
      pure f.blocks
    | none => pure []
  return ⟨⟨name, args.length⟩, (headLabel, head) :: blocks, false, (← get).auxiliaries⟩

/-- The fragment of a body.  `outermost` is set outside of all disjunctions. -/
def Body.fragment : (b : Body) → (u : UnitInfo) → (outermost : Bool) → Emit Fragment
  | .conj l r, u, outermost => do
    let left ← l.fragment u outermost
    let right ← r.fragment u outermost
    return Fragment.conj left right
  | .disj l r, u, outermost => do
    let left ← l.fragment u false
    let right ← r.fragment u false
    return Fragment.disj outermost left right
  | .cut, u, _ => do return .leaf (← newLeaf) [{ op := .cut }, u.tail] true
  | .fail, _, _ => do return .leaf (← newLeaf) [{ op := .fail }] true
  | .succeed, u, _ => do return .leaf (← newLeaf) [u.tail] true
  | .call g, u, _ => do
    let label ← newLeaf
    return .leaf label ((← callGoal u.isNative g false) ++ [u.tail]) false
  | .negatedCall g, u, _ => do
    let label ← newLeaf
    return .leaf label ((← callGoal u.isNative g true) ++ [u.tail]) false
  | .negatedBody head body, u, _ => do
    let label ← newLeaf
    withAuxiliary
      (clauseOf head.name head.args (some (body.fragment { u with isQuery := false } true)))
    return .leaf label ((← callGoal u.isNative head true) ++ [u.tail]) false
  | .assign target value, u, _ => do
    let label ← newLeaf
    return .leaf label ((← assignCode target value) ++ [u.tail]) true
  | .evaluate value, u, _ => do
    let label ← newLeaf
    let (code, _) ← evalOperand value
    return .leaf label (code ++ [u.tail]) true

end PrologMachine
