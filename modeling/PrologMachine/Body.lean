/-
  PrologMachine.Body ── **CLAUSE BODIES AS TYPED TREES.**

  Before code is generated, a body is turned from a term into a tree of goals: conjunctions and
  disjunctions, the control atoms, calls, negations and arithmetic.  All that the compiler can
  object to in a body is found here, in reading order, so that code generation cannot fail.

  A negated call is negated in place.  A negated control construct or arithmetic goal becomes the
  body of an auxiliary clause over its named variables, and the call to that clause is negated;
  the auxiliaries of a compiler are numbered in the order in which their negations are met.
-/
import PrologMachine.Arithmetic
import PrologMachine.Code.Clause
import PrologMachine.Error

namespace PrologMachine

/-! ## §1. Arithmetic. -/

/-- An arithmetic expression or comparison. -/
inductive Expr where
  /-- A variable. -/
  | var (name : String)
  /-- A constant. -/
  | const (value : Atomic)
  /-- An operator on two operands; the flag says that its result is kept in a register. -/
  | apply (op : Operator) (keeps : Bool) (left right : Expr)
  deriving Inhabited

/-- The object to a compound that is no expression. -/
def notEvaluable (name : String) (arity : Nat) (pos : Int) : CompileError :=
  { fault := .notEvaluable ⟨name, arity⟩, position := pos }

mutual

/-- The expression that an operand stands for. -/
def Expr.ofTerm : Term → Except CompileError Expr
  | .var name _ => .ok (.var name)
  | .const a _ => .ok (.const a)
  | .app name args attrs pos =>
    if args.isEmpty then .ok (.const (.atom name))
    else if attrs.has .toEvaluate then Expr.ofApp name attrs pos args
    else .error (notEvaluable name args.length pos)
  | .absent => .error { fault := .missingOperand }

/-- The expression of an operator on its arguments; a single minus subtracts from zero. -/
def Expr.ofApp (name : String) (attrs : Attrs) (pos : Int) : List Term → Except CompileError Expr
  | [l, r] =>
    match Operator.ofName? name with
    | some op => do
      let left ← Expr.ofTerm l
      let right ← Expr.ofTerm r
      return .apply op (!attrs.has .boolean) left right
    | none => .error (notEvaluable name 2 pos)
  | [x] =>
    if name = "-" then do
      let right ← Expr.ofTerm x
      return .apply (.value .minus) (!attrs.has .boolean) (.const (.number 0)) right
    else .error (notEvaluable name 1 pos)
  | args => .error (notEvaluable name args.length pos)

end

/-- What an evaluation assigns to. -/
inductive Target where
  /-- A variable. -/
  | var (name : String)
  /-- A constant, which no evaluation can assign to. -/
  | const (value : Atomic)
  deriving Inhabited

/-- The target that a term stands for; a compound counts as the atom of its text. -/
def Target.ofTerm : Term → Target
  | .var name _ => .var name
  | .const a _ => .const a
  | t => .const (.atom t.text)

/-! ## §2. Goals. -/

/-- A goal that can be called. -/
structure Goal where
  /-- The functor. -/
  name : String
  /-- The arguments. -/
  args : List Term
  /-- The marks. -/
  attrs : Attrs
  /-- Where it stands. -/
  position : Int
  deriving Inhabited

/-- The name and the number of arguments of a goal. -/
def Goal.signature (g : Goal) : Signature := ⟨g.name, g.args.length⟩

/-- The goal that a term stands for; an atom is a goal without arguments. -/
def Goal.ofTerm : Term → Except CompileError Goal
  | .app name args attrs pos => .ok ⟨name, args, attrs, pos⟩
  | .const (.atom name) pos => .ok ⟨name, [], .none, pos⟩
  | .const a pos => .error { fault := .goalNotCallable, position := pos, token := a.name }
  | .var name _ => .error { fault := .goalVariable name }
  | .absent => .error { fault := .goalNotCallable }

/-- The goal is a control construct. -/
def Goal.isControl (g : Goal) : Bool :=
  match g.args.length with
  | 0 => ["!", "fail", "false", "true"].contains g.name
  | 1 => g.name == "not"
  | 2 => ["conj", "disj", "rule"].contains g.name
  | _ => false

mutual

/-- The named variables of a term that are not in `known`, in order of first occurrence, added to
    the end of `known`. -/
def Term.addVars (known : List Term) : Term → List Term
  | .var name id =>
    if isAnonymous name || known.any (fun | .var n _ => n == name | _ => false) then known
    else known ++ [.var name id]
  | .app _ args _ _ => Term.addAllVars known args
  | _ => known

/-- The same for every argument in turn. -/
def Term.addAllVars (known : List Term) : List Term → List Term
  | [] => known
  | t :: ts => Term.addAllVars (Term.addVars known t) ts

end

/-- The named variables of a term in order of first occurrence. -/
def Term.namedVars (t : Term) : List Term := t.addVars []

/-! ## §3. Bodies. -/

/-- A clause body. -/
inductive Body where
  /-- Both in turn. -/
  | conj (left right : Body)
  /-- The first, and as alternative the second. -/
  | disj (left right : Body)
  /-- Commit to the clause. -/
  | cut
  /-- Fail. -/
  | fail
  /-- Succeed. -/
  | succeed
  /-- Call a predicate. -/
  | call (goal : Goal)
  /-- Succeed if a call fails. -/
  | negatedCall (goal : Goal)
  /-- Succeed if a body fails; `head` is the head of the auxiliary clause for it. -/
  | negatedBody (head : Goal) (body : Body)
  /-- Evaluate an expression into a variable. -/
  | assign (target : Target) (value : Expr)
  /-- Evaluate an expression or comparison for its outcome. -/
  | evaluate (value : Expr)
  deriving Inhabited

/-- Turning terms into bodies: the state is the number of auxiliaries so far, which a failure
    does not take back. -/
abbrev Shaping := ExceptT CompileError (StateM Nat)

/-- The next auxiliary clause, with the variables of its body as arguments. -/
def nextAuxiliary (body : Term) (pos : Int) : Shaping Goal := do
  modify (· + 1)
  return ⟨auxiliaryName (← get), body.namedVars, .none, pos⟩

/-- The body of an arithmetic goal. -/
def Body.ofPrimitive (g : Goal) : Except CompileError Body :=
  match g.name, g.args with
  | "is", [target, value] => do
    let e ← Expr.ofTerm value
    return .assign (Target.ofTerm target) e
  | name, args => do
    let e ← Expr.ofApp name g.attrs g.position args
    return .evaluate e

/-- The body of a single goal that is no negation. -/
def Body.ofGoal (isQuery : Bool) (g : Goal) : Except CompileError Body :=
  if g.name = "rule" && g.args.length = 2 then
    .error { fault := if isQuery then .ruleInQuestion else .ruleInBody, position := g.position }
  else if g.name = "!" && g.args.isEmpty then .ok .cut
  else if (g.name = "fail" || g.name = "false") && g.args.isEmpty then .ok .fail
  else if g.name = "true" && g.args.isEmpty then .ok .succeed
  else if g.attrs.has .primitive then Body.ofPrimitive g
  else .ok (.call g)

/-- The body that a term stands for, in a query or in a clause. -/
def Body.ofTerm : (isQuery : Bool) → Term → Shaping Body
  | isQuery, .app "conj" [l, r] _ _ => do
    let left ← Body.ofTerm isQuery l
    let right ← Body.ofTerm isQuery r
    return .conj left right
  | isQuery, .app "disj" [l, r] _ _ => do
    let left ← Body.ofTerm isQuery l
    let right ← Body.ofTerm isQuery r
    return .disj left right
  | _, .app "not" [t] _ _ => do
    let inner ← ExceptT.mk (pure (Goal.ofTerm t))
    if inner.isControl || inner.attrs.has .primitive then
      let head ← nextAuxiliary t inner.position
      let body ← Body.ofTerm false t
      return .negatedBody head body
    else return .negatedCall inner
  | isQuery, t => do
    let goal ← ExceptT.mk (pure (Goal.ofTerm t))
    ExceptT.mk (pure (Body.ofGoal isQuery goal))

end PrologMachine
