/-
  PrologMachine.Compiler ── **TERMS TO CLAUSES.**

  A compiler turns a fact, a rule or a question into a clause.  It numbers the auxiliary clauses
  and the constants it emits, so that none of them is ever mistaken for another.

    * `Compiler.clause` compiles a fact or rule, `Compiler.query` a question.
    * A refused term leaves the numbers of the auxiliaries it had begun used up.
-/
import PrologMachine.Code.Fragment

namespace PrologMachine

/-- The state of a compiler. -/
structure Compiler where
  /-- Tells the constants of this compiler from those of others. -/
  id : Nat := 0
  /-- The predicates that native code answers. -/
  natives : List Signature := []
  /-- How many auxiliary clauses were begun. -/
  auxiliaries : Nat := 0
  /-- How many constants were emitted. -/
  constants : Nat := 0
  deriving Inhabited

/-- The head of a clause: name and arguments. -/
def headOf : Term → Except CompileError (String × List Term)
  | .app name args _ pos =>
    if (name = "conj" || name = "disj") && args.length = 2 then
      .error { fault := .controlAsHead name, position := pos }
    else .ok (name, args)
  | .const (.atom name) _ => .ok (name, [])
  | .const a pos => .error { fault := .headNotFunctor, position := pos, token := a.name }
  | .var name _ => .error { fault := .headVariable name }
  | .absent => .error { fault := .headNotFunctor }

/-- A clause split into head and body; a rule with a missing body is a fact. -/
def splitClause : Term → Except CompileError (Term × Option Term)
  | .app "rule" [head, .absent] _ _ => .ok (head, none)
  | .app "rule" [head, body] _ _ => .ok (head, some body)
  | .app "query" [_] _ pos => .error { fault := .questionAsClause, position := pos }
  | t => .ok (t, none)

/-- The goal inside a written question. -/
def questionGoal : Term → Term
  | .app "query" [t] _ _ => t
  | t => t

namespace Compiler

/-- Turn a term into a body, counting the auxiliaries. -/
def body (c : Compiler) (isQuery : Bool) (t : Term) : Except CompileError Body × Compiler :=
  let (r, n) := (Body.ofTerm isQuery t).run.run c.auxiliaries
  (r, { c with auxiliaries := n })

/-- What the code of a clause depends on. -/
def unitInfo (c : Compiler) (isQuery : Bool) : UnitInfo := ⟨isQuery, fun s => c.natives.contains s⟩

/-- Run an emitter for one clause. -/
def emit {α : Type} (c : Compiler) (code : Emit α) : α × Emitter :=
  code.run { compiler := c.id, constants := c.constants }

/-- Compile a fact or a rule. -/
def clause (c : Compiler) (t : Term) : Except CompileError Clause × Compiler :=
  match splitClause t with
  | .error e => (.error e, c)
  | .ok (head, rule) =>
    match headOf head with
    | .error e => (.error e, c)
    | .ok (name, args) =>
      let finish (c : Compiler) (code : Option (Emit Fragment)) :=
        let (clause, e) := c.emit (clauseOf name args code)
        (.ok clause, { c with constants := e.constants })
      match rule with
      | none => finish c none
      | some t =>
        match c.body false t with
        | (.error e, c) => (.error e, c)
        | (.ok b, c) => finish c (some (b.fragment (c.unitInfo false) true))

/-- Compile a question, written with or without its operator. -/
def query (c : Compiler) (t : Term) : Except CompileError Clause × Compiler :=
  match questionGoal t with
  | .app "rule" [_, _] _ pos => (.error { fault := .ruleInQuestion, position := pos }, c)
  | goal =>
    match c.body true goal with
    | (.error e, c) => (.error e, c)
    | (.ok b, c) =>
      let (f, e) := c.emit (b.fragment (c.unitInfo true) true)
      (.ok ⟨querySignature, f.blocks, false, e.auxiliaries⟩, { c with constants := e.constants })

end Compiler

end PrologMachine
