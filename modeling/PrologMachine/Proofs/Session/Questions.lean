/-
  PrologMachine.Proofs.Session.Questions ── **A QUESTION THAT IS ONE GOAL.**

  A question that calls a predicate is compiled to the code of the call and the end of the question,
  whatever compiler does it.  A session that reads such a question begins a search with that code,
  also when it finds the code in a cache.

    * `Clause.AsksFor`: the clause of a question that is one goal.
    * `Compiler.query_call`: it is what a compiler makes.
    * `Session.query_call`: it is what a session searches for.
-/
import PrologMachine.Proofs.Goal.Calling
import PrologMachine.Proofs.Session.Builtins

namespace PrologMachine

open Emit Machine

/-! ## §1. The clause of a question. -/

/-- The clause is the question whether the goal holds. -/
structure Clause.AsksFor (g : Goal) (q : Clause) : Prop where
  /-- It is a question. -/
  signature : q.signature = querySignature
  /-- It has no head. -/
  headless : q.block? headLabel = none
  /-- No goal is negated. -/
  plain : q.auxiliaries = []
  /-- The goal is called, and that is all. -/
  body : ∃ e op, (op = .call ∨ op = .bcall) ∧ e.seen = [] ∧
    q.block? bodyLabel = some (callCode g e op ++ [{ op := .end_ }])

namespace Compiler

/-- A goal with three arguments is a call. -/
theorem body_call (c : Compiler) (isQuery : Bool) (name : String) (t₁ t₂ t₃ : Term) (pos : Int) :
    c.body isQuery (.app name [t₁, t₂, t₃] .none pos) =
      (.ok (.call ⟨name, [t₁, t₂, t₃], .none, pos⟩), c) := by
  simp [body, Body.ofTerm, Goal.ofTerm, Body.ofGoal, Attrs.has, Attrs.none, Attrs.primitive]
  rfl

/-- The label of a body that is one goal. -/
theorem leafLabel_zero : leafLabel 0 = bodyLabel := by decide

/-- **A question with one goal.** -/
theorem query_call (c : Compiler) (name : String) (t₁ t₂ t₃ : Term) (pos : Int) :
    ∃ q c', c.query (.app name [t₁, t₂, t₃] .none pos) = (.ok q, c') ∧
      q.AsksFor ⟨name, [t₁, t₂, t₃], .none, pos⟩ := by
  let g : Goal := ⟨name, [t₁, t₂, t₃], .none, pos⟩
  obtain ⟨op, hop, hcode, hplain⟩ := eval_fragment_call g (c.unitInfo true) true
    { compiler := c.id, constants := c.constants }
  have hblocks : (c.emit ((Body.call g).fragment (c.unitInfo true) true)).1.blocks =
      [(bodyLabel, callCode g { compiler := c.id, constants := c.constants, leaves := 1 } op ++
        [{ op := .end_ }])] := by
    rw [← leafLabel_zero]
    exact congrArg Fragment.blocks hcode
  refine ⟨_, _, by simp only [query, questionGoal, body_call]; rfl, rfl, ?_, hplain,
    { compiler := c.id, constants := c.constants, leaves := 1 }, op, hop, rfl, ?_⟩
  · rw [hblocks]
    rfl
  · rw [hblocks]
    rfl

/-- **A rule with one goal.** -/
theorem clause_call (c : Compiler) {name goal : String} {args : List Term} {t₁ t₂ t₃ : Term}
    {a a' : Attrs} {p p' pos : Int} {head : Code} {e : Emitter}
    (hname : headOf (.app name args a p) = .ok (name, args))
    (hhead : (decodeHead name args true).eval { compiler := c.id, constants := c.constants } =
      (head, e)) :
    ∃ e' op, (op = .call ∨ op = .bcall) ∧ e'.seen = e.seen ∧
      (c.clause (.app "rule" [.app name args a p, .app goal [t₁, t₂, t₃] .none pos] a' p')).1 =
        .ok ⟨⟨name, args.length⟩, [(headLabel, head), (bodyLabel,
          callCode ⟨goal, [t₁, t₂, t₃], .none, pos⟩ e' op ++ [{ op := .proceed }])], false, []⟩ := by
  obtain ⟨hleaves, hnone⟩ := Emit.Local.decodeHead name args true
    { compiler := c.id, constants := c.constants }
  rw [hhead] at hleaves hnone
  have hnone' : e.auxiliaries = [] := hnone
  let g : Goal := ⟨goal, [t₁, t₂, t₃], .none, pos⟩
  -- The goal is a single leaf, and it makes no auxiliary.
  obtain ⟨op, hop, hcode, hplain⟩ := eval_fragment_call g (c.unitInfo false) true e
  rw [show leafLabel e.leaves = bodyLabel from
    (congrArg leafLabel hleaves).trans leafLabel_zero] at hcode
  refine ⟨{ e with leaves := e.leaves + 1 }, op, hop, rfl, ?_⟩
  -- The code of the clause is that of its head and of its one goal.
  have hemit : (c.emit (clauseOf name args
      (some ((Body.call g).fragment (c.unitInfo false) true)))).1 =
        ⟨⟨name, args.length⟩, [(headLabel, head), (bodyLabel,
          callCode g { e with leaves := e.leaves + 1 } op ++ [{ op := .proceed }])], false, []⟩ := by
    show (Emit.eval _ _).1 = _
    simp only [clauseOf, Option.isSome_some, eval_bind, eval_pure, eval_get, hhead, hcode, hplain,
      hnone']
    rfl
  simp only [clause, splitClause, hname, body_call]
  exact congrArg Except.ok hemit

end Compiler

namespace Session

variable {s s' : Session} {g : Goal} {q : Clause} {t : Term} {text source : String}

/-! ## §2. The search for its answers. -/

/-- The search for the answers of a question that is one goal. -/
theorem solutions_asksFor (hq : q.AsksFor g) (s : Session) : s.solutions q =
    (.ok { machine := ({} : Machine).posed q }, { s with base := s.base.posed q }) := by
  have hquery : q.isQuery = true := by
    rw [Clause.isQuery, hq.headless, hq.signature]
    simp [querySignature]
  have hnone : q.descendants = [] := by
    have hplain := hq.plain
    obtain ⟨signature, code, native, auxiliaries⟩ := q
    obtain rfl : auxiliaries = [] := hplain
    rw [Clause.descendants_mk, Clause.descendantsOf]
  simp only [solutions, Machine.ask, KnowledgeBase.setQuery, hquery, hnone]
  simp [ClauseStore.replaceAll, KnowledgeBase.posed, hnone, ClauseStore.install]
  rfl

/-- The cache holds under the text only what the term is compiled to. -/
def KeepsFor (cache : Option (RecencyCache Clause)) (text : String) (t : Term) : Prop :=
  ∀ x q, cache = some x → x.value? text = some q → ∃ c : Compiler, (c.query t).1 = .ok q

/-- A question whose term is always compiled is compiled, unless the cache has it. -/
theorem compiledQuestion_ok (hread : readClause {} text 0 = .ok t) (hcache : KeepsFor s.cache text t)
    (hcompile : ∀ c : Compiler, ∃ q c', c.query t = (.ok q, c')) :
    ∃ q s', s.compiledQuestion text = (.ok q, s') ∧ (∃ c : Compiler, (c.query t).1 = .ok q) ∧
      s'.options = s.options := by
  obtain ⟨q, c', hq⟩ := hcompile s.compiler
  -- Without a cache the question is compiled, and with one it may have been compiled before.
  have hquestion : compileQuestion text s = (.ok q, { s with
      compiler := c', transcript := s.transcript.logIf s.options.debug (.compiled q) }) := by
    rw [compileQuestion_ok hread]
    exact compileWith_ok (·.query t) hq
  have hmade : ∃ c : Compiler, (c.query t).1 = .ok q := ⟨s.compiler, by rw [hq]⟩
  unfold compiledQuestion
  cases hc : s.cache with
  | none => exact ⟨q, _, hquestion, hmade, rfl⟩
  | some cache =>
    have hfound := cache.get_fst text
    unfold RecencyCache.getOrMake
    rcases hget : cache.get text with ⟨_ | q', x⟩ <;> rw [hget] at hfound
    · simp only [hget, hquestion]
      exact ⟨q, _, rfl, hmade, rfl⟩
    · simp only [hget]
      exact ⟨q', _, rfl, hcache cache q' hc hfound.symm, rfl⟩

/-- **A session that reads a question with one goal searches for its answers.** -/
theorem query_call {name : String} {t₁ t₂ t₃ : Term} {pos : Int}
    (hread : readClause {} (questionText source) 0 = .ok (.app name [t₁, t₂, t₃] .none pos))
    (hcache : KeepsFor s.cache (questionText source) (.app name [t₁, t₂, t₃] .none pos)) :
    ∃ q s', s.query source = (.ok { machine := ({} : Machine).posed q }, s') ∧
      q.AsksFor ⟨name, [t₁, t₂, t₃], .none, pos⟩ ∧ s'.options = s.options := by
  obtain ⟨q, s₁, hcompiled, ⟨c, hq⟩, hoptions⟩ := compiledQuestion_ok hread hcache fun c => by
    obtain ⟨q, c', hq, -⟩ := c.query_call name t₁ t₂ t₃ pos
    exact ⟨q, c', hq⟩
  have hasks : q.AsksFor ⟨name, [t₁, t₂, t₃], .none, pos⟩ := by
    obtain ⟨q', c', hq', hasks⟩ := c.query_call name t₁ t₂ t₃ pos
    rw [hq'] at hq
    obtain rfl := Except.ok.inj hq
    exact hasks
  refine ⟨q, { s₁ with base := s₁.base.posed q }, ?_, hasks, hoptions⟩
  rw [query, hcompiled]
  exact solutions_asksFor hasks s₁

end Session

end PrologMachine
