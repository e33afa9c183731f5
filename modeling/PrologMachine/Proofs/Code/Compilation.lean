/-
  PrologMachine.Proofs.Code.Compilation ── **COMPILED CLAUSES ARE SOUND.**

  What the compiler accepts of a proper term compiles to sound code.  Whether the code may call the
  reserved functor of queries is left open: it is up to the goals of the term.

    * `Term.goals`, `Term.clauseGoals`, `Term.queryGoals`: the goals of a body, a clause, a question.
    * `Body.ofTerm_proper`: the body of a proper term is proper.
    * `Compiler.clause_compiled`, `Compiler.query_compiled`: what the compiler returns.
-/
import PrologMachine.Proofs.Code.Linking

namespace PrologMachine

open Emit

variable {admits : Signature → Bool}

/-! ## §1. Goals. -/

/-- The goals that a body calls or evaluates, each as name and arity. -/
def Term.goals : Term → List Signature
  | .app "conj" [l, r] _ _ => l.goals ++ r.goals
  | .app "disj" [l, r] _ _ => l.goals ++ r.goals
  | .app "not" [t] _ _ => t.goals
  | .app name args _ _ => [⟨name, args.length⟩]
  | .const (.atom name) _ => [⟨name, 0⟩]
  | _ => []

/-- The goals in the body of a clause. -/
def Term.clauseGoals (t : Term) : List Signature :=
  match splitClause t with
  | .ok (_, some body) => body.goals
  | _ => []

/-- The goals of a question. -/
def Term.queryGoals (t : Term) : List Signature := (questionGoal t).goals

/-! ## §2. Expressions and targets. -/

/-- The mark of a comparison is on no operator with a value. -/
def MarkedRight (name : String) (attrs : Attrs) : Prop :=
  attrs.has .boolean = true → ∀ o, Operator.ofName? name ≠ some (.value o)

/-- An operator that is marked right keeps its result. -/
theorem MarkedRight.keeps {name : String} {attrs : Attrs} {o : ArithOp} (h : MarkedRight name attrs)
    (ho : Operator.ofName? name = some (.value o)) : (!attrs.has .boolean) = true := by
  cases hb : attrs.has .boolean with
  | false => rfl
  | true => exact (h hb o ho).elim

/-- An action that succeeds in the end has succeeded in its first part. -/
theorem exists_of_bind_eq_ok {ε α β : Type} {x : Except ε α} {f : α → Except ε β} {b : β}
    (h : (x >>= f) = .ok b) : ∃ a, x = .ok a ∧ f a = .ok b := by
  cases x with
  | error e => cases h
  | ok a => exact ⟨a, rfl, h⟩

section Accepted

variable {name : String} {attrs : Attrs} {pos : Int} {l r t : Term} {x : Expr} {g : Goal} {b : Body}

/-- An operator on two operands, when it is accepted. -/
theorem Expr.ofApp_pair_ok (h : Expr.ofApp name attrs pos [l, r] = .ok x) :
    ∃ op y z, Operator.ofName? name = some op ∧ Expr.ofTerm l = .ok y ∧ Expr.ofTerm r = .ok z ∧
      x = .apply op (!attrs.has .boolean) y z := by
  simp only [Expr.ofApp] at h
  split at h
  · next op hop =>
    obtain ⟨y, hy, h⟩ := exists_of_bind_eq_ok h
    obtain ⟨z, hz, h⟩ := exists_of_bind_eq_ok h
    exact ⟨op, y, z, hop, hy, hz, (Except.ok.inj h).symm⟩
  · cases h

/-- A minus sign on one operand, when it is accepted. -/
theorem Expr.ofApp_single_ok (h : Expr.ofApp name attrs pos [t] = .ok x) :
    ∃ y, name = "-" ∧ Expr.ofTerm t = .ok y ∧
      x = .apply (.value .minus) (!attrs.has .boolean) (.const (.number 0)) y := by
  simp only [Expr.ofApp] at h
  split at h
  · next hname =>
    obtain ⟨y, hy, h⟩ := exists_of_bind_eq_ok h
    exact ⟨y, hname, hy, (Except.ok.inj h).symm⟩
  · cases h

/-- The two kinds of body that an arithmetic goal has. -/
theorem Body.ofPrimitive_ok (h : Body.ofPrimitive g = .ok b) :
    (∃ target value x, g.name = "is" ∧ g.args = [target, value] ∧ Expr.ofTerm value = .ok x ∧
      b = .assign (Target.ofTerm target) x) ∨
    (g.name = "is" → g.args.length ≠ 2) ∧
      ∃ x, Expr.ofApp g.name g.attrs g.position g.args = .ok x ∧ b = .evaluate x := by
  unfold Body.ofPrimitive at h
  split at h
  · next target value hname hargs =>
    obtain ⟨x, hx, h⟩ := exists_of_bind_eq_ok h
    exact .inl ⟨target, value, x, hname, hargs, hx, (Except.ok.inj h).symm⟩
  · next hother =>
    obtain ⟨x, hx, h⟩ := exists_of_bind_eq_ok h
    refine .inr ⟨fun hname hlength => ?_, x, hx, (Except.ok.inj h).symm⟩
    obtain ⟨target, value, hargs⟩ := List.length_eq_two.1 hlength
    exact hother target value hname hargs

/-- What a goal that is accepted is made into. -/
theorem Body.ofGoal_ok {isQuery : Bool} (h : Body.ofGoal isQuery g = .ok b) :
    b = .cut ∨ b = .fail ∨ b = .succeed ∨ Body.ofPrimitive g = .ok b ∨
      g.attrs.has .primitive = false ∧ b = .call g := by
  simp only [Body.ofGoal] at h
  split at h
  · cases h
  split at h
  · exact .inl (Except.ok.inj h).symm
  split at h
  · exact .inr (.inl (Except.ok.inj h).symm)
  split at h
  · exact .inr (.inr (.inl (Except.ok.inj h).symm))
  split at h
  · exact .inr (.inr (.inr (.inl h)))
  · next hcall => exact .inr (.inr (.inr (.inr ⟨by simpa using hcall, (Except.ok.inj h).symm⟩)))

end Accepted

mutual

/-- The expression of a proper operand is proper. -/
theorem Expr.ofTerm_proper : (t : Term) → t.Proper → ∀ x, Expr.ofTerm t = .ok x → x.Proper
  | .var name id, ht, x, h => by
    obtain rfl := Except.ok.inj h
    exact ht
  | .const a pos, _, x, h => by
    obtain rfl := Except.ok.inj h
    trivial
  | .app name args attrs pos, ht, x, h => by
    simp only [Expr.ofTerm] at h
    split at h
    · obtain rfl := Except.ok.inj h
      trivial
    · split at h
      · exact Expr.ofApp_proper args ht.2 name attrs pos ht.1 x h
      · cases h
  | .absent, ht, _, _ => ht.elim

/-- The expression of an operator on proper operands is proper. -/
theorem Expr.ofApp_proper : (args : List Term) → Term.AllProper args →
    ∀ (name : String) (attrs : Attrs) (pos : Int), MarkedRight name attrs →
      ∀ x, Expr.ofApp name attrs pos args = .ok x → x.Proper
  | [l, r], ⟨hl, hr, _⟩, name, attrs, pos, hmark, x, h => by
    obtain ⟨op, y, z, hop, hy, hz, rfl⟩ := Expr.ofApp_pair_ok h
    refine ⟨?_, Expr.ofTerm_proper l hl y hy, Expr.ofTerm_proper r hr z hz⟩
    rintro ⟨o, rfl⟩
    exact hmark.keeps hop
  | [t], ⟨ht, _⟩, name, attrs, pos, hmark, x, h => by
    obtain ⟨y, rfl, hy, rfl⟩ := Expr.ofApp_single_ok h
    exact ⟨fun _ => hmark.keeps (o := .minus) (by decide), trivial, Expr.ofTerm_proper t ht y hy⟩
  -- No other number of operands makes an expression.
  | [], _, _, _, _, _, x, h => by simp [Expr.ofApp] at h
  | _ :: _ :: _ :: _, _, _, _, _, _, x, h => by simp [Expr.ofApp] at h

end

/-- The target of a proper term is proper. -/
theorem Target.ofTerm_proper {t : Term} (ht : t.Proper) : (Target.ofTerm t).Proper := by
  cases t with
  | var name id => exact ht
  | const a pos => trivial
  | app name args attrs pos => trivial
  | absent => trivial

/-! ## §3. Bodies. -/

/-- The goal of a proper term. -/
structure Goal.Proper (g : Goal) : Prop where
  /-- Its arguments are proper. -/
  args : Term.AllProper g.args
  /-- Its marks fit its name. -/
  marks : MarkedRight g.name g.attrs

theorem Goal.ofTerm_proper {t : Term} {g : Goal} (ht : t.Proper) (h : Goal.ofTerm t = .ok g) :
    g.Proper := by
  match t with
  | .app name args attrs pos =>
    obtain rfl := Except.ok.inj h
    exact ⟨ht.2, ht.1⟩
  | .const (.atom name) pos =>
    obtain rfl := Except.ok.inj h
    exact ⟨trivial, fun hb => by simp [Attrs.has, Attrs.none, Attrs.boolean] at hb⟩
  | .const (.number x) pos => cases h
  | .const .nil pos => cases h
  | .var name id => cases h
  | .absent => exact ht.elim

/-- A goal that is no connective is the only goal of its term. -/
theorem Goal.ofTerm_goals {t : Term} {g : Goal} (h : Goal.ofTerm t = .ok g)
    (hconj : ∀ l r attrs pos, t ≠ .app "conj" [l, r] attrs pos)
    (hdisj : ∀ l r attrs pos, t ≠ .app "disj" [l, r] attrs pos)
    (hnot : ∀ s attrs pos, t ≠ .app "not" [s] attrs pos) : g.signature ∈ t.goals := by
  match t with
  | .app name args attrs pos =>
    obtain rfl := Except.ok.inj h
    rw [Term.goals]
    · simp [Goal.signature]
    · rintro l r rfl rfl; exact hconj _ _ _ _ rfl
    · rintro l r rfl rfl; exact hdisj _ _ _ _ rfl
    · rintro s rfl rfl; exact hnot _ _ _ rfl
  | .const (.atom name) pos =>
    obtain rfl := Except.ok.inj h
    simp [Term.goals, Goal.signature]
  | .const (.number x) pos => cases h
  | .const .nil pos => cases h
  | .var name id => cases h
  | .absent => cases h

/-- The body of a proper goal. -/
theorem Body.ofGoal_proper {isQuery : Bool} {g : Goal} {b : Body} (hg : g.Proper)
    (hq : admits g.signature = true) (h : Body.ofGoal isQuery g = .ok b) : b.Proper admits := by
  obtain rfl | rfl | rfl | hprimitive | ⟨-, rfl⟩ := Body.ofGoal_ok h
  · trivial
  · trivial
  · trivial
  · obtain ⟨target, value, x, -, hargs, hx, rfl⟩ | ⟨-, x, hx, rfl⟩ := Body.ofPrimitive_ok hprimitive
    · obtain ⟨htarget, hvalue, -⟩ : Term.AllProper [target, value] := hargs ▸ hg.args
      exact ⟨Target.ofTerm_proper htarget, Expr.ofTerm_proper value hvalue x hx⟩
    · exact Expr.ofApp_proper g.args hg.args g.name g.attrs g.position hg.marks x hx
  · exact ⟨hg.args, hq⟩

mutual

/-- The variables of a proper term are proper. -/
theorem Term.addVars_proper : (t : Term) → t.Proper → ∀ known : List Term,
    Term.AllProper known → Term.AllProper (Term.addVars known t)
  | .var name id, ht, known, hk => by
    rw [Term.addVars]
    split
    · exact hk
    · rw [Term.allProper_iff] at hk ⊢
      intro t' h'
      rcases List.mem_append.1 h' with h' | h'
      · exact hk t' h'
      · obtain rfl := List.mem_singleton.1 h'
        exact ht
  | .app name args attrs pos, ht, known, hk => by
    rw [Term.addVars]
    exact Term.addAllVars_proper args ht.2 known hk
  | .const a pos, _, known, hk => by simpa [Term.addVars] using hk
  | .absent, ht, _, _ => ht.elim

/-- The variables of proper terms are proper. -/
theorem Term.addAllVars_proper : (ts : List Term) → Term.AllProper ts → ∀ known : List Term,
    Term.AllProper known → Term.AllProper (Term.addAllVars known ts)
  | [], _, known, hk => by simpa [Term.addAllVars] using hk
  | t :: ts, hts, known, hk => by
    rw [Term.addAllVars]
    exact Term.addAllVars_proper ts hts.2 _ (Term.addVars_proper t hts.1 known hk)

end

/-- Shaping actions in turn. -/
theorem Shaping.run_bind {α β : Type} {x : Shaping α} {k : α → Shaping β} {n : Nat} :
    (x >>= k).run.run n = match x.run.run n with
      | (.ok a, n₁) => (k a).run.run n₁
      | (.error e, n₁) => (.error e, n₁) := by
  simp only [ExceptT.run_bind, StateT.run_bind]
  rcases StateT.run (ExceptT.run x) n with ⟨_ | a, n₁⟩ <;> rfl

/-- Whatever a shaping action returns has the property. -/
def Shaping.Yields {α : Type} (x : Shaping α) (P : α → Prop) : Prop :=
  ∀ n a n', x.run.run n = (.ok a, n') → P a

namespace Shaping.Yields

variable {α β : Type} {P : α → Prop} {Q : β → Prop}

protected theorem pure {a : α} (ha : P a) : Shaping.Yields (pure a) P := by
  intro n b n' h
  obtain rfl : a = b := Except.ok.inj (congrArg Prod.fst h)
  exact ha

protected theorem bind {x : Shaping α} {k : α → Shaping β} (hx : x.Yields P)
    (hk : ∀ a, P a → (k a).Yields Q) : (x >>= k).Yields Q := by
  intro n b n' h
  rw [Shaping.run_bind] at h
  rcases hxn : x.run.run n with ⟨_ | a, n₁⟩ <;> rw [hxn] at h
  · cases h
  · exact hk a (hx n a n₁ hxn) n₁ b n' h

/-- An outcome that is known. -/
protected theorem lift {r : Except CompileError α} (h : ∀ a, r = .ok a → P a) :
    Shaping.Yields (ExceptT.mk (pure r)) P := by
  intro n a n' heq
  exact h a (congrArg Prod.fst heq)

protected theorem ite {c : Prop} [Decidable c] {x y : Shaping α} (hx : c → x.Yields P)
    (hy : ¬ c → y.Yields P) : Shaping.Yields (if c then x else y) P := by
  split
  · exact hx ‹_›
  · exact hy ‹_›

end Shaping.Yields

/-- An auxiliary clause is no query. -/
theorem auxiliaryName_ne_query (n : Nat) : auxiliaryName n ≠ queryFunctor := by
  intro h
  simpa [auxiliaryName, auxiliaryLead, queryFunctor] using congrArg String.toList h

/-- Only the functor of queries may be refused, and only where it is no goal. -/
structure Admissible (admits : Signature → Bool) (goals : List Signature) : Prop where
  /-- All others may be called. -/
  others : ∀ s, s ≠ querySignature → admits s = true
  /-- So may the functor of queries, if it is a goal. -/
  query : querySignature ∈ goals → admits querySignature = true

namespace Admissible

variable {goals goals' : List Signature}

theorem mono (h : Admissible admits goals) (hsub : ∀ s ∈ goals', s ∈ goals) :
    Admissible admits goals' := ⟨h.others, fun hq => h.query (hsub _ hq)⟩

/-- A goal that may stand in the clause is admitted. -/
theorem admits_of_mem (h : Admissible admits goals) {s : Signature} (hs : s ∈ goals) :
    admits s = true := by
  by_cases hq : s = querySignature
  · subst hq; exact h.query hs
  · exact h.others s hq

end Admissible

/-- The head of an auxiliary clause is a goal over the variables of its body. -/
theorem nextAuxiliary_proper {t : Term} (ht : t.Proper) (pos : Int)
    (hadmits : ∀ s, s ≠ querySignature → admits s = true) :
    (nextAuxiliary t pos).Yields
      (fun g => Term.AllProper g.args ∧ admits g.signature = true ∧
        g.signature ≠ querySignature) := by
  intro n g n' h
  obtain rfl : (⟨auxiliaryName (n + 1), t.namedVars, .none, pos⟩ : Goal) = g :=
    Except.ok.inj (congrArg Prod.fst h)
  have hne : (⟨auxiliaryName (n + 1), t.namedVars, .none, pos⟩ : Goal).signature ≠
      querySignature := fun heq =>
    auxiliaryName_ne_query (n + 1) (congrArg Signature.name heq)
  exact ⟨Term.addVars_proper t ht [] trivial, hadmits _ hne, hne⟩

/-- **The body of a proper term is proper.** -/
theorem Body.ofTerm_proper (isQuery : Bool) (t : Term) : t.Proper → Admissible admits t.goals →
    (Body.ofTerm isQuery t).Yields (Body.Proper admits) := by
  fun_induction Body.ofTerm isQuery t with
  | case1 isQuery l r attrs pos ihl ihr =>
    rintro ⟨-, hl, hr, -⟩ hq
    rw [Term.goals] at hq
    have hql := hq.mono (fun s hs => List.mem_append_left r.goals hs)
    have hqr := hq.mono (fun s hs => List.mem_append_right l.goals hs)
    exact (ihl hl hql).bind fun _ h₁ => (ihr hr hqr).bind fun _ h₂ => .pure ⟨h₁, h₂⟩
  | case2 isQuery l r attrs pos ihl ihr =>
    rintro ⟨-, hl, hr, -⟩ hq
    rw [Term.goals] at hq
    have hql := hq.mono (fun s hs => List.mem_append_left r.goals hs)
    have hqr := hq.mono (fun s hs => List.mem_append_right l.goals hs)
    exact (ihl hl hql).bind fun _ h₁ => (ihr hr hqr).bind fun _ h₂ => .pure ⟨h₁, h₂⟩
  | case3 isQuery t attrs pos ih =>
    rintro ⟨-, ht, -⟩ hq
    rw [Term.goals] at hq
    refine Shaping.Yields.bind (P := fun g => Goal.ofTerm t = .ok g) (.lift fun _ h => h)
      fun g hg => ?_
    -- A negated goal becomes the call of an auxiliary clause if there is control in it.
    refine .ite (fun _ => ?_) (fun hcontrol => ?_)
    · exact (nextAuxiliary_proper ht _ hq.others).bind fun _ hhead =>
        (ih ht hq).bind fun _ hbody => .pure ⟨hhead, hbody⟩
    · have hno : g.isControl = false := by
        cases h : g.isControl <;> simp [h] at hcontrol ⊢
      refine .pure ⟨(Goal.ofTerm_proper ht hg).args, hq.admits_of_mem ?_⟩
      refine Goal.ofTerm_goals hg ?_ ?_ ?_
      · rintro l r attrs pos rfl
        obtain rfl := Except.ok.inj hg
        simp [Goal.isControl] at hno
      · rintro l r attrs pos rfl
        obtain rfl := Except.ok.inj hg
        simp [Goal.isControl] at hno
      · rintro s attrs pos rfl
        obtain rfl := Except.ok.inj hg
        simp [Goal.isControl] at hno
  | case4 isQuery t hconj hdisj hnot =>
    intro ht hq
    refine Shaping.Yields.bind (P := fun g => Goal.ofTerm t = .ok g) (.lift fun _ h => h)
      fun g hg => .lift fun b hb => ?_
    refine Body.ofGoal_proper (Goal.ofTerm_proper ht hg) (hq.admits_of_mem ?_) hb
    exact Goal.ofTerm_goals hg hconj hdisj hnot

/-! ## §4. Clauses and questions. -/

/-- Clauses that were split off a proper term are proper. -/
theorem splitClause_proper {t head : Term} {body : Option Term} (ht : t.Proper)
    (h : splitClause t = .ok (head, body)) : head.Proper ∧ ∀ b ∈ body, b.Proper := by
  unfold splitClause at h
  split at h
  · exact absurd ht.2.2.1 id
  · obtain ⟨rfl, rfl⟩ := Prod.mk.inj (Except.ok.inj h)
    refine ⟨ht.2.1, fun b hb => ?_⟩
    obtain rfl := Option.some.inj hb
    exact ht.2.2.1
  · cases h
  · obtain ⟨rfl, rfl⟩ := Prod.mk.inj (Except.ok.inj h)
    exact ⟨ht, by simp⟩

/-- The head of a proper term is proper. -/
theorem headOf_proper {t : Term} {name : String} {args : List Term} (ht : t.Proper)
    (h : headOf t = .ok (name, args)) : Term.AllProper args := by
  unfold headOf at h
  split at h
  · split at h
    · cases h
    · obtain ⟨-, rfl⟩ := Prod.mk.inj (Except.ok.inj h)
      exact ht.2
  · obtain ⟨-, rfl⟩ := Prod.mk.inj (Except.ok.inj h)
    trivial
  all_goals cases h

/-- A question about a proper term is proper. -/
theorem questionGoal_proper {t : Term} (ht : t.Proper) : (questionGoal t).Proper := by
  unfold questionGoal
  split
  · exact ht.2.1
  · exact ht

namespace Compiler

variable {c : Compiler} {t : Term}

/-- The emitter with which the compiler starts the code of a clause. -/
def emitter (c : Compiler) : Emitter := { compiler := c.id, constants := c.constants }

@[simp] theorem emitter_leaves : c.emitter.leaves = 0 := rfl

/-- What an accepted clause is compiled to: the code of its head and, if it is a rule, of its body. -/
theorem clause_eq_ok {clause : Clause} (h : (c.clause t).1 = .ok clause) : ∃ head rule name args,
    splitClause t = .ok (head, rule) ∧ headOf head = .ok (name, args) ∧
      (rule = none ∧ clause = ((clauseOf name args none).eval c.emitter).1 ∨
        ∃ body b, rule = some body ∧ (c.body false body).1 = .ok b ∧
          clause = ((clauseOf name args (some (b.fragment (c.unitInfo false) true))).eval c.emitter).1) := by
  unfold Compiler.clause at h
  split at h
  · cases h
  next head rule hsplit =>
  split at h
  · cases h
  next name args hname =>
  refine ⟨head, rule, name, args, hsplit, hname, ?_⟩
  cases rule with
  | none => exact .inl ⟨rfl, (Except.ok.inj h).symm⟩
  | some body =>
    simp only at h
    split at h
    · cases h
    next b c' hb =>
    -- Making a body counts the auxiliary clauses only.
    obtain rfl : (c.body false body).2 = c' := congrArg Prod.snd hb
    exact .inr ⟨body, b, rfl, congrArg Prod.fst hb, (Except.ok.inj h).symm⟩

/-- What an accepted question is compiled to: the code of its goals. -/
theorem query_eq_ok {q : Clause} (h : (c.query t).1 = .ok q) : ∃ b,
    (c.body true (questionGoal t)).1 = .ok b ∧
      q = ⟨querySignature, ((b.fragment (c.unitInfo true) true).eval c.emitter).1.blocks, false,
        ((b.fragment (c.unitInfo true) true).eval c.emitter).2.auxiliaries⟩ := by
  unfold Compiler.query at h
  split at h
  · cases h
  simp only at h
  split at h
  · cases h
  next b c' hb =>
  obtain rfl : (c.body true (questionGoal t)).2 = c' := congrArg Prod.snd hb
  exact ⟨b, congrArg Prod.fst hb, (Except.ok.inj h).symm⟩

/-- The body that the compiler makes of a proper term is proper. -/
theorem body_proper {isQuery : Bool} {b : Body} (ht : t.Proper) (hq : Admissible admits t.goals)
    (h : (c.body isQuery t).1 = .ok b) : b.Proper admits :=
  Body.ofTerm_proper isQuery t ht hq c.auxiliaries b _ (Prod.ext h rfl)

/-- **A clause that the compiler accepts is sound, with all its auxiliary clauses.** -/
theorem clause_compiled {clause : Clause} (ht : t.Proper) (hq : Admissible admits t.clauseGoals)
    (h : (c.clause t).1 = .ok clause) :
    clause.Compiled admits ∧ ∀ d ∈ clause.descendants, d.Auxiliary admits := by
  obtain ⟨head, rule, name, args, hsplit, hname, hclause⟩ := clause_eq_ok h
  obtain ⟨hhead, hrule⟩ := splitClause_proper ht hsplit
  rw [Term.clauseGoals, hsplit] at hq
  have hargs := headOf_proper hhead hname
  have hempty : c.emitter.Healthy admits := by simp [emitter, Emitter.Healthy, Clause.descendantsOf]
  obtain ⟨rfl, rfl⟩ | ⟨body, b, rfl, hb, rfl⟩ := hclause
  · exact clauseOf_compiled name hargs none _ rfl hempty (by simp)
  · have hproper := body_proper (hrule body rfl) hq hb
    refine clauseOf_compiled name hargs _ _ rfl hempty (fun f hf e he => ?_)
    obtain rfl := Option.some.inj hf
    exact b.fragment_linked hproper _ _ e he

/-- **A question that the compiler accepts is sound code that starts at its body.** -/
theorem query_compiled {q : Clause} (ht : t.Proper) (hq : Admissible admits t.queryGoals)
    (h : (c.query t).1 = .ok q) :
    (q.Sound admits ∧ q.native = false ∧ headLabel ∉ q.code.map Prod.fst ∧
      bodyLabel ∈ q.code.map Prod.fst) ∧ ∀ d ∈ q.descendants, d.Auxiliary admits := by
  obtain ⟨b, hb, rfl⟩ := query_eq_ok h
  have hproper := body_proper (questionGoal_proper ht) hq hb
  obtain ⟨hlinked, haux⟩ := b.fragment_linked hproper (c.unitInfo true) true c.emitter
    (by simp [emitter, Emitter.Healthy, Clause.descendantsOf])
  rw [emitter_leaves] at hlinked
  -- No block is the head's: all of them are leaves.
  refine ⟨⟨⟨fun l code hl => ?_, fun l code hl t' ht' => ?_⟩, rfl, ?_, ?_⟩, ?_⟩
  · obtain ⟨n, -, -, rfl⟩ := hlinked.leaves l (Fragment.mem_labels hl)
    rw [startPhase, if_neg (leafLabel_ne_head n)]
    exact hlinked.closes _ code hl
  · have hmem := (hlinked.targets l code hl t' ht').1
    obtain ⟨n, -, -, rfl⟩ := hlinked.leaves t' hmem
    exact ⟨leafLabel_ne_head n, hmem⟩
  · intro hmem
    obtain ⟨n, -, -, heq⟩ := hlinked.leaves _ hmem
    exact leafLabel_ne_head n heq.symm
  · have hentry := hlinked.entered
    rwa [hlinked.entry, leafLabel_zero] at hentry
  · rw [Clause.descendants_mk]
    exact haux

end Compiler

end PrologMachine
