/-
  PrologMachine.Proofs.Resolution.Definite ── **THE CODE OF DEFINITE CLAUSES.**

  A definite clause is a fact, or a rule whose body is a conjunction of calls.  Its body is one block:
  the calls one after the other, each of them followed by a check of its outcome, and the return at the
  end.

    * `Compiler.rule?`, `Compiler.goals?`: what a clause or a question says, as patterns with their
      constants in the cells of the code.
    * `Term.calls?`, `Body.ofTerm_calls`, `Compiler.goals?_conj`, `Compiler.rule?_rule`: the same read off
      the term, goal by goal.
    * `Chain`: code that makes calls one after the other.
    * `Body.fragment_chain`: the code of such a body.
    * `Clause.Implements`, `Compiler.clause_implements`: the code of a definite clause.
-/
import PrologMachine.Compiler
import PrologMachine.Proofs.Code.Compilation
import PrologMachine.Proofs.Goal.Calling
import PrologMachine.Proofs.Resolution.Search

namespace PrologMachine

/-! ## §1. Definite clauses. -/

/-- The calls of a body that is a conjunction of calls. -/
def Body.calls? : Body → Option (List Goal)
  | .conj l r =>
    match l.calls?, r.calls? with
    | some gs, some gs' => some (gs ++ gs')
    | _, _ => none
  | .call g => some [g]
  | _ => none

/-- Goals as patterns, one after the other, and the number of the next constant. -/
def Goal.patterns (compiler : Nat) : Nat → List Goal → List Pattern × Nat
  | n, [] => ([], n)
  | n, g :: gs =>
    let rest := Goal.patterns compiler (g.nextConstant compiler n) gs
    (g.pattern compiler n :: rest.1, rest.2)

namespace Compiler

/-- The rule that a term is, if it is a fact or a rule whose body is a conjunction of calls. -/
def rule? (c : Compiler) (t : Term) : Option Rule :=
  match splitClause t with
  | .error _ => none
  | .ok (head, rule) =>
    match headOf head with
    | .error _ => none
    | .ok (name, args) =>
      let next := (Term.patterns c.id c.constants (c.constants + Term.atomics args) args).2
      match rule with
      | none => some ⟨headPattern name args c.emitter, []⟩
      | some body =>
        match (c.body false body).1 with
        | .error _ => none
        | .ok b => b.calls?.map fun gs =>
          ⟨headPattern name args c.emitter, (Goal.patterns c.id next gs).1⟩

/-- The goals of a question that is a conjunction of calls. -/
def goals? (c : Compiler) (t : Term) : Option (List Pattern) :=
  match (c.body true (questionGoal t)).1 with
  | .error _ => none
  | .ok b => b.calls?.map fun gs => (Goal.patterns c.id c.constants gs).1

end Compiler

/-- The pattern of a head has its signature. -/
theorem signature_headPattern (name : String) {args : List Term} (e : Emitter) (hargs : Term.AllNamed args) :
    (headPattern name args e).signature = ⟨name, args.length⟩ := by
  have hlength := (Term.patterns_full (K := Set.univ) e.compiler e.constants
    (e.constants + Term.atomics args) args hargs fun _ _ => trivial).2
  rw [headPattern, Pattern.signature, hlength]

/-- The patterns of goals in turn take their numbers in turn. -/
theorem Goal.patterns_append (compiler : Nat) (gs gs' : List Goal) : ∀ n : Nat,
    Goal.patterns compiler n (gs ++ gs') =
      ((Goal.patterns compiler n gs).1 ++ (Goal.patterns compiler (Goal.patterns compiler n gs).2 gs').1,
        (Goal.patterns compiler (Goal.patterns compiler n gs).2 gs').2) := by
  induction gs with
  | nil => exact fun n => rfl
  | cons g gs ih =>
    intro n
    simp only [List.cons_append, Goal.patterns, ih]

/-! ## §2. What terms say. -/

/-- The goals that a term calls one after the other, if it is a conjunction of calls. -/
def Term.calls? : Term → Option (List Goal)
  | .app "conj" [l, r] _ _ => return (← l.calls?) ++ (← r.calls?)
  | .app "disj" [_, _] _ _ => none
  | .app "not" [_] _ _ => none
  | t =>
    match Goal.ofTerm t with
    | .ok g => if g.isControl || g.attrs.has .primitive then none else some [g]
    | .error _ => none

/-- An arithmetic goal is no call. -/
theorem Body.calls?_ofPrimitive {g : Goal} {b : Body} (h : Body.ofPrimitive g = .ok b) : b.calls? = none := by
  obtain ⟨target, value, x, -, -, -, rfl⟩ | ⟨-, x, -, rfl⟩ := Body.ofPrimitive_ok h
  · rfl
  · rfl

/-- The calls of what an attempt to make a body gives. -/
def Body.callsOf : Except CompileError Body → Option (List Goal)
  | .ok b => b.calls?
  | .error _ => none

/-- A goal is a call, unless it is a control construct or an arithmetic goal. -/
theorem Body.callsOf_ofGoal (isQuery : Bool) {g : Goal} (hconj : g.signature ≠ ⟨"conj", 2⟩)
    (hdisj : g.signature ≠ ⟨"disj", 2⟩) (hnot : g.signature ≠ ⟨"not", 1⟩) :
    callsOf (Body.ofGoal isQuery g) =
      if g.isControl || g.attrs.has .primitive then none else some [g] := by
  by_cases hp : g.attrs.has .primitive
  · rw [hp, Bool.or_true, if_pos rfl]
    cases hb : Body.ofGoal isQuery g with
    | error e => rfl
    | ok b =>
      obtain rfl | rfl | rfl | hprimitive | ⟨hcall, -⟩ := Body.ofGoal_ok hb
      · rfl
      · rfl
      · rfl
      · exact Body.calls?_ofPrimitive hprimitive
      · rw [hp] at hcall
        cases hcall
  -- What counts as control depends on the number of arguments.
  · obtain ⟨name, args, attrs, pos⟩ := g
    unfold Body.ofGoal
    rw [if_neg hp]
    rcases args with _ | ⟨a, _ | ⟨b, _ | ⟨d, args⟩⟩⟩
    · by_cases hcut : name = "!"
      · simp [hcut, Goal.isControl, callsOf, Body.calls?]
      by_cases hfail : name = "fail" ∨ name = "false"
      · rcases hfail with rfl | rfl <;> simp [Goal.isControl, callsOf, Body.calls?]
      by_cases htrue : name = "true"
      · simp [htrue, Goal.isControl, callsOf, Body.calls?]
      · simp_all [Goal.isControl, callsOf, Body.calls?]
    · simp_all [Goal.isControl, Goal.signature, callsOf, Body.calls?]
    · by_cases hrule : name = "rule"
      · simp [hrule, Goal.isControl, callsOf]
      · simp_all [Goal.isControl, Goal.signature, callsOf, Body.calls?]
    · simp_all [Goal.isControl, callsOf, Body.calls?]

/-- A goal with arguments stands for a compound of its name. -/
theorem Goal.eq_app_of_signature {t : Term} {g : Goal} {f : String} {n : Nat} (h : Goal.ofTerm t = .ok g)
    (hs : g.signature = ⟨f, (n + 1 : Nat)⟩) :
    ∃ args attrs pos, args.length = n + 1 ∧ t = .app f args attrs pos := by
  match t with
  | .app name args attrs pos =>
    obtain rfl := Except.ok.inj h
    obtain ⟨rfl, hlength⟩ := Signature.mk.inj hs
    exact ⟨args, attrs, pos, Int.ofNat.inj hlength, rfl⟩
  | .const (.atom name) pos =>
    obtain rfl := Except.ok.inj h
    cases Int.ofNat.inj (Signature.mk.inj hs).2
  | .const (.number x) pos => cases h
  | .const .nil pos => cases h
  | .var name id => cases h
  | .absent => cases h

/-- An action that makes bodies without calls. -/
theorem Shaping.Yields.callsOf {x : Shaping Body} (h : x.Yields fun b => b.calls? = none) (n : Nat) :
    Body.callsOf (x.run.run n).1 = none := by
  rcases hx : x.run.run n with ⟨_ | b, n'⟩
  · rfl
  · exact h n b n' hx

/-- **The body of a term calls what the term says.** -/
theorem Body.ofTerm_calls (isQuery : Bool) (t : Term) :
    ∀ n, callsOf ((Body.ofTerm isQuery t).run.run n).1 = t.calls? := by
  have hany {α : Type} {x : Shaping α} : x.Yields fun _ => True := fun _ _ _ _ => trivial
  fun_induction Body.ofTerm isQuery t with
  | case1 isQuery l r attrs pos ihl ihr =>
    intro n
    -- A side that is no chain of calls makes the conjunction none, whatever the other side is.
    rw [Term.calls?, ← ihl n, Shaping.run_bind]
    rcases (Body.ofTerm isQuery l).run.run n with ⟨_ | left, n₁⟩
    · rfl
    simp only
    rw [← ihr n₁, Shaping.run_bind]
    rcases (Body.ofTerm isQuery r).run.run n₁ with ⟨_ | right, n₂⟩
    · show none = (do return (← left.calls?) ++ (← none))
      cases left.calls? <;> rfl
    · show (Body.conj left right).calls? = (do return (← left.calls?) ++ (← right.calls?))
      rw [Body.calls?]
      cases left.calls? <;> cases right.calls? <;> rfl
  | case2 isQuery l r attrs pos =>
    rw [Term.calls?]
    exact Shaping.Yields.callsOf (hany.bind fun _ _ => hany.bind fun _ _ => .pure rfl)
  | case3 isQuery t attrs pos ih =>
    rw [Term.calls?]
    refine Shaping.Yields.callsOf (hany.bind fun _ _ => ?_)
    exact .ite (fun _ => hany.bind fun _ _ => hany.bind fun _ _ => .pure rfl) (fun _ => .pure rfl)
  | case4 isQuery t hconj hdisj hnot =>
    intro n
    -- What is left is a goal by itself, which is none of the control constructs.
    rw [Term.calls?, Shaping.run_bind]
    · cases hg : Goal.ofTerm t with
      | error e => rfl
      | ok g =>
        refine Body.callsOf_ofGoal isQuery (fun hs => ?_) (fun hs => ?_) (fun hs => ?_)
        · obtain ⟨args, attrs, pos, hlength, rfl⟩ := Goal.eq_app_of_signature hg hs
          obtain ⟨l, r, rfl⟩ := List.length_eq_two.1 hlength
          exact hconj l r attrs pos rfl
        · obtain ⟨args, attrs, pos, hlength, rfl⟩ := Goal.eq_app_of_signature hg hs
          obtain ⟨l, r, rfl⟩ := List.length_eq_two.1 hlength
          exact hdisj l r attrs pos rfl
        · obtain ⟨args, attrs, pos, hlength, rfl⟩ := Goal.eq_app_of_signature hg hs
          obtain ⟨s, rfl⟩ := List.length_eq_one_iff.1 hlength
          exact hnot s attrs pos rfl
    all_goals assumption

namespace Compiler

variable {c : Compiler}

/-- The body that the compiler makes of a term calls what the term says. -/
theorem callsOf_body (isQuery : Bool) (t : Term) : Body.callsOf (c.body isQuery t).1 = t.calls? :=
  Body.ofTerm_calls isQuery t c.auxiliaries

/-- A question says what stands under its operator, or what it is. -/
theorem goals?_eq (t : Term) :
    c.goals? t = (questionGoal t).calls?.map fun gs => (Goal.patterns c.id c.constants gs).1 := by
  rw [goals?, ← callsOf_body true]
  cases (c.body true (questionGoal t)).1 <;> rfl

/-- A written question says what the term under its operator says. -/
theorem goals?_query (t : Term) (attrs : Attrs) (pos : Int) :
    c.goals? (.app "query" [t] attrs pos) =
      t.calls?.map fun gs => (Goal.patterns c.id c.constants gs).1 := goals?_eq _

/-- A conjunction says what its sides say, one after the other; the constants of the right side are numbered
    after those of the left. -/
theorem goals?_conj (l r : Term) (attrs : Attrs) (pos : Int) :
    c.goals? (.app "conj" [l, r] attrs pos) = (do
      let left := Goal.patterns c.id c.constants (← l.calls?)
      return left.1 ++ (Goal.patterns c.id left.2 (← r.calls?)).1) := by
  rw [goals?_eq, questionGoal, Term.calls?]
  · cases l.calls? <;> cases r.calls? <;> simp [Goal.patterns_append]
  · rintro _ _ _ h
    simp at h

/-- A rule says that its head follows from the goals of its body. -/
theorem rule?_rule {name : String} {args : List Term} {head body : Term}
    (hhead : headOf head = .ok (name, args)) (hbody : body ≠ .absent) (attrs : Attrs) (pos : Int) :
    c.rule? (.app "rule" [head, body] attrs pos) = body.calls?.map fun gs =>
      ⟨headPattern name args c.emitter, (Goal.patterns c.id
        (Term.patterns c.id c.constants (c.constants + Term.atomics args) args).2 gs).1⟩ := by
  rw [rule?, splitClause, ← callsOf_body (c := c) false]
  · simp only [hhead]
    cases (c.body false body).1 <;> rfl
  · exact fun h => hbody h

/-- A term that no operator makes is a fact. -/
theorem rule?_fact {name : String} {args : List Term} {t : Term} (hhead : headOf t = .ok (name, args))
    (hrule : ∀ head body attrs pos, t ≠ .app "rule" [head, body] attrs pos)
    (hquery : ∀ goal attrs pos, t ≠ .app "query" [goal] attrs pos) :
    c.rule? t = some ⟨headPattern name args c.emitter, []⟩ := by
  rw [rule?, splitClause]
  · simp only [hhead]
  · exact fun head => hrule head .absent
  · exact hrule
  · exact hquery

end Compiler

/-! ## §3. Names. -/

mutual

/-- A proper term is named. -/
theorem Term.Proper.named : ∀ {t : Term}, t.Proper → t.Named
  | .var _ _, h => h
  | .const _ _, _ => trivial
  | .app _ _ _ _, h => Term.AllProper.named h.2
  | .absent, h => h

/-- Proper terms are named. -/
theorem Term.AllProper.named : ∀ {ts : List Term}, Term.AllProper ts → Term.AllNamed ts
  | [], _ => trivial
  | _ :: _, h => ⟨h.1.named, Term.AllProper.named h.2⟩

end

mutual

/-- The names in a named term are no registers. -/
theorem Term.Named.names : ∀ {t : Term}, t.Named → ∀ x ∈ t.names, isRegister x = false
  | .var y _, h, x, hx => by
    rw [Term.names] at hx
    split at hx
    · exact absurd hx List.not_mem_nil
    · obtain rfl := List.mem_singleton.1 hx
      exact h
  | .const _ _, _, _, hx => absurd hx List.not_mem_nil
  | .app _ _ _ _, h, x, hx => Term.AllNamed.names h x hx
  | .absent, h, _, _ => h.elim

/-- The names of named terms are variables of the program. -/
theorem Term.AllNamed.names : ∀ {ts : List Term}, Term.AllNamed ts →
    ∀ x ∈ Term.namesAll ts, isRegister x = false
  | [], _, _, hx => absurd hx List.not_mem_nil
  | _ :: _, h, x, hx => (List.mem_append.1 hx).elim (h.1.names x) (Term.AllNamed.names h.2 x)

end

namespace Term

section

variable {N : Set String}

/-- The names of argument patterns are those of the terms. -/
theorem argPatterns_names (compiler n : Nat) (ts : List Term) (ps : List (Option Pattern)) :
    (∀ p, some p ∈ ps → ∀ x ∈ p.names, x ∈ N) → (∀ x ∈ namesAll ts, x ∈ N) →
      ∀ x ∈ Pattern.namesAll (argPatterns compiler n ts ps).1, x ∈ N := by
  fun_induction argPatterns compiler n ts ps with
  | case1 n t ts p ps rest ih =>
    intro hps hts x hx
    exact (List.mem_append.1 hx).elim (hps p List.mem_cons_self x)
      (ih (fun q hq => hps q (List.mem_cons_of_mem _ hq)) (fun y hy => hts y (List.mem_append_right _ hy)) x)
  | case2 n t ts ps rest ih =>
    intro hps hts x hx
    refine (List.mem_append.1 hx).elim (fun hx => hts x (List.mem_append_left _ ?_))
      (ih (fun q hq => hps q (List.mem_cons_of_mem _ hq)) (fun y hy => hts y (List.mem_append_right _ hy)) x)
    -- Only a named variable gives its own name.
    cases t with
    | var y id =>
      rw [leafPattern] at hx
      rw [names]
      split at hx
      · exact absurd hx List.not_mem_nil
      · next hy => rwa [if_neg hy]
    | _ => exact absurd hx List.not_mem_nil
  | case3 => exact fun _ _ x hx => absurd hx List.not_mem_nil

theorem nestedPatterns_names (compiler n : Nat) (ts : List Term) :
    (∀ x ∈ namesAll ts, x ∈ N) →
      ∀ p, some p ∈ (nestedPatterns compiler n ts).1 → ∀ x ∈ p.names, x ∈ N := by
  fun_induction nestedPatterns compiler n ts with
  | case1 => exact fun _ p hp => absurd hp List.not_mem_nil
  | case2 n f a as attrs pos ts below own rest ihbelow ih =>
    intro hts p hp
    have hbelow : ∀ x ∈ namesAll (a :: as), x ∈ N := fun x hx => hts x (List.mem_append_left _ hx)
    rcases List.mem_cons.1 hp with hp | hp
    · obtain rfl := Option.some.inj hp
      exact argPatterns_names compiler _ _ _ (ihbelow hbelow) hbelow
    · exact ih (fun x hx => hts x (List.mem_append_right _ hx)) p hp
  | case3 n t ts _ rest ih =>
    intro hts p hp
    exact ih (fun x hx => hts x (List.mem_append_right _ hx)) p
      ((List.mem_cons.1 hp).resolve_left (Option.some_ne_none p))

end

/-- The names in the patterns of a goal are names in its terms. -/
theorem builtPatterns_names (compiler n : Nat) (ts : List Term) :
    ∀ x ∈ Pattern.namesAll (builtPatterns compiler n ts).1, x ∈ namesAll ts :=
  argPatterns_names (N := {x | x ∈ namesAll ts}) compiler _ ts _
    (nestedPatterns_names compiler n ts fun _ hx => hx) fun _ hx => hx

mutual

/-- The names in a term are no names of anonymous variables. -/
theorem not_anonymous_of_mem_names : ∀ {t : Term} {x : String}, x ∈ t.names → isAnonymous x = false
  | .var y _, x, hx => by
    rw [names] at hx
    split at hx
    · exact absurd hx List.not_mem_nil
    · next hy =>
      obtain rfl := List.mem_singleton.1 hx
      exact Bool.not_eq_true _ ▸ hy
  | .const _ _, _, hx => absurd hx List.not_mem_nil
  | .app _ _ _ _, _, hx => not_anonymous_of_mem_namesAll hx
  | .absent, _, hx => absurd hx List.not_mem_nil

/-- Names that count are not anonymous. -/
theorem not_anonymous_of_mem_namesAll : ∀ {ts : List Term} {x : String}, x ∈ namesAll ts →
    isAnonymous x = false
  | [], _, hx => absurd hx List.not_mem_nil
  | _ :: _, _, hx =>
    (List.mem_append.1 hx).elim not_anonymous_of_mem_names not_anonymous_of_mem_namesAll

end

end Term

/-- The calls of a proper body have proper arguments. -/
theorem Body.Proper.calls {admits : Signature → Bool} {b : Body} (hb : b.Proper admits) {gs : List Goal}
    (h : b.calls? = some gs) : ∀ g ∈ gs, Term.AllProper g.args := by
  induction b generalizing gs with
  | conj l r ihl ihr =>
    simp only [Body.calls?] at h
    split at h
    · next hl hr =>
      obtain rfl := Option.some.inj h
      intro g hg
      exact (List.mem_append.1 hg).elim (ihl hb.1 hl g) (ihr hb.2 hr g)
    · cases h
  | call g =>
    obtain rfl := Option.some.inj h
    intro g' hg'
    obtain rfl := List.mem_singleton.1 hg'
    exact hb.1
  | _ => cases h

/-! ## §4. Chains of calls. -/

open Emit Machine

/-- Code that calls the goals of the patterns one after the other, each with a check of its outcome, and
    ends with the instruction `tail`.  The names `seen` have occurred before, and the next constant has
    number `n`. -/
inductive Chain (tail : Instruction) (compiler : Nat) : (seen : List String) → (n : Nat) →
    List Pattern → Code → Prop where
  /-- The last call. -/
  | last {g : Goal} {e : Emitter} {op : Opcode} (hop : op = .call ∨ op = .bcall)
    (hargs : Term.AllNamed g.args) (hcompiler : e.compiler = compiler) :
    Chain tail compiler e.seen e.constants [g.pattern compiler e.constants] (callCode g e op ++ [tail])
  /-- A call with others behind it. -/
  | more {g : Goal} {e : Emitter} {op : Opcode} {ps : List Pattern} {code : Code}
    (hop : op = .call ∨ op = .bcall) (hargs : Term.AllNamed g.args) (hcompiler : e.compiler = compiler)
    (hrest : Chain tail compiler ((buildGoal g).eval e).2.seen (g.nextConstant compiler e.constants) ps code) :
    Chain tail compiler e.seen e.constants (g.pattern compiler e.constants :: ps)
      (callCode g e op ++ ({ op := .maybeFail } :: code))

variable {tail : Instruction} {compiler n n' : Nat} {seen seen' : List String} {ps ps' : List Pattern}
  {code code' : Code}

/-- There is code for a call at least. -/
theorem Chain.ne_nil (h : Chain tail compiler seen n ps code) : ps ≠ [] := by
  cases h <;> exact List.cons_ne_nil _ _

/-- What stands behind a chain of calls, and may be a chain that goes on with it. -/
structure ChainEnd (tail : Instruction) (compiler : Nat) (seen : List String) (n : Nat)
    (ps : List Pattern) (code : Code) (seen' : List String) (n' : Nat) : Prop where
  /-- It is a chain. -/
  chain : Chain tail compiler seen n ps code
  /-- Another one may follow. -/
  follow : ∀ {ps' code'}, Chain tail compiler seen' n' ps' code' →
    Chain tail compiler seen n (ps ++ ps')
      (Fragment.stripTail code ++ ({ op := .maybeFail } :: code'))
  /-- It can still be told from its end. -/
  strips : ∀ code', Fragment.stripTail (code' ++ code) = code' ++ Fragment.stripTail code

/-- A single call. -/
theorem ChainEnd.single {g : Goal} {e : Emitter} {op : Opcode}
    (htail : tail.op = .proceed ∨ tail.op = .end_) (hop : op = .call ∨ op = .bcall)
    (hargs : Term.AllNamed g.args) :
    ChainEnd tail e.compiler e.seen e.constants [g.pattern e.compiler e.constants]
      (callCode g e op ++ [tail]) ((buildGoal g).eval e).2.seen
      (g.nextConstant e.compiler e.constants) where
  chain := .last hop hargs rfl
  follow h := by
    rw [Fragment.stripTail_concat, if_pos htail]
    exact .more hop hargs rfl h
  strips code' := by
    rw [← List.append_assoc, Fragment.stripTail_concat, Fragment.stripTail_concat, if_pos htail, if_pos htail]

/-- Two chains in a row. -/
theorem ChainEnd.append {seen'' : List String} {n'' : Nat}
    (h : ChainEnd tail compiler seen n ps code seen' n')
    (h' : ChainEnd tail compiler seen' n' ps' code' seen'' n'') :
    ChainEnd tail compiler seen n (ps ++ ps')
      (Fragment.stripTail code ++ ({ op := .maybeFail } :: code')) seen'' n'' where
  chain := h.follow h'.chain
  follow hrest := by
    have hstrip : Fragment.stripTail (Fragment.stripTail code ++ ({ op := .maybeFail } :: code')) =
        Fragment.stripTail code ++ ({ op := .maybeFail } :: Fragment.stripTail code') := by
      have := h'.strips (Fragment.stripTail code ++ [{ op := .maybeFail }])
      rwa [List.append_assoc, List.append_assoc] at this
    rw [hstrip, List.append_assoc, List.append_assoc]
    exact h.follow (h'.follow hrest)
  strips code'' := by
    have hone := h'.strips (code'' ++ Fragment.stripTail code ++ [{ op := .maybeFail }])
    have htwo := h'.strips (Fragment.stripTail code ++ [{ op := .maybeFail }])
    simp only [List.append_assoc, List.singleton_append] at hone htwo
    rw [hone, htwo]

/-- The code of a conjunction of calls: one block, a chain. -/
structure Linear (u : UnitInfo) (gs : List Goal) (label : String) (e : Emitter)
    (out : Fragment × Emitter) : Prop where
  /-- There is one block. -/
  exists_code : ∃ code, out.1 = .leaf label code false ∧
    ChainEnd u.tail e.compiler e.seen e.constants (Goal.patterns e.compiler e.constants gs).1 code
      out.2.seen (Goal.patterns e.compiler e.constants gs).2
  /-- Constants have one owner. -/
  compiler : out.2.compiler = e.compiler
  /-- They are counted. -/
  constants : out.2.constants = (Goal.patterns e.compiler e.constants gs).2
  /-- There are no auxiliary clauses. -/
  auxiliaries : out.2.auxiliaries = e.auxiliaries

/-- A clause ends with `proceed`, a question with `end`. -/
theorem UnitInfo.tail_op (u : UnitInfo) : u.tail.op = .proceed ∨ u.tail.op = .end_ := by
  unfold UnitInfo.tail
  cases u.isQuery
  · exact .inl rfl
  · exact .inr rfl

/-- **The body of a definite clause is one block of calls.** -/
theorem Body.fragment_chain (u : UnitInfo) (outermost : Bool) {b : Body} {gs : List Goal}
    (h : b.calls? = some gs) (hargs : ∀ g ∈ gs, Term.AllNamed g.args) (e : Emitter) :
    Linear u gs (leafLabel e.leaves) e ((b.fragment u outermost).eval e) := by
  induction b generalizing gs e with
  | conj l r ihl ihr =>
    simp only [Body.calls?] at h
    split at h
    · next gs₁ gs₂ hl hr =>
      obtain rfl := Option.some.inj h
      obtain ⟨⟨code₁, hout₁, hchain₁⟩, hcompiler₁, hconstants₁, hauxiliaries₁⟩ :=
        ihl hl (fun g hg => hargs g (List.mem_append_left _ hg)) e
      obtain ⟨⟨code₂, hout₂, hchain₂⟩, hcompiler₂, hconstants₂, hauxiliaries₂⟩ :=
        ihr hr (fun g hg => hargs g (List.mem_append_right _ hg)) ((l.fragment u outermost).eval e).2
      rw [hcompiler₁, hconstants₁] at hchain₂ hconstants₂
      -- Both sides are one block, so they are joined, and nothing jumps.
      have heval : ((Body.conj l r).fragment u outermost).eval e =
          (Fragment.conj ((l.fragment u outermost).eval e).1
            ((r.fragment u outermost).eval ((l.fragment u outermost).eval e).2).1,
            ((r.fragment u outermost).eval ((l.fragment u outermost).eval e).2).2) := rfl
      rw [heval]
      refine ⟨⟨Fragment.stripTail code₁ ++ ({ op := .maybeFail } :: code₂), ?_, ?_⟩,
        hcompiler₂.trans hcompiler₁, ?_, hauxiliaries₂.trans hauxiliaries₁⟩
      · rw [hout₁, hout₂]
        simp [Fragment.conj, Fragment.leaf, Fragment.changeBlock, Fragment.continueWith]
      · rw [Goal.patterns_append]
        exact hchain₁.append hchain₂
      · rw [Goal.patterns_append]
        exact hconstants₂
    · cases h
  | call g =>
    obtain rfl := Option.some.inj h
    let e₁ : Emitter := { e with leaves := e.leaves + 1 }
    have hlocal := (Emit.Local.callGoal u.isNative g false e₁).2
    obtain ⟨hcompiler, hconstants⟩ := numbers_buildGoal g e₁
    have hop : (if g.attrs.has .builtin || u.isNative g.signature then Opcode.bcall else .call) = .call ∨
        (if g.attrs.has .builtin || u.isNative g.signature then Opcode.bcall else .call) = .bcall := by
      split
      · exact .inr rfl
      · exact .inl rfl
    exact ⟨⟨_, rfl, ChainEnd.single (e := e₁) u.tail_op hop (hargs g (List.mem_singleton_self g))⟩,
      hcompiler, hconstants, hlocal⟩
  | _ => cases h

/-! ## §5. The code of definite clauses. -/

/-- The clause has the code of a rule with this head. -/
structure Clause.Coded (cl : Clause) (R : Rule) (name : String) (args : List Term) (hasBody : Bool)
    (e : Emitter) : Prop where
  /-- The arguments of the head have names that are no registers. -/
  named : Term.AllNamed args
  /-- Nothing has occurred before. -/
  fresh : e.seen = []
  /-- The head. -/
  head : R.head = headPattern name args e
  /-- It is no native clause. -/
  native : cl.native = false
  /-- The predicate. -/
  signature : cl.signature = ⟨name, args.length⟩
  /-- The code of the head. -/
  headCode : cl.block? headLabel = some ((decodeHead name args hasBody).eval e).1
  /-- A fact has no goals. -/
  fact : hasBody = false → R.body = []
  /-- The code of the body. -/
  bodyCode : hasBody = true → ∃ code, cl.block? bodyLabel = some code ∧
    Chain { op := .proceed } e.compiler ((decodeHead name args hasBody).eval e).2.seen
      ((decodeHead name args hasBody).eval e).2.constants R.body code

/-- The clause is the code of the rule. -/
def Clause.Implements (cl : Clause) (R : Rule) : Prop :=
  ∃ name args hasBody e, cl.Coded R name args hasBody e

/-- A clause that implements a rule has its signature. -/
theorem Clause.Implements.signature_eq {cl : Clause} {R : Rule} (h : cl.Implements R) :
    cl.signature = R.signature := by
  obtain ⟨name, args, hasBody, e, hc⟩ := h
  rw [hc.signature, Rule.signature, hc.head, signature_headPattern name e hc.named]

/-- The body is the first leaf. -/
theorem bodyLabel_eq : leafLabel 0 = bodyLabel := rfl

/-- **A definite clause is compiled to the code of its rule.** -/
theorem Compiler.clause_implements {c : Compiler} {t : Term} {cl : Clause} {R : Rule} (ht : t.Proper)
    (hrule : c.rule? t = some R) (hclause : (c.clause t).1 = .ok cl) :
    cl.Implements R ∧ cl.auxiliaries = [] := by
  obtain ⟨head, rule, name, args, hsplit, hname, hcl⟩ := Compiler.clause_eq_ok hclause
  obtain ⟨hhead, hbody⟩ := splitClause_proper ht hsplit
  have hargs := (headOf_proper hhead hname).named
  unfold Compiler.rule? at hrule
  rw [hsplit] at hrule
  simp only [hname] at hrule
  obtain ⟨rfl, rfl⟩ | ⟨body, b, rfl, hb, rfl⟩ := hcl
  · obtain rfl := Option.some.inj hrule
    have hlocal := (Emit.Local.decodeHead name args false c.emitter).2
    exact ⟨⟨name, args, false, c.emitter, hargs, rfl, rfl, rfl, rfl, rfl, fun _ => rfl,
      fun h => absurd h Bool.false_ne_true⟩, hlocal⟩
  · simp only [hb] at hrule
    obtain ⟨gs, hgs, rfl⟩ := Option.map_eq_some_iff.1 hrule
    have hproper : b.Proper fun _ => true :=
      Compiler.body_proper (hbody body rfl) ⟨fun _ _ => rfl, fun _ => rfl⟩ hb
    -- The body is emitted behind the head.
    let e₁ := ((decodeHead name args true).eval c.emitter).2
    have hemitted := decodeHead_emitted (e := c.emitter) name true hargs rfl
    obtain ⟨hleaves, hauxiliaries⟩ := Emit.Local.decodeHead name args true c.emitter
    obtain ⟨⟨code, hout, hchain⟩, -, -, hnone⟩ :=
      Body.fragment_chain (c.unitInfo false) true hgs (fun g hg => (hproper.calls hgs g hg).named) e₁
    have hblocks : ((b.fragment (c.unitInfo false) true).eval e₁).1.blocks = [(bodyLabel, code)] := by
      rw [hout, show e₁.leaves = 0 from hleaves, bodyLabel_eq]
      rfl
    have hcl : ((clauseOf name args (some (b.fragment (c.unitInfo false) true))).eval c.emitter).1 =
        ⟨⟨name, args.length⟩, [(headLabel, ((decodeHead name args true).eval c.emitter).1), (bodyLabel, code)],
          false, ((b.fragment (c.unitInfo false) true).eval e₁).2.auxiliaries⟩ := by
      rw [← hblocks]
      rfl
    rw [hcl]
    refine ⟨⟨name, args, true, c.emitter, hargs, rfl, rfl, rfl, rfl, rfl,
      fun h => absurd h.symm Bool.false_ne_true, fun _ => ⟨code, rfl, ?_⟩⟩, hnone.trans hauxiliaries⟩
    have hchain' := hchain.chain
    rw [show e₁.compiler = c.id from hemitted.compiler,
      show e₁.constants = _ from hemitted.constants] at hchain'
    rw [show ((decodeHead name args true).eval c.emitter).2.constants = _ from hemitted.constants]
    exact hchain'

/-- A definite clause can be compiled. -/
theorem Compiler.exists_clause {c : Compiler} {t : Term} {R : Rule} (hrule : c.rule? t = some R) :
    ∃ cl, (c.clause t).1 = .ok cl := by
  unfold Compiler.rule? at hrule
  unfold Compiler.clause
  -- Where there is a rule, the clause splits, its head has a name, and its body has a shape.
  cases hsplit : splitClause t with
  | error err => rw [hsplit] at hrule; cases hrule
  | ok parts =>
    obtain ⟨head, rule⟩ := parts
    rw [hsplit] at hrule
    cases hname : headOf head with
    | error err => simp only [hname] at hrule; cases hrule
    | ok named =>
      simp only [hname] at hrule ⊢
      cases rule with
      | none => exact ⟨_, rfl⟩
      | some body =>
        simp only at hrule ⊢
        generalize c.body false body = shape at hrule ⊢
        obtain ⟨r, c'⟩ := shape
        cases r with
        | error err => cases hrule
        | ok b => exact ⟨_, rfl⟩

/-- **A question that is a conjunction of calls is compiled to a chain of calls.** -/
theorem Compiler.query_chain {c : Compiler} {t : Term} {q : Clause} {ps : List Pattern} (ht : t.Proper)
    (hgoals : c.goals? t = some ps) (hquery : (c.query t).1 = .ok q) :
    q.isQuery = true ∧ q.auxiliaries = [] ∧ ∃ code, q.block? bodyLabel = some code ∧
      Chain { op := .end_ } c.id [] c.constants ps code := by
  obtain ⟨b, hb, rfl⟩ := Compiler.query_eq_ok hquery
  unfold Compiler.goals? at hgoals
  simp only [hb] at hgoals
  obtain ⟨gs, hgs, rfl⟩ := Option.map_eq_some_iff.1 hgoals
  have hproper : b.Proper fun _ => true :=
    Compiler.body_proper (questionGoal_proper ht) ⟨fun _ _ => rfl, fun _ => rfl⟩ hb
  obtain ⟨⟨code, hout, hchain⟩, -, -, hnone⟩ :=
    Body.fragment_chain (c.unitInfo true) true hgs (fun g hg => (hproper.calls hgs g hg).named) c.emitter
  rw [hout, Compiler.emitter_leaves, bodyLabel_eq]
  exact ⟨rfl, hnone, code, rfl, hchain.chain⟩

end PrologMachine
