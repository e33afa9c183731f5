/-
  PrologMachine.Proofs.Renumbering.Compiler ── **COMPILING A TERM AT TWO TIMES.**

  A compiler that has made other clauses before compiles a term to the same clause up to
  renumbering, and objects to it in the same way.  The auxiliary predicates of the clause are
  numbered on from those of the clauses before.

    * `auxiliaryPredicates`: the signatures of the auxiliary clauses made after the first `n`.
    * `Counterparts`: what two compilers make of one term; `Compiler.query_alike` and
      `Compiler.clause_alike` say that they do.
-/
import PrologMachine.Compiler
import PrologMachine.Proofs.Renumbering.Emission
import PrologMachine.Proofs.Signature

namespace PrologMachine

open Emit Renumbering

/-! ## §1. Auxiliary predicates. -/

/-- Auxiliary clauses of different numbers have different names. -/
theorem auxiliaryName_inj {n k : Nat} : auxiliaryName n = auxiliaryName k ↔ n = k := by
  simp [auxiliaryName, ← String.toList_inj, toDigits_inj]

/-- Their names are reserved. -/
theorem isAuxiliary_auxiliaryName (n : Nat) : isAuxiliary (auxiliaryName n) = true := by
  simp [isAuxiliary, auxiliaryName]

/-- The auxiliary predicates behind the first `n`, with the given numbers of arguments. -/
def auxiliaryPredicates (n : Nat) : List Nat → List Signature
  | [] => []
  | a :: as => ⟨auxiliaryName (n + 1), a⟩ :: auxiliaryPredicates (n + 1) as

/-- Auxiliary predicates in two parts. -/
theorem auxiliaryPredicates_append (n : Nat) (as bs : List Nat) :
    auxiliaryPredicates n (as ++ bs) =
      auxiliaryPredicates n as ++ auxiliaryPredicates (n + as.length) bs := by
  induction as generalizing n with
  | nil => rfl
  | cons a as ih =>
    rw [List.cons_append, auxiliaryPredicates, auxiliaryPredicates, ih, List.cons_append,
      List.length_cons, Nat.add_right_comm n 1, Nat.add_assoc n]

@[simp] theorem length_auxiliaryPredicates (n : Nat) (as : List Nat) :
    (auxiliaryPredicates n as).length = as.length := by
  induction as generalizing n with
  | nil => rfl
  | cons a as ih => simp [auxiliaryPredicates, ih]

/-- An auxiliary predicate behind the first `n` and its counterpart behind the first `n'`. -/
theorem mem_zip_auxiliaryPredicates {n n' : Nat} {as : List Nat} {g g' : Signature}
    (h : (g, g') ∈ (auxiliaryPredicates n as).zip (auxiliaryPredicates n' as)) :
    ∃ j a, j < as.length ∧ g = ⟨auxiliaryName (n + j + 1), a⟩ ∧
      g' = ⟨auxiliaryName (n' + j + 1), a⟩ := by
  induction as generalizing n n' with
  | nil => cases h
  | cons a as ih =>
    rcases List.mem_cons.1 h with heq | h
    · obtain ⟨rfl, rfl⟩ := Prod.mk.inj heq
      exact ⟨0, a, Nat.succ_pos _, rfl, rfl⟩
    · obtain ⟨j, a', hj, rfl, rfl⟩ := ih h
      refine ⟨j + 1, a', Nat.succ_lt_succ hj, ?_, ?_⟩ <;> simp only [Nat.add_assoc, Nat.add_comm 1]

/-- An auxiliary predicate is named by its number. -/
theorem mem_auxiliaryPredicates {n : Nat} {as : List Nat} {g : Signature}
    (h : g ∈ auxiliaryPredicates n as) :
    ∃ j, j < as.length ∧ g.name = auxiliaryName (n + j + 1) := by
  induction as generalizing n with
  | nil => cases h
  | cons a as ih =>
    rcases List.mem_cons.1 h with rfl | h
    · exact ⟨0, Nat.succ_pos _, rfl⟩
    · obtain ⟨j, hj, hname⟩ := ih h
      exact ⟨j + 1, Nat.succ_lt_succ hj, by rw [hname, Nat.add_assoc n, Nat.add_comm 1]⟩

/-- No auxiliary predicate comes twice. -/
theorem nodup_auxiliaryPredicates (n : Nat) (as : List Nat) : (auxiliaryPredicates n as).Nodup := by
  induction as generalizing n with
  | nil => exact .nil
  | cons a as ih =>
    refine List.nodup_cons.2 ⟨fun h => ?_, ih (n + 1)⟩
    obtain ⟨j, -, hname⟩ := mem_auxiliaryPredicates h
    have := auxiliaryName_inj.1 hname
    omega

namespace Renumbering

/-- The auxiliary predicates behind the first `n` are paired with those behind the first `n'`. -/
def Pairs (ρ : Renumbering) (n n' : Nat) (as : List Nat) : Prop :=
  ∀ g g', (g, g') ∈ (auxiliaryPredicates n as).zip (auxiliaryPredicates n' as) → ρ.goals g g'

/-- The renumbering that pairs these auxiliary predicates and nothing else. -/
def between (n n' : Nat) (as : List Nat) : Renumbering where
  goals g g' := (g, g') ∈ (auxiliaryPredicates n as).zip (auxiliaryPredicates n' as)
  cells _ _ := False
  auxiliary h := by
    obtain ⟨j, a, -, rfl, rfl⟩ := mem_zip_auxiliaryPredicates h
    exact ⟨isAuxiliary_auxiliaryName _, isAuxiliary_auxiliaryName _⟩
  arity h := by
    obtain ⟨j, a, -, rfl, rfl⟩ := mem_zip_auxiliaryPredicates h
    rfl
  names_inj h h' := by
    obtain ⟨j, a, -, rfl, rfl⟩ := mem_zip_auxiliaryPredicates h
    obtain ⟨k, b, -, rfl, rfl⟩ := mem_zip_auxiliaryPredicates h'
    simp only [auxiliaryName_inj]
    omega
  cells_inj h := h.elim

/-- Numbers that count from different places are paired. -/
theorem between_pairs (n n' : Nat) (as : List Nat) : (between n n' as).Pairs n n' as :=
  fun _ _ h => h

theorem Pairs.append {ρ : Renumbering} {n n' : Nat} {as bs : List Nat}
    (h : ρ.Pairs n n' (as ++ bs)) :
    ρ.Pairs n n' as ∧ ρ.Pairs (n + as.length) (n' + as.length) bs := by
  have hzip : (auxiliaryPredicates n (as ++ bs)).zip (auxiliaryPredicates n' (as ++ bs)) =
      (auxiliaryPredicates n as).zip (auxiliaryPredicates n' as) ++
        (auxiliaryPredicates (n + as.length) bs).zip (auxiliaryPredicates (n' + as.length) bs) := by
    rw [auxiliaryPredicates_append, auxiliaryPredicates_append, List.zip_append (by simp)]
  unfold Pairs at h
  rw [hzip] at h
  exact ⟨fun g g' hg => h g g' (List.mem_append_left _ hg),
    fun g g' hg => h g g' (List.mem_append_right _ hg)⟩

end Renumbering

/-! ## §2. The heads of auxiliary clauses. -/

/-- The predicates of the auxiliary clauses of a body. -/
def Body.heads : Body → List Signature
  | .conj l r | .disj l r => l.heads ++ r.heads
  | .negatedBody head b => head.signature :: b.heads
  | _ => []

/-- The signatures of the auxiliary clauses emitted so far. -/
def Emitter.heads (e : Emitter) : List Signature :=
  (Clause.descendantsOf e.auxiliaries).map Clause.signature

/-- An emitter that is local adds no head. -/
theorem Emit.Local.heads {α : Type} {x : Emit α} (hx : x.Local) (e : Emitter) :
    (x.eval e).2.heads = e.heads := by rw [Emitter.heads, (hx e).2, Emitter.heads]

/-- The auxiliary clauses of a clause are those of its body. -/
theorem clauseOf_heads (name : String) (args : List Term) (x : Emit Fragment) (e : Emitter) :
    ((clauseOf name args (some x)).eval e).1.signature = ⟨name, args.length⟩ ∧
      ((clauseOf name args (some x)).eval e).1.descendants.map Clause.signature =
        (x.eval ((decodeHead name args true).eval e).2).2.heads := by
  refine ⟨rfl, ?_⟩
  simp only [clauseOf, eval_bind, eval_pure, eval_get, Clause.descendants_mk]
  rfl

/-- A fact has the heads that the emitter has collected. -/
theorem fact_heads (name : String) (args : List Term) (e : Emitter) :
    ((clauseOf name args none).eval e).1.descendants.map Clause.signature = e.heads := by
  simp only [clauseOf, eval_bind, eval_pure, eval_get, Clause.descendants_mk]
  exact (Emit.Local.decodeHead _ _ _).heads e

/-- **The auxiliary clauses of a body come in the order of its negations.** -/
theorem Body.fragment_heads (b : Body) : ∀ (u : UnitInfo) (outermost : Bool) (e : Emitter),
    ((b.fragment u outermost).eval e).2.heads = e.heads ++ b.heads := by
  induction b with
  | conj l r ihl ihr =>
    intro u outermost e
    simp only [Body.fragment, eval_bind, eval_pure, ihr, ihl, Body.heads, List.append_assoc]
  | disj l r ihl ihr =>
    intro u outermost e
    simp only [Body.fragment, eval_bind, eval_pure, ihr, ihl, Body.heads, List.append_assoc]
  | cut => exact fun u outermost e => (List.append_nil _).symm
  | fail => exact fun u outermost e => (List.append_nil _).symm
  | succeed => exact fun u outermost e => (List.append_nil _).symm
  | call g =>
    intro u outermost e
    simp only [Body.fragment, eval_bind, eval_newLeaf, eval_pure, Body.heads, List.append_nil]
    exact (Emit.Local.callGoal _ _ _).heads _
  | negatedCall g =>
    intro u outermost e
    simp only [Body.fragment, eval_bind, eval_newLeaf, eval_pure, Body.heads, List.append_nil]
    exact (Emit.Local.callGoal _ _ _).heads _
  | negatedBody head b ih =>
    intro u outermost e
    let inner : Emit Clause :=
      clauseOf head.name head.args (some (b.fragment { u with isQuery := false } true))
    let fresh : Emitter := { compiler := e.compiler, constants := e.constants }
    -- The auxiliary clause is compiled by an emitter of its own, which starts without heads.
    have hinner : (inner.eval fresh).1.descendants.map Clause.signature = b.heads := by
      rw [(clauseOf_heads _ _ _ _).2, ih, (Emit.Local.decodeHead _ _ _).heads]
      rfl
    simp only [Body.fragment, eval_bind, eval_newLeaf, eval_pure, Body.heads]
    rw [(Emit.Local.callGoal _ _ _).heads]
    show (Clause.descendantsOf (e.auxiliaries ++ [(inner.eval fresh).1])).map Clause.signature = _
    rw [Clause.descendantsOf_append, List.map_append]
    simp only [Clause.descendantsOf, List.append_nil, List.map_cons, hinner]
    rfl
  | assign target value =>
    intro u outermost e
    simp only [Body.fragment, eval_bind, eval_newLeaf, eval_pure, Body.heads, List.append_nil]
    exact (Emit.Local.assignCode _ _).heads _
  | evaluate value =>
    intro u outermost e
    simp only [Body.fragment, eval_bind, eval_newLeaf, eval_pure, Body.heads, List.append_nil]
    exact (Emit.Local.evalOperand _).heads _

/-! ## §3. Shaping. -/

/-- What shaping comes to when `n` or `n'` auxiliary predicates were made before: both ways make as
    many more and return related results or object alike. -/
inductive Shaped {α β : Type} (R : List Nat → α → β → Prop) (n n' : Nat) :
    Except CompileError α × Nat → Except CompileError β × Nat → Prop where
  /-- Both return. -/
  | ok {x : α} {x' : β} {as : List Nat} (h : R as x x') :
    Shaped R n n' (.ok x, n + as.length) (.ok x', n' + as.length)
  /-- Both object. -/
  | error (e : CompileError) (k : Nat) : Shaped R n n' (.error e, n + k) (.error e, n' + k)

namespace Shaped

variable {α β γ δ : Type} {R : List Nat → α → β → Prop} {T : List Nat → γ → δ → Prop} {n n' : Nat}

protected theorem pure {x : α} {x' : β} (h : R [] x x') :
    Shaped R n n' ((pure x : Shaping α).run.run n) ((pure x' : Shaping β).run.run n') := .ok h

protected theorem lift {R : List Nat → α → α → Prop} {r : Except CompileError α}
    (h : ∀ x, r = .ok x → R [] x x) :
    Shaped R n n' ((ExceptT.mk (pure r) : Shaping α).run.run n)
      ((ExceptT.mk (pure r) : Shaping α).run.run n') := by
  cases r with
  | ok x => exact .ok (h x rfl)
  | error e => exact .error e 0

/-- One after another; the second starts behind the numbers of the first. -/
protected theorem bind {x : Shaping α} {x' : Shaping β} {f : α → Shaping γ} {f' : β → Shaping δ}
    (hx : Shaped R n n' (x.run.run n) (x'.run.run n'))
    (hf : ∀ {as y y'}, R as y y' → Shaped (fun bs => T (as ++ bs)) (n + as.length) (n' + as.length)
      ((f y).run.run (n + as.length)) ((f' y').run.run (n' + as.length))) :
    Shaped T n n' ((x >>= f).run.run n) ((x' >>= f').run.run n') := by
  rw [Shaping.run_bind, Shaping.run_bind]
  generalize x.run.run n = out at hx
  generalize x'.run.run n' = out' at hx
  cases hx with
  | error e k => exact .error e k
  | @ok y y' as h =>
    -- The second action starts behind the numbers that the first one took.
    have hrest := hf h
    simp only
    generalize (f y).run.run _ = out at hrest
    generalize (f' y').run.run _ = out' at hrest
    cases hrest with
    | error e k =>
      rw [Nat.add_assoc, Nat.add_assoc]
      exact .error e _
    | ok h' =>
      rw [Nat.add_assoc, Nat.add_assoc, ← List.length_append]
      exact .ok h'

end Shaped

/-- No goal has the name of an auxiliary predicate. -/
def Unreserved (goals : List Signature) : Prop := ∀ g ∈ goals, isAuxiliary g.name = false

/-- Bodies that differ in the numbers of their auxiliary predicates. -/
structure Numbered (n n' : Nat) (as : List Nat) (b b' : Body) : Prop where
  /-- The auxiliary predicates of the first. -/
  left : b.heads = auxiliaryPredicates n as
  /-- Those of the second. -/
  right : b'.heads = auxiliaryPredicates n' as
  /-- There is no other difference. -/
  bodies : ∀ ρ : Renumbering, ρ.Pairs n n' as → ρ.Bodies b b'

/-- The body of a goal that is not auxiliary. -/
theorem Body.ofGoal_numbered {isQuery : Bool} {g : Goal} {b : Body} {n n' : Nat}
    (hg : isAuxiliary g.name = false) (h : Body.ofGoal isQuery g = .ok b) :
    Numbered n n' [] b b := by
  -- None of these goals takes a number, so both sides give the same body.
  obtain rfl | rfl | rfl | hprimitive | ⟨-, rfl⟩ := Body.ofGoal_ok h
  · exact ⟨rfl, rfl, fun _ _ => .cut⟩
  · exact ⟨rfl, rfl, fun _ _ => .fail⟩
  · exact ⟨rfl, rfl, fun _ _ => .succeed⟩
  · obtain ⟨target, value, x, -, -, -, rfl⟩ | ⟨-, x, -, rfl⟩ := Body.ofPrimitive_ok hprimitive
    · exact ⟨rfl, rfl, fun _ _ => .assign _ _⟩
    · exact ⟨rfl, rfl, fun _ _ => .evaluate _⟩
  · exact ⟨rfl, rfl, fun _ _ => .call hg⟩

/-- The next auxiliary predicate. -/
theorem nextAuxiliary_shaped (t : Term) (pos : Int) (n n' : Nat) :
    Shaped (fun as head head' => as = [t.namedVars.length] ∧
        head = ⟨auxiliaryName (n + 1), t.namedVars, .none, pos⟩ ∧
        head' = ⟨auxiliaryName (n' + 1), t.namedVars, .none, pos⟩) n n'
      ((nextAuxiliary t pos).run.run n) ((nextAuxiliary t pos).run.run n') :=
  @Shaped.ok _ _ _ n n' _ _ [t.namedVars.length] ⟨rfl, rfl, rfl⟩

/-- **A term is shaped to bodies that differ in the numbers of auxiliary predicates only.** -/
theorem Body.ofTerm_numbered (isQuery : Bool) (t : Term) : Unreserved t.goals → ∀ n n' : Nat,
    Shaped (Numbered n n') n n' ((Body.ofTerm isQuery t).run.run n)
      ((Body.ofTerm isQuery t).run.run n') := by
  fun_induction Body.ofTerm isQuery t with
  | case1 isQuery l r attrs pos ihl ihr =>
    intro ht n n'
    rw [Term.goals] at ht
    refine (ihl (fun g hg => ht g (List.mem_append_left _ hg)) n n').bind fun hl =>
      (ihr (fun g hg => ht g (List.mem_append_right _ hg)) _ _).bind fun {bs _ _} hr => .pure ?_
    rw [List.append_nil]
    refine ⟨?_, ?_, fun ρ hρ => .conj (hl.bodies ρ hρ.append.1) (hr.bodies ρ hρ.append.2)⟩
    · rw [Body.heads, hl.left, hr.left, auxiliaryPredicates_append]
    · rw [Body.heads, hl.right, hr.right, auxiliaryPredicates_append]
  | case2 isQuery l r attrs pos ihl ihr =>
    intro ht n n'
    rw [Term.goals] at ht
    refine (ihl (fun g hg => ht g (List.mem_append_left _ hg)) n n').bind fun hl =>
      (ihr (fun g hg => ht g (List.mem_append_right _ hg)) _ _).bind fun {bs _ _} hr => .pure ?_
    rw [List.append_nil]
    refine ⟨?_, ?_, fun ρ hρ => .disj (hl.bodies ρ hρ.append.1) (hr.bodies ρ hρ.append.2)⟩
    · rw [Body.heads, hl.left, hr.left, auxiliaryPredicates_append]
    · rw [Body.heads, hl.right, hr.right, auxiliaryPredicates_append]
  | case3 isQuery t attrs pos ih =>
    intro ht n n'
    rw [Term.goals] at ht
    refine Shaped.bind (R := fun as g g' => as = [] ∧ g' = g ∧ Goal.ofTerm t = .ok g)
      (.lift fun g hg => ⟨rfl, rfl, hg⟩) fun {as g g'} hg => ?_
    obtain ⟨rfl, rfl, hg⟩ := hg
    -- A negated goal with control in it takes a number for its auxiliary clause; any other takes none.
    by_cases hcontrol : (g'.isControl || g'.attrs.has .primitive) = true
    · simp only [hcontrol, if_true]
      refine (nextAuxiliary_shaped t g'.position n n').bind fun {as head head'} hhead => ?_
      obtain ⟨rfl, rfl, rfl⟩ := hhead
      refine (ih ht _ _).bind fun {bs b b'} hb => .pure ?_
      rw [List.append_nil]
      refine ⟨?_, ?_, fun ρ hρ => ?_⟩
      · rw [Body.heads, hb.left]
        rfl
      · rw [Body.heads, hb.right]
        rfl
      · replace hρ : ρ.Pairs n n' ([t.namedVars.length] ++ bs) := hρ
        exact .negatedBody (hρ _ _ List.mem_cons_self) rfl rfl (hb.bodies ρ hρ.append.2)
    · have hno : g'.isControl = false := by
        cases h : g'.isControl <;> simp [h] at hcontrol ⊢
      simp only [hcontrol, Bool.false_eq_true, if_false]
      refine .pure ⟨rfl, rfl, fun _ _ => .negatedCall (ht _ (Goal.ofTerm_goals hg ?_ ?_ ?_))⟩
      · rintro l r attrs pos rfl
        obtain rfl := Except.ok.inj hg
        simp [Goal.isControl] at hno
      · rintro l r attrs pos rfl
        obtain rfl := Except.ok.inj hg
        simp [Goal.isControl] at hno
      · rintro s attrs pos rfl
        obtain rfl := Except.ok.inj hg
        simp [Goal.isControl] at hno
  | case4 isQuery t hconj hdisj hnot =>
    intro ht n n'
    refine Shaped.bind (R := fun as g g' => as = [] ∧ g' = g ∧ Goal.ofTerm t = .ok g)
      (.lift fun g hg => ⟨rfl, rfl, hg⟩) fun {as g g'} hg => ?_
    obtain ⟨rfl, rfl, hg⟩ := hg
    exact .lift fun b hb =>
      Body.ofGoal_numbered (ht _ (Goal.ofTerm_goals hg hconj hdisj hnot)) hb

/-! ## §4. Clauses and questions. -/

/-- Clauses that differ in the numbers of their auxiliary predicates and constants: those behind the
    first ones of the compilers `c` and `c'`. -/
structure Counterparts (c c' : Compiler) (as : List Nat) (k : Nat) (q q' : Clause) : Prop where
  /-- They belong to one predicate. -/
  signature : q'.signature = q.signature
  /-- The auxiliary predicates of the first. -/
  left : q.descendants.map Clause.signature = auxiliaryPredicates c.auxiliaries as
  /-- Those of the second. -/
  right : q'.descendants.map Clause.signature = auxiliaryPredicates c'.auxiliaries as
  /-- There is no other difference. -/
  clauses : ∀ ρ : Renumbering, ρ.Pairs c.auxiliaries c'.auxiliaries as →
    (ρ.reach c.constants c'.constants k).Clause q q' ∧
      (ρ.reach c.constants c'.constants k).Kin q.descendants q'.descendants

/-- The compiler after some more auxiliary predicates and constants. -/
def Compiler.after (c : Compiler) (n k : Nat) : Compiler :=
  { c with auxiliaries := c.auxiliaries + n, constants := c.constants + k }

/-- What two compilers make of one term. -/
inductive CompileAlike (c c' : Compiler) :
    Except CompileError Clause × Compiler → Except CompileError Clause × Compiler → Prop where
  /-- Both accept it. -/
  | compiled {q q' : Clause} {as : List Nat} {k : Nat} (h : Counterparts c c' as k q q') :
    CompileAlike c c' (.ok q, c.after as.length k) (.ok q', c'.after as.length k)
  /-- Both object. -/
  | refused (e : CompileError) (n : Nat) :
    CompileAlike c c' (.error e, c.after n 0) (.error e, c'.after n 0)

/-- Compilers for the same native predicates, with the same identity. -/
structure Compiler.Akin (c c' : Compiler) : Prop where
  /-- Their constants are told from those of others alike. -/
  id : c'.id = c.id
  /-- The native predicates. -/
  natives : c'.natives = c.natives
  /-- No native predicate has the name of an auxiliary one. -/
  unreserved : Unreserved c.natives

namespace Compiler

variable {c c' : Compiler} {t : Term} {b b' : Body} {as : List Nat}

/-- An auxiliary predicate is no native one. -/
theorem Akin.isNative (h : c.Akin c') {g : Signature} (hg : isAuxiliary g.name = true)
    (isQuery : Bool) : (c.unitInfo isQuery).isNative g = false := by
  show c.natives.contains g = false
  rw [List.contains_eq_mem, decide_eq_false_iff_not]
  intro hmem
  rw [h.unreserved g hmem] at hg
  cases hg

/-- Compilers that are akin compile in the same surroundings. -/
theorem Akin.unitInfo (h : c.Akin c') (isQuery : Bool) :
    c'.unitInfo isQuery = c.unitInfo isQuery := by
  rw [Compiler.unitInfo, Compiler.unitInfo, h.natives]

/-- Emitters for the first clause of two compilers. -/
theorem Akin.emitters (h : c.Akin c') (ρ : Renumbering) :
    ρ.Emitters c.constants c'.constants 0 { compiler := c.id, constants := c.constants }
      { compiler := c'.id, constants := c'.constants } :=
  ⟨h.id, rfl, rfl, rfl, rfl, rfl, rfl, .nil⟩

/-- How the body of a proper term is shaped. -/
theorem body_shaped (isQuery : Bool) (ht : t.Proper) (hgoals : Unreserved t.goals)
    (c c' : Compiler) :
    (∃ e n, c.body isQuery t = (.error e, c.after n 0) ∧
      c'.body isQuery t = (.error e, c'.after n 0)) ∨
      ∃ (as : List Nat) (b b' : Body), c.body isQuery t = (.ok b, c.after as.length 0) ∧
        c'.body isQuery t = (.ok b', c'.after as.length 0) ∧
        Numbered c.auxiliaries c'.auxiliaries as b b' ∧ b.Proper fun _ => true := by
  have hshaped := Body.ofTerm_numbered isQuery t hgoals c.auxiliaries c'.auxiliaries
  have hproper : ((Body.ofTerm isQuery t).Yields fun b => b.Proper fun _ => true) :=
    Body.ofTerm_proper isQuery t ht ⟨fun _ _ => rfl, fun _ => rfl⟩
  replace hproper := hproper c.auxiliaries
  unfold Compiler.body
  generalize (Body.ofTerm isQuery t).run.run c.auxiliaries = out at hshaped hproper
  generalize (Body.ofTerm isQuery t).run.run c'.auxiliaries = out' at hshaped
  cases hshaped with
  | error e n => exact .inl ⟨e, n, rfl, rfl⟩
  | @ok b b' as h => exact .inr ⟨as, b, b', rfl, rfl, h, hproper b _ rfl⟩

/-- Two emitters that emit alike under every renumbering have emitted as many constants. -/
theorem Akin.emits (h : c.Akin c') {α : Type} {R : Renumbering → Nat → α → α → Prop}
    {x x' : Emit α}
    (hx : ∀ ρ : Renumbering, ρ.Pairs c.auxiliaries c'.auxiliaries as →
      Emits ρ c.constants c'.constants 0 (R ρ) x x') :
    ∃ k, (c.emit x).2.constants = c.constants + k ∧ (c'.emit x').2.constants = c'.constants + k ∧
      ∀ ρ : Renumbering, ρ.Pairs c.auxiliaries c'.auxiliaries as →
        R ρ k (c.emit x).1 (c'.emit x').1 ∧
        ρ.Emitters c.constants c'.constants k (c.emit x).2 (c'.emit x').2 := by
  have hpoint := fun ρ hρ => hx ρ hρ _ _ (h.emitters ρ)
  obtain ⟨k, -, -, he⟩ := hpoint _ (between_pairs _ _ as)
  refine ⟨k, he.left, he.right, fun ρ hρ => ?_⟩
  obtain ⟨l, -, hR, he'⟩ := hpoint ρ hρ
  obtain rfl : l = k := by
    have := he.left
    have := he'.left
    omega
  exact ⟨hR, he'⟩

/-- **Compilers make counterparts of a question.** -/
theorem query_alike (hc : c.Akin c') (ht : t.Proper) (hgoals : Unreserved t.queryGoals) :
    CompileAlike c c' (c.query t) (c'.query t) := by
  have hproper := questionGoal_proper ht
  unfold Compiler.query
  rw [Term.queryGoals] at hgoals
  split
  · exact .refused _ 0
  next goal _ =>
  rcases body_shaped true hproper hgoals c c' with ⟨e, n, hb, hb'⟩ | ⟨as, b, b', hb, hb', hnum, hbp⟩
  · rw [hb, hb']
    exact .refused e n
  rw [hb, hb']
  simp only
  let u : UnitInfo := c.unitInfo true
  have hu : (c'.after as.length 0).unitInfo true = u := hc.unitInfo true
  obtain ⟨k, hk, hk', hall⟩ := hc.emits (R := fun ρ l =>
      (ρ.reach c.constants c'.constants l).Fragments) fun ρ hρ =>
    (hnum.bodies ρ hρ).fragment u true hbp fun s hs => hc.isNative hs true
  have hheads := b.fragment_heads u true { compiler := c.id, constants := c.constants }
  have hheads' := b'.fragment_heads u true { compiler := c'.id, constants := c'.constants }
  rw [hu]
  show CompileAlike c c' (.ok ⟨querySignature, (c.emit (b.fragment u true)).1.blocks, false,
      (c.emit (b.fragment u true)).2.auxiliaries⟩,
      { c.after as.length 0 with constants := (c.emit (b.fragment u true)).2.constants })
    (.ok ⟨querySignature, (c'.emit (b'.fragment u true)).1.blocks, false,
      (c'.emit (b'.fragment u true)).2.auxiliaries⟩,
      { c'.after as.length 0 with constants := (c'.emit (b'.fragment u true)).2.constants })
  rw [hk, hk']
  -- The clauses are counterparts under every renumbering that pairs the new numbers.
  refine .compiled ⟨rfl, ?_, ?_, fun ρ hρ => ?_⟩
  · rw [Clause.descendants_mk, ← hnum.left]
    exact hheads
  · rw [Clause.descendants_mk, ← hnum.right]
    exact hheads'
  · obtain ⟨hf, he⟩ := hall ρ hρ
    rw [Clause.descendants_mk, Clause.descendants_mk]
    exact ⟨⟨rfl, hf.blocks⟩, he.auxiliaries⟩

/-- **Compilers make counterparts of a clause** whose predicate is not auxiliary. -/
theorem clause_alike (hc : c.Akin c') (ht : t.Proper) (hgoals : Unreserved t.clauseGoals)
    (hhead : ∀ head rule name args, splitClause t = .ok (head, rule) →
      headOf head = .ok (name, args) → isAuxiliary name = false) :
    CompileAlike c c' (c.clause t) (c'.clause t) := by
  unfold Compiler.clause
  split
  · exact .refused _ 0
  next head rule hsplit =>
  obtain ⟨hheadProper, hrule⟩ := splitClause_proper ht hsplit
  rw [Term.clauseGoals, hsplit] at hgoals
  split
  · exact .refused _ 0
  next name args hname =>
  have hargs := headOf_proper hheadProper hname
  have haux := hhead head rule name args hsplit hname
  have hgoal : ∀ ρ : Renumbering, ρ.Goal ⟨name, args.length⟩ ⟨name, args.length⟩ :=
    fun ρ => .inl ⟨haux, rfl⟩
  -- The clause is finished in the same way with and without a body.
  have hfinish : ∀ (as : List Nat) (code code' : Option (Emit Fragment)),
      (∀ ρ : Renumbering, ρ.Pairs c.auxiliaries c'.auxiliaries as →
        Option.Rel (fun x x' => ∀ {k}, Emits ρ c.constants c'.constants k
          (fun l => (ρ.reach c.constants c'.constants l).Fragments) x x') code code') →
      (c.emit (clauseOf name args code)).1.descendants.map Clause.signature =
        auxiliaryPredicates c.auxiliaries as →
      (c'.emit (clauseOf name args code')).1.descendants.map Clause.signature =
        auxiliaryPredicates c'.auxiliaries as →
      CompileAlike c c' (.ok (c.emit (clauseOf name args code)).1,
          { c.after as.length 0 with constants := (c.emit (clauseOf name args code)).2.constants })
        (.ok (c'.emit (clauseOf name args code')).1,
          { c'.after as.length 0 with
            constants := (c'.emit (clauseOf name args code')).2.constants }) := by
    intro as code code' hcode hleft hright
    obtain ⟨k, hk, hk', hall⟩ := hc.emits fun ρ hρ => clauseOf_emits hargs (hgoal ρ) (hcode ρ hρ)
    rw [hk, hk']
    refine .compiled ⟨?_, hleft, hright, fun ρ hρ => ?_⟩
    · have hsame := (hall _ (between_pairs _ _ as)).1
      rw [hsame.left, hsame.right]
    · have hsame := (hall ρ hρ).1
      exact ⟨hsame.clause, hsame.descendants⟩
  cases rule with
  | none =>
    exact hfinish [] none none (fun _ _ => .none) (fact_heads _ _ _) (fact_heads _ _ _)
  | some body =>
    simp only at hgoals ⊢
    rcases body_shaped false (hrule body rfl) hgoals c c' with
      ⟨e, n, hb, hb'⟩ | ⟨as, b, b', hb, hb', hnum, hbp⟩
    · rw [hb, hb']
      exact .refused e n
    rw [hb, hb']
    have hu : (c'.after as.length 0).unitInfo false = c.unitInfo false := hc.unitInfo false
    simp only [hu]
    refine hfinish as (some (b.fragment (c.unitInfo false) true))
      (some (b'.fragment (c.unitInfo false) true)) (fun ρ hρ => .some fun {k} =>
        (hnum.bodies ρ hρ).fragment _ true hbp fun s hs => hc.isNative hs false) ?_ ?_
    · refine (clauseOf_heads _ _ _ _).2.trans ?_
      rw [Body.fragment_heads, (Emit.Local.decodeHead _ _ _).heads, ← hnum.left]
      rfl
    · refine (clauseOf_heads _ _ _ _).2.trans ?_
      rw [Body.fragment_heads, (Emit.Local.decodeHead _ _ _).heads, ← hnum.right]
      rfl

end Compiler

end PrologMachine
