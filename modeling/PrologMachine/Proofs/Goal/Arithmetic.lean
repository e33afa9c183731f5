/-
  PrologMachine.Proofs.Goal.Arithmetic ── **THE CODE OF AN ARITHMETIC GOAL EVALUATES IT.**

  An evaluation binds its target to a number, and a comparison goes on or fails.  The operators inside
  the operands are evaluated first, then the left operand is looked at and then the right one.

    * `Computation.evaluate`: the recursive evaluation of a goal, on a heap and the values of variables.
    * `Machine.Comes`: what becomes of the machine, for a verdict or an error.
    * `Machine.goal_computes`: the code of an `is` or of a comparison.
-/
import PrologMachine.Proofs.Goal.Evaluation

namespace PrologMachine

/-! ## §1. Goals and what they come to. -/

/-- The unbound variable that the left operand of an evaluation is; nothing for a new one. -/
def Operand.free (h : Heap) (σ : String → Option Value) : Operand → Except RunError (Option VarId)
  | .var x =>
    match σ x with
    | none => .ok none
    | some t =>
      match h.deref t with
      | .var v => .ok (some v)
      | _ => .error (.targetNotVariable (h.text t))
  | .const a => .error (.targetNotVariable (String.ofList a.chars))

/-- An arithmetic goal. -/
inductive Computation where
  /-- Evaluate an expression into a target. -/
  | assign (target : Target) (value : Arith)
  /-- Compare two expressions. -/
  | compare (op : CompareOp) (left right : Arith)

/-- The arithmetic goal that a goal is. -/
def Goal.computation (g : Goal) : Option Computation :=
  match g.args with
  | [l, r] =>
    if g.name = "is" then r.arithmetic.map (.assign (Target.ofTerm l))
    else
      match Operator.ofName? g.name with
      | some (.compare op) => do return .compare op (← l.arithmetic) (← r.arithmetic)
      | _ => none
  | _ => none

/-- The target as an operand. -/
def Target.operand : Target → Operand
  | .var x => .var x
  | .const a => .const a

/-- The variable that a target introduces: one that was not met before, or an anonymous one. -/
def Target.introduces (met : List String) : Target → List String
  | .var x => if met.contains x && !isAnonymous x then [] else [x]
  | .const _ => []

namespace Computation

/-- The variables of an arithmetic goal. -/
def names : Computation → List String
  | .assign (.var x) value => x :: value.names
  | .assign (.const _) value => value.names
  | .compare _ l r => l.names ++ r.names

/-- The variables that it introduces, when the clause has met others before. -/
def introduces (met : List String) : Computation → List String
  | .assign target value => target.introduces (value.names ++ met)
  | .compare _ _ _ => []

/-- What an arithmetic goal comes to. -/
inductive Verdict where
  /-- The variable gets the number; nothing stands for a new variable. -/
  | binds (v : Option VarId) (x : Float)
  /-- The comparison holds or not. -/
  | holds (ok : Bool)

end Computation

/-- Evaluate an arithmetic goal: first the operators inside its operands, then the left operand, then
    the right one. -/
def Computation.evaluate (met : List String) (h : Heap) (σ : String → Option Value) :
    Computation → Except RunError Verdict
  | .assign target value => do
    let b ← value.evaluate h σ
    let σ' := without (target.introduces (value.names ++ met)) σ
    let v ← target.operand.free h σ'
    let x ← b.number h σ'
    return .binds v x
  | .compare op l r => do
    let a ← l.evaluate h σ
    let b ← r.evaluate h σ
    let x ← a.number h σ
    let y ← b.number h σ
    return .holds (op.holds x y)

/-! ## §2. What the compiler makes of them. -/

/-- The body that it makes of an arithmetic goal; the flag is that of a comparison. -/
def Computation.body (keeps : Bool) : Computation → Body
  | .assign target value => .assign target value.expr
  | .compare op l r => .evaluate (.apply (.compare op) keeps l.expr r.expr)

/-- No variable of an arithmetic goal is a register. -/
def Computation.Proper : Computation → Prop
  | .assign target value => target.Proper ∧ value.expr.Proper
  | .compare _ l r => l.expr.Proper ∧ r.expr.Proper

/-- **An arithmetic goal is compiled as what it is.** -/
theorem Goal.computation_body {g : Goal} {p : Computation} {b : Body} (hg : g.Proper)
    (hp : g.computation = some p) (hb : Body.ofPrimitive g = .ok b) :
    p.Proper ∧ ∃ keeps, b = p.body keeps := by
  obtain ⟨name, args, attrs, pos⟩ := g
  unfold Goal.computation at hp
  split at hp
  -- The goal has two arguments, as `is` and the comparisons have.
  · next l r hargs =>
    obtain rfl : args = [l, r] := hargs
    obtain ⟨hl, hr, -⟩ := hg.args
    split at hp
    · next hname =>
      obtain rfl : name = "is" := hname
      obtain ⟨a, ha, rfl⟩ := Option.map_eq_some_iff.1 hp
      obtain ⟨_, _, x, -, hargs, hx, rfl⟩ | ⟨hother, -⟩ := Body.ofPrimitive_ok hb
      · obtain ⟨rfl, rfl⟩ : l = _ ∧ r = _ := by simpa using hargs
        obtain rfl := Expr.ofTerm_arithmetic r hr ha hx
        exact ⟨⟨Target.ofTerm_proper hl, Expr.ofTerm_proper r hr _ hx⟩, false, rfl⟩
      · exact absurd rfl (hother rfl)
    -- Any other goal that computes is a comparison.
    · next hname =>
      split at hp
      · next op hop =>
        obtain ⟨a, ha, hp⟩ := Option.bind_eq_some_iff.1 hp
        obtain ⟨c, hc, hp⟩ := Option.bind_eq_some_iff.1 hp
        obtain rfl := Option.some.inj hp
        obtain ⟨_, _, _, hname', -⟩ | ⟨-, x, hx, rfl⟩ := Body.ofPrimitive_ok hb
        · exact absurd hname' hname
        · obtain ⟨op', y, z, hop', hy, hz, rfl⟩ := Expr.ofApp_pair_ok hx
          obtain rfl : op' = .compare op := Option.some.inj (hop'.symm.trans hop)
          obtain rfl := Expr.ofTerm_arithmetic l hl ha hy
          obtain rfl := Expr.ofTerm_arithmetic r hr hc hz
          exact ⟨⟨Expr.ofTerm_proper l hl _ hy, Expr.ofTerm_proper r hr _ hz⟩, _, rfl⟩
      · cases hp
  · cases hp

open Emit in
/-- A target that is a variable is a known one, unless it occurs for the first time or is anonymous. -/
theorem eval_pushTarget_var (x : String) (e : Emitter) : ((pushTarget (.var x)).eval e).1 =
    { op := if e.seen.contains x && !isAnonymous x then .pushValue else .pushVar, name := x } := by
  simp only [pushTarget, eval_bind, eval_ite, eval_pure, eval_occurs]
  cases e.seen.contains x <;> cases isAnonymous x <;> simp

namespace Machine

open Exec

variable {w : World} {c : Clause} {label : String} {i j k n low low' : Nat} {block : Code}
  {instr : Instruction} {m m₀ m' m'' : Machine} {R N : Set String} {x y : String} {t u : Value}
  {h h' : Heap} {σ : String → Option Value} {s : StructId} {a b : Operand} {pa pb : Instruction}

/-! ## §3. Into a target. -/

/-- The machine with a variable bound to a new number and recorded on the trail of the frame `top`. -/
def assigned (m : Machine) (top : FrameId) (v : VarId) (x : Float) : Machine :=
  { m with
    heap := (m.heap.newConst (.number x)).2.set v (.const ⟨.number x, .heap m.heap.constants⟩)
    success := true }.changeFrame top (fun fr => { fr with trail := v :: fr.trail })

theorem remains_assigned {top : FrameId} {v : VarId} {x : Float} : Remains m (m.assigned top v x) :=
  ⟨rfl, rfl, rfl, rfl, rfl, frames_size_changeFrame, rfl⟩

/-- A target that is no unbound variable stops the machine. -/
theorem eval_assign_bound (hs : m.value? scratchRegister = some (.struct s))
    (hargs : (m.heap.structCell s).args = [t, u]) (hd : ∀ v, m.heap.deref t ≠ .var v) :
    eval assign m = (.error (.running (.targetNotVariable (m.heap.text t))), m) := by
  rw [assign, eval_bind, eval_operands hs hargs]
  simp only [eval_bind, eval_deref]
  cases hdt : m.heap.deref t with
  | var v => exact absurd hdt (hd v)
  | _ => rfl

/-- So does a value that is no number. -/
theorem eval_assign_error {v : VarId} {e : RunError} (hs : m.value? scratchRegister = some (.struct s))
    (hargs : (m.heap.structCell s).args = [t, u]) (hd : m.heap.deref t = .var v)
    (hu : m.heap.operand u = .error e) : eval assign m = (.error (.running e), m) := by
  rw [assign, eval_bind, eval_operands hs hargs]
  simp only [eval_bind, eval_deref, hd, eval_number, hu]

/-- An unbound variable is bound to the number. -/
theorem eval_assign_value {top : FrameId} {v : VarId} {x : Float} (htop : m.top? = some top)
    (hs : m.value? scratchRegister = some (.struct s))
    (hargs : (m.heap.structCell s).args = [t, u]) (hd : m.heap.deref t = .var v)
    (hfree : m.heap.binding? v = none) (hu : m.heap.operand u = .ok x) :
    eval assign m = (.ok (), m.assigned top v x) := by
  have htop' : { m with heap := (m.heap.newConst (.number x)).2 }.top? = some top := htop
  rw [assign, eval_bind, eval_operands hs hargs]
  simp only [eval_bind, eval_deref, hd, eval_number, hu, eval_newNumber]
  rw [eval_bind_free (by simpa using hfree) (by simp) (by simp)]
  simp only [bindVar, trail, htop']
  rfl

/-- A left operand that evaluation accepts stands for an unbound variable. -/
theorem Means.free_ok {o : Operand} {p : Option VarId} (ht : Means m o t) (hr : Renders h σ m) (hm : m.Memory)
    (ho : Operand.Proper o) (hp : o.free h σ = .ok p) : ∃ v, m.heap.deref t = .var v ∧
      (p = some v ∨ p = none ∧ h.vars.size ≤ v ∧ ∃ x, o = .var x ∧ m.value? x = some (.var v)) := by
  cases o with
  | const a => cases hp
  | var x =>
    have hvalue : m.value? x = some t := ht
    rcases hr.entries x ho with heq | ⟨hσ, v, hv, hnew, -, -⟩
    · rw [hvalue] at heq
      rw [Operand.free, ← heq] at hp
      rw [hr.heap.deref hr.good hm.good]
      simp only at hp
      split at hp
      · next v hd => exact ⟨v, hd, .inl (Except.ok.inj hp).symm⟩
      · cases hp
    · rw [Operand.free, hσ] at hp
      rw [hvalue] at hv
      obtain rfl := Option.some.inj hv
      exact ⟨v, Heap.deref_free (hr.heap.unbound v hnew), .inr ⟨(Except.ok.inj hp).symm, hnew, x, rfl, hvalue⟩⟩

/-- One that it does not accept stands for something else. -/
theorem Means.free_error {o : Operand} {e : RunError} (ht : Means m o t) (hr : Renders h σ m) (hm : m.Memory)
    (ho : Operand.Proper o) (he : o.free h σ = .error e) :
    (∀ v, m.heap.deref t ≠ .var v) ∧ e = .targetNotVariable (m.heap.text t) := by
  cases o with
  | const a =>
    obtain ⟨k, rfl, rfl⟩ := ht
    exact ⟨fun v hd => (Value.noConfusion (hd : Value.const k = .var v)), (Except.error.inj he).symm⟩
  | var x =>
    have hvalue : m.value? x = some t := ht
    rcases hr.entries x ho with heq | ⟨hσ, -⟩
    · rw [hvalue] at heq
      have hheld := hr.held x t ho heq.symm
      rw [Operand.free, ← heq] at he
      rw [hr.heap.deref hr.good hm.good, hr.heap.text hr.good hm.good hheld]
      simp only at he
      split at he
      · cases he
      · next hd => exact ⟨hd, (Except.error.inj he).symm⟩
    · rw [Operand.free, hσ] at he
      cases he

/-! ## §4. What a goal comes to. -/

/-- **What becomes of the machine `m` when it runs the code of an arithmetic goal from instruction `i` on**,
    where the last instruction is number `k` of the code, and the goal comes to a verdict or an error.  Up
    to that point nothing but new results and new cells changes; `h` has the cells that were there before. -/
inductive Comes (w : World) (c : Clause) (label : String) (block : Code) (top : FrameId) (h : Heap)
    (p : Computation) (R N : Set String) (low i k : Nat) (m : Machine) :
    Except RunError Computation.Verdict → Prop where
  /-- The last instruction binds and records an unbound variable, the new one of the target or another. -/
  | binds {m' : Machine} {instr : Instruction} {o : Option VarId} {v : VarId} {x : Float}
    (hp : Passes w c label i k m m') (hs : Spares R N low m m') (hi : block[i + k]? = some instr)
    (hfree : m'.heap.binding? v = none)
    (hv : o = some v ∨ o = none ∧ h.vars.size ≤ v ∧
      ∃ y value, p = .assign (.var y) value ∧ m'.value? y = some (.var v))
    (hlast : Passes w c label (i + k) 1 m' ((m'.counted w instr).assigned top v x)) :
    Comes w c label block top h p R N low i k m (.ok (.binds o x))
  /-- The comparison holds: the clause goes on. -/
  | holds {m' : Machine} (hp : Passes w c label i (k + 1) m m') (hs : Spares R N low m m')
    (hsuccess : m'.success = true) : Comes w c label block top h p R N low i k m (.ok (.holds true))
  /-- It does not hold: the last instruction is a failure. -/
  | fails {m' : Machine} {instr : Instruction} (hp : Passes w c label i k m m') (hs : Spares R N low m m')
    (hi : block[i + k]? = some instr)
    (hlast : m'.advance w = { m'.counted w instr with success := false }.perform failure) :
    Comes w c label block top h p R N low i k m (.ok (.holds false))
  /-- An instruction stops the machine. -/
  | stops {j : Nat} {m' : Machine} {instr : Instruction} {e : RunError} (hj : j ≤ k)
    (hp : Passes w c label i j m m') (hs : Spares R N low m m') (hi : block[i + j]? = some instr)
    (hstop : m'.advance w = (m'.counted w instr).fault (.running e)) :
    Comes w c label block top h p R N low i k m (.error e)

variable {top : FrameId} {p : Computation} {α : Type} {P : α → Machine → Prop} {r : Except RunError α}
  {f : α → Except RunError Computation.Verdict}

/-- A goal goes on where the evaluation of an operand ends. -/
theorem Comes.after (hr : Evaluates w c label block N low i n m P r) (hle : low ≤ low')
    (hf : ∀ a m', Passes w c label i n m m' → m'.Memory → Spares ∅ N low m m' → P a m' →
      Comes w c label block top h p R N low' (i + n) k m' (f a)) :
    Comes w c label block top h p R N low i (n + k) m (r >>= f) := by
  cases hr with
  | @value a m₁ hp hm hs ha =>
    have hrest := hf a m₁ hp hm hs ha
    have hs₁ : Spares R N low m m₁ := hs.mono (fun x hx => absurd hx (Set.notMem_empty x)) (Nat.le_refl _)
    -- What comes after the first part has its place behind it.
    show Comes w c label block top h p R N low i (n + k) m (f a)
    generalize f a = r' at hrest
    cases hrest with
    | binds hp' hs' hi hfree hv hlast =>
      rw [Nat.add_assoc] at hi hlast
      exact .binds (hp.trans hp') (hs₁.trans hs' hle) hi hfree hv hlast
    | holds hp' hs' hsuccess => exact .holds (hp.trans hp') (hs₁.trans hs' hle) hsuccess
    | fails hp' hs' hi hlast =>
      rw [Nat.add_assoc] at hi
      exact .fails (hp.trans hp') (hs₁.trans hs' hle) hi hlast
    | stops hj hp' hs' hi hstop =>
      rw [Nat.add_assoc] at hi
      exact .stops (Nat.add_le_add_left hj n) (hp.trans hp') (hs₁.trans hs' hle) hi hstop
  | stops hj hp hs hi hstop =>
    exact .stops (Nat.le_add_right_of_le hj.le) hp
      (hs.mono (fun x hx => absurd hx (Set.notMem_empty x)) (Nat.le_refl _)) hi hstop

/-! ## §5. Operands at hand. -/

/-- **A comparison of operands that are at hand.** -/
theorem comparison_comes (op : CompareOp) {y : String} (hr : Renders h σ m) (hm : m.Memory)
    (hcurrent : m.current < m.frames.size) (ha : Carries N low m pa a) (hb : Carries N low m pb b)
    (hat : At c label i m) (hblock : c.block? label = some block)
    (hcode : Segment block i [{ op := .prepare }, pa, pb, { op := op.opcode, result := y }])
    (hroom : Room w 4 m) :
    Comes w c label block top h p ∅ N low i 3 m
      (do let x ← a.number h σ; let y ← b.number h σ; return .holds (op.holds x y)) := by
  -- The two operands are gathered first, by three instructions.
  have hoperands : Segment block i [{ op := .prepare }, pa, pb] := Segment.left hcode
  obtain ⟨t, u, m₁, hp, hg, ht, hu⟩ := gather hr hm hcurrent ha hb hat hblock hoperands (hroom.mono (by omega))
  obtain ⟨s, -, -, hs, hargs⟩ := hg.scratch
  have hta := ht.number hg.renders hg.memory ha.proper
  have hub := hu.number hg.renders hg.memory hb.proper
  have hat₁ : At c label (i + 3) m₁ := hp.behind
  have hroom₁ : Room w 1 m₁ := hroom.mono (by rw [hp.steps])
  let instr : Instruction := { op := op.opcode, result := y }
  have hi : block[i + 3]? = some instr := hcode.tail.tail.tail.head
  have hexecute : execute w instr = applyOperator instr (.compare op) := by cases op <;> rfl
  have hadvance : m₁.advance w = (m₁.counted w instr).perform (applyOperator instr (.compare op)) := by
    rw [hat₁.advance_eq hblock hi hroom₁, hexecute]
  -- An operand without a number stops the machine at the fourth one.
  have hstop : ∀ e, eval (applyOperator instr (.compare op)) (m₁.counted w instr) =
      (.error (.running e), m₁.counted w instr) → Comes w c label block top h p ∅ N low i 3 m (.error e) := by
    intro e heval
    refine .stops (Nat.le_refl 3) hp hg.spares hi ?_
    rw [hadvance, perform_eq, heval]
  cases hx : a.number h σ with
  | error e => exact hstop e (eval_applyOperator_error hs hargs (.inl (hta.trans hx)))
  | ok x =>
    cases hy : b.number h σ with
    | error e => exact hstop e (eval_applyOperator_error hs hargs (.inr ⟨x, hta.trans hx, hub.trans hy⟩))
    | ok y =>
      show Comes w c label block top h p ∅ N low i 3 m (.ok (.holds (op.holds x y)))
      have heval : eval (applyOperator instr (.compare op)) (m₁.counted w instr) =
          if op.holds x y then (.ok (), { m₁.counted w instr with success := true })
          else eval failure { m₁.counted w instr with success := false } :=
        eval_applyOperator_compare hs hargs (hta.trans hx) (hub.trans hy)
      -- A comparison that does not hold is a failure.
      cases hholds : op.holds x y with
      | true =>
        rw [hholds, if_pos rfl] at heval
        have hlast : Passes w c label (i + 3) 1 m₁ { m₁.counted w instr with success := true } :=
          .one hat₁ hblock hi hroom₁ (hexecute ▸ heval) ⟨rfl, rfl, rfl, rfl, rfl, rfl, rfl⟩
        exact .holds (hp.trans hlast) (hg.spares.counted.flagged true) rfl
      | false =>
        rw [hholds, if_neg Bool.false_ne_true] at heval
        refine .fails hp hg.spares hi ?_
        rw [hadvance, perform_eq, heval]
        rfl

/-- The target is pushed first, as a new variable where it introduces one. -/
theorem Gathered.pushTarget {met : List String} {e : Emitter} {target : Target}
    (hg : Gathered h σ {x | x ∈ target.introduces met} N low m₀ [] m)
    (hh : h.structs.size ≤ m₀.heap.structs.size) (hmet : ∀ y, y ∈ met ↔ y ∈ e.seen) (ht : target.Proper)
    (hN : ∀ x, target = .var x → x ∈ N) (hat : At c label i m) (hblock : c.block? label = some block)
    (hi : block[i]? = some ((PrologMachine.pushTarget target).eval e).1) (hroom : Room w 1 m) :
    ∃ t m', Passes w c label i 1 m m' ∧
      Gathered h (without (target.introduces met) σ) {x | x ∈ target.introduces met} N low m₀ [t] m' ∧
      Means m' target.operand t := by
  cases target with
  | const d =>
    obtain ⟨t, m', hp, hg', ht, -⟩ := hg.push hh (pushConst_carries d e N low m₀) hat hblock hi hroom
    refine ⟨t, m', hp, ?_, ht⟩
    rwa [without_eq (by simp [Target.introduces])]
  -- A variable that was met already is pushed as it stands.
  | var x =>
    have hx : isRegister x = false := ht
    have hcontains : e.seen.contains x = met.contains x := by
      rw [Bool.eq_iff_iff, List.contains_iff_mem, List.contains_iff_mem, hmet]
    cases hknown : met.contains x && !isAnonymous x with
    | true =>
      have hnone : (Target.var x).introduces met = [] := if_pos hknown
      rw [eval_pushTarget_var, hcontains, hknown, if_pos rfl] at hi
      obtain ⟨t, m', hp, hg', ht, -⟩ := hg.push hh (.var (hN x rfl) hx) hat hblock hi hroom
      refine ⟨t, m', hp, ?_, ht⟩
      rwa [hnone, without_eq (by simp), ← hnone]
    -- A new one is made, and named by the instruction.
    | false =>
      have hnew : (Target.var x).introduces met = [x] := if_neg (by rw [hknown]; exact Bool.false_ne_true)
      rw [eval_pushTarget_var, hcontains, hknown, if_neg Bool.false_ne_true] at hi
      obtain ⟨s, -, -, hs, -⟩ := hg.scratch
      let instr : Instruction := { op := .pushVar, name := x }
      let m' : Machine := { (m.counted w instr).setVar (m.heap.fresh x).2 x (.var m.heap.vars.size) with
        heap := (m.heap.fresh x).2.pushArg s (.var m.heap.vars.size) }
      have heval : eval (execute w instr) (m.counted w instr) = (.ok (), m') :=
        eval_pushVar (m := m.counted w instr) (ne_scratchRegister hx) hs
      have hsize : m'.frames.size = m.frames.size := frames_size_changeFrame
      have hmem : x ∈ {y | y ∈ (Target.var x).introduces met} := by
        rw [hnew]
        exact List.mem_singleton_self x
      have hcounted : Gathered _ _ _ _ _ _ _ (m.counted w instr) := hg.counted
      have hfresh := hcounted.pushFresh hh (hN x rfl) hx (.inl hmem) hs
      refine ⟨.var m.heap.vars.size, m', .one hat hblock hi hroom heval ⟨rfl, rfl, rfl, rfl, rfl, hsize, rfl⟩,
        ?_, ?_⟩
      · rw [hnew] at hfresh ⊢
        exact hfresh
      · have hvalue : m'.value? x = if x = x then some (.var m.heap.vars.size) else m.value? x :=
          value?_setVar (m := m.counted w instr) hg.current
        exact hvalue.trans (if_pos rfl)

/-- **An evaluation of an operand that is at hand, into a target.**  The target is looked at before the
    operand is converted. -/
theorem assignment_comes {met : List String} {e : Emitter} {target : Target} {value : Arith} {y : String}
    (htop : m.top? = some top) (hr : Renders h σ m) (hm : m.Memory)
    (hcurrent : m.current < m.frames.size) (hb : Carries N low m pb b)
    (hmet : ∀ y, y ∈ met ↔ y ∈ e.seen) (ht : target.Proper) (hN : ∀ x, target = .var x → x ∈ N)
    (hat : At c label i m) (hblock : c.block? label = some block)
    (hcode : Segment block i [{ op := .prepare }, ((PrologMachine.pushTarget target).eval e).1, pb,
      { op := .is, result := y }]) (hroom : Room w 4 m) :
    Comes w c label block top h (.assign target value) {x | x ∈ target.introduces met} N low i 3 m
      (do
        let σ' := without (target.introduces met) σ
        let v ← target.operand.free h σ'
        let x ← b.number h σ'
        return .binds v x) := by
  have hh : h.structs.size ≤ m.heap.structs.size := hr.heap.structs
  -- The structure for the operands is made, and both operands are pushed to it.
  obtain ⟨m₁, hp₁, hg₁⟩ := Gathered.start hm hcurrent hr hat hblock hcode.head (hroom.mono (by omega))
    {x | x ∈ target.introduces met} N low
  have hsteps₁ := hp₁.steps
  obtain ⟨t, m₂, hp₂, hg₂, ht₂⟩ := hg₁.pushTarget hh hmet ht hN hp₁.behind hblock hcode.tail.head
    (hroom.mono (by omega))
  have hsteps₂ := hp₂.steps
  obtain ⟨u, m₃, hp₃, hg₃, hu, hkeep⟩ := hg₂.push hh hb (hp₁.trans hp₂).behind hblock hcode.tail.tail.head
    (hroom.mono (by omega))
  have hsteps₃ := hp₃.steps
  have hp : Passes w c label i 3 m m₃ := (hp₁.trans hp₂).trans hp₃
  have htarget : Means m₃ target.operand t := hkeep _ t ht₂
  have hproper : Operand.Proper target.operand := by
    cases target with
    | var x => exact ht
    | const d => trivial
  obtain ⟨s, -, -, hs, hargs⟩ := hg₃.scratch
  have hub := hu.number hg₃.renders hg₃.memory hb.proper
  have hat₃ : At c label (i + 3) m₃ := hp.behind
  let instr : Instruction := { op := .is, result := y }
  have hi : block[i + 3]? = some instr := hcode.tail.tail.tail.head
  have htop₃ : (m₃.counted w instr).top? = some top := by
    rw [← htop]
    exact congrArg Array.back? hp.stack
  have hroom₃ : Room w 1 m₃ := hroom.mono (by omega)
  have hadvance : m₃.advance w = (m₃.counted w instr).perform assign := hat₃.advance_eq hblock hi hroom₃
  -- An error of the evaluation is an error of the instruction.
  have hstop : ∀ e, eval assign (m₃.counted w instr) = (.error (.running e), m₃.counted w instr) →
      Comes w c label block top h (.assign target value) {x | x ∈ target.introduces met} N low i 3 m
        (.error e) := by
    intro e heval
    refine .stops (Nat.le_refl 3) hp hg₃.spares hi ?_
    rw [hadvance, perform_eq, heval]
  show Comes w c label block top h (.assign target value) {x | x ∈ target.introduces met} N low i 3 m
    (do
      let v ← target.operand.free h (without (target.introduces met) σ)
      let x ← b.number h (without (target.introduces met) σ)
      return .binds v x)
  -- The target is looked at first, then the value.
  cases hfree : target.operand.free h (without (target.introduces met) σ) with
  | error e =>
    obtain ⟨hd, rfl⟩ := htarget.free_error hg₃.renders hg₃.memory hproper hfree
    exact hstop _ (eval_assign_bound hs hargs hd)
  | ok o =>
    obtain ⟨v, hd, ho⟩ := htarget.free_ok hg₃.renders hg₃.memory hproper hfree
    cases hx : b.number h (without (target.introduces met) σ) with
    | error e => exact hstop e (eval_assign_error hs hargs hd (hub.trans hx))
    | ok x =>
      have hv : m₃.heap.binding? v = none := hg₃.memory.good.binding?_of_deref hd
      have heval : eval assign (m₃.counted w instr) = (.ok (), (m₃.counted w instr).assigned top v x) :=
        eval_assign_value htop₃ hs hargs hd hv (hub.trans hx)
      refine .binds hp hg₃.spares hi hv ?_ (.one hat₃ hblock hi hroom₃ heval ?_)
      · refine ho.imp_right ?_
        rintro ⟨hnone, hnew, y, hy, hvalue⟩
        refine ⟨hnone, hnew, y, value, ?_, hvalue⟩
        cases target with
        | var z => rw [Operand.var.inj hy]
        | const d => cases hy
      · exact remains_assigned

/-! ## §6. Arithmetic goals. -/

/-- The code of a comparison. -/
theorem comparison_computes (op : CompareOp) {l r : Arith} {e : Emitter} {y : String}
    (hl : l.expr.Proper) (hr : r.expr.Proper) (hblock : c.block? label = some block)
    (hat : At c label i m) (hm : m.Memory) (hcurrent : m.current < m.frames.size) :
    let a := (evalOperand l.expr).eval e
    let b := (evalOperand r.expr).eval a.2
    Segment block i (a.1.1 ++ b.1.1 ++ [{ op := .prepare }, a.1.2, b.1.2, { op := op.opcode, result := y }]) →
    Room w (a.1.1.length + (b.1.1.length + 4)) m →
    Comes w c label block top m.heap (.compare op l r) ∅ {x | x ∈ l.names ++ r.names} e.results i
      (a.1.1.length + (b.1.1.length + 3)) m ((Computation.compare op l r).evaluate e.seen m.heap m.value?) := by
  intro a b hcode hroom
  -- The right operand stands behind the left one.
  have hright := hcode.right
  rw [List.length_append, ← Nat.add_assoc] at hright
  have hrenders : Renders m.heap m.value? m := .refl hm
  have hle₁ : e.results ≤ a.2.results := results_evalOperand l.expr e
  have hle₂ : a.2.results ≤ b.2.results := results_evalOperand r.expr a.2
  have hroom₁ : Room w a.1.1.length m := hroom.mono (by omega)
  -- Each operand may stop the comparison; otherwise it leaves a value.
  have hleft := evalOperand_computes hblock l hl (N := {x | x ∈ l.names ++ r.names})
    (fun x hx => List.mem_append_left _ hx) hrenders hm hcurrent hat hcode.left.left hroom₁
  refine Comes.after hleft hle₁ fun o₁ m₁ hp₁ hm₁ hs₁ ho₁ => ?_
  have hcurrent₁ : m₁.current < m₁.frames.size := by rw [hp₁.current, hp₁.frames]; exact hcurrent
  have hsteps₁ : m₁.steps = m.steps + a.1.1.length := hp₁.steps
  have hroom₂ : Room w b.1.1.length m₁ := hroom.mono (by omega)
  have hrest := evalOperand_computes hblock r hr (N := {x | x ∈ l.names ++ r.names})
    (fun x hx => List.mem_append_right _ hx) (hrenders.spares hs₁) hm₁ hcurrent₁ hp₁.behind
    hcode.left.right hroom₂
  refine Comes.after hrest hle₂ fun o₂ m₂ hp₂ hm₂ hs₂ ho₂ => ?_
  have hcurrent₂ : m₂.current < m₂.frames.size := by rw [hp₂.current, hp₂.frames]; exact hcurrent₁
  have hsteps₂ : m₂.steps = m₁.steps + b.1.1.length := hp₂.steps
  exact comparison_comes op ((hrenders.spares hs₁).spares hs₂) hm₂ hcurrent₂ (ho₁.spares hs₂ hle₂) ho₂
    hp₂.behind hblock hright (hroom.mono (by omega))

/-- The code of an evaluation into a target. -/
theorem assignment_computes {target : Target} {value : Arith} {e : Emitter}
    (ht : target.Proper) (hv : value.expr.Proper) (hblock : c.block? label = some block)
    (hat : At c label i m) (hm : m.Memory) (hcurrent : m.current < m.frames.size) (htop : m.top? = some top) :
    let p := Computation.assign target value
    let code := ((assignCode target value.expr).eval e).1
    Segment block i code → Room w code.length m →
    Comes w c label block top m.heap p {x | x ∈ p.introduces e.seen} {x | x ∈ p.names} e.results i
      (code.length - 1) m (p.evaluate e.seen m.heap m.value?) := by
  intro p code hcode hroom
  let b := (evalOperand value.expr).eval e
  let pt := (PrologMachine.pushTarget target).eval b.2
  change Segment block i (b.1.1 ++ [{ op := .prepare }, pt.1, b.1.2, { op := .is, result := _ }]) at hcode
  have hlength : code.length = b.1.1.length + 4 := List.length_append
  rw [hlength] at hroom ⊢
  -- The names of the value and of the target are names of the goal.
  have hN : ∀ x ∈ value.names, x ∈ {x | x ∈ p.names} := by
    cases target with
    | var y => exact fun x hx => List.mem_cons_of_mem y hx
    | const d => exact fun x hx => hx
  have hNt : ∀ x, target = .var x → x ∈ {x | x ∈ p.names} := by
    rintro x rfl
    exact List.mem_cons_self
  have hrenders : Renders m.heap m.value? m := .refl hm
  have hle : e.results ≤ b.2.results := results_evalOperand value.expr e
  have hroom₁ : Room w b.1.1.length m := hroom.mono (by omega)
  -- The value comes first, the target behind it.
  have hvalue := evalOperand_computes hblock value hv hN hrenders hm hcurrent hat hcode.left hroom₁
  refine Comes.after hvalue hle fun o₁ m₁ hp₁ hm₁ hs₁ ho₁ => ?_
  have hcurrent₁ : m₁.current < m₁.frames.size := by rw [hp₁.current, hp₁.frames]; exact hcurrent
  have hsteps₁ : m₁.steps = m.steps + b.1.1.length := hp₁.steps
  have htop₁ : m₁.top? = some top := by
    rw [← htop]
    exact congrArg Array.back? hp₁.stack
  have hmet : ∀ y, y ∈ value.names ++ e.seen ↔ y ∈ b.2.seen := fun y => by
    rw [mem_seen_evalOperand, List.mem_append]
  exact assignment_comes htop₁ (hrenders.spares hs₁) hm₁ hcurrent₁ ho₁ hmet ht hNt hp₁.behind hblock
    hcode.right (hroom.mono (by omega))

/-- **The code of an arithmetic goal evaluates it.**  The fragment of the goal is one block, the code and
    behind it the end of the body. -/
theorem goal_computes {g : Goal} {p : Computation} {b : Body} {u : UnitInfo} {outermost : Bool} {e : Emitter}
    (hg : g.Proper) (hp : g.computation = some p) (hb : Body.ofPrimitive g = .ok b) :
    ∃ code, ((b.fragment u outermost).eval e).1.blocks = [(leafLabel e.leaves, code ++ [u.tail])] ∧
      ∀ {w : World} {c : Clause} {label : String} {block : Code} {i : Nat} {m : Machine} {top : FrameId},
        c.block? label = some block → Segment block i code → At c label i m → m.Memory →
        m.current < m.frames.size → m.top? = some top → Room w code.length m →
        Comes w c label block top m.heap p {x | x ∈ p.introduces e.seen} {x | x ∈ p.names} e.results i
          (code.length - 1) m (p.evaluate e.seen m.heap m.value?) := by
  obtain ⟨hproper, keeps, rfl⟩ := Goal.computation_body hg hp hb
  cases p with
  -- The goal is a single leaf, so that its code is the leaf's without the tail.
  | assign target value =>
    refine ⟨((assignCode target value.expr).eval { e with leaves := e.leaves + 1 }).1, rfl, ?_⟩
    intro w c label block i m top hblock hcode hat hm hcurrent htop hroom
    exact assignment_computes hproper.1 hproper.2 hblock hat hm hcurrent htop hcode hroom
  | compare op l r =>
    let e' : Emitter := { e with leaves := e.leaves + 1 }
    let a := (evalOperand l.expr).eval e'
    let b := (evalOperand r.expr).eval a.2
    let y := ((if keeps then Emit.newResult else pure "" : Emit String).eval b.2).1
    let own := a.1.1 ++ b.1.1 ++ [{ op := .prepare }, a.1.2, b.1.2, { op := op.opcode, result := y }]
    have hlength : own.length = a.1.1.length + (b.1.1.length + 4) := by
      simp only [own, List.length_append, Nat.add_assoc]
      rfl
    refine ⟨own, by cases keeps <;> rfl, ?_⟩
    intro w c label block i m top hblock hcode hat hm hcurrent _ hroom
    rw [hlength] at hroom ⊢
    rw [show {x | x ∈ (Computation.compare op l r).introduces e.seen} = (∅ : Set String) from
      Set.eq_empty_of_forall_notMem fun x hx => List.not_mem_nil hx]
    exact comparison_computes op hproper.1 hproper.2 hblock hat hm hcurrent hcode hroom

/-- The goal `Y is -X + 2`. -/
def lowered : Goal where
  name := "is"
  args := [.var "Y" 0,
    .app "+" [.app "-" [.var "X" 0] .toEvaluate 0, .const (.number 2) 0] .toEvaluate 0]
  attrs := .primitive
  position := 0

/-- What it evaluates. -/
def loweredSum : Arith := .apply .plus (.neg (.var "X")) (.const (.number 2))

/-- The goal `X + 1 < 7`. -/
def bounded : Goal where
  name := "<"
  args := [.app "+" [.var "X" 0, .const (.number 1) 0] .toEvaluate 0, .const (.number 7) 0]
  attrs := comparisonAttrs
  position := 0

/-- What it compares with 7. -/
def boundedSum : Arith := .apply .plus (.var "X") (.const (.number 1))

/-- The emitter of their code, where `X` has occurred. -/
def behindX : Emitter := { compiler := 0, constants := 0, seen := ["X"] }

/-- The code of the first goal. -/
def loweredCode : Code :=
  ((assignCode (.var "Y") loweredSum.expr).eval { behindX with leaves := 1 }).1

/-- The code of the second goal. -/
def boundedCode : Code :=
  ((evalOperand (.apply (.compare .lt) false boundedSum.expr (.const (.number 7)))).eval
    { behindX with leaves := 1 }).1.1

/-- A clause with such a goal as its body. -/
def soleGoal (code : Code) : Clause := ⟨⟨"p", 2⟩, [("g0", code ++ [{ op := .proceed }])], false, []⟩

/-- A machine about to run it, where `X` is 5. -/
def atBody (code : Code) : Machine where
  heap := { constants := 1 }
  code := some (soleGoal code)
  label := "g0"
  frames := #[{ position := 0, vars := [("X", .const ⟨.number 5, .heap 0⟩)] }]
  stack := #[0]

theorem atBody_memory (code : Code) : (atBody code).Memory where
  good := Heap.good_empty 1 0
  vars f e he := by
    rcases f with _ | f
    · obtain rfl : e = ("X", .const ⟨.number 5, .heap 0⟩) := List.mem_singleton.1 he
      trivial
    · cases he
  stackNodup := List.nodup_singleton 0
  stackBounded f hf := by
    obtain rfl : f = 0 := List.mem_singleton.1 hf
    exact Nat.one_pos
  trailsNodup := List.nodup_nil
  trailsBound v hv := by cases hv

/-- The code of the first goal negates 5, adds 2 and binds the new variable for `Y`; that of the second adds
    1 to 5 and compares the sum with 7. -/
theorem goal_computes_lowered :
    Comes {} (soleGoal loweredCode) "g0" (loweredCode ++ [{ op := .proceed }]) 0 (atBody loweredCode).heap
        (.assign (.var "Y") loweredSum) {x | x ∈ ["Y"]} {x | x ∈ ["Y", "X"]} 0 0 11 (atBody loweredCode)
        (.ok (.binds none (0 - 5 + 2))) ∧
      Comes {} (soleGoal boundedCode) "g0" (boundedCode ++ [{ op := .proceed }]) 0 (atBody boundedCode).heap
        (.compare .lt boundedSum (.const (.number 7))) {x | x ∈ []} {x | x ∈ ["X"]} 0 0 7 (atBody boundedCode)
        (.ok (.holds (CompareOp.lt.holds (5 + 1) 7))) := by
  -- The two goals are proper.
  have hX : isRegister "X" = false := by decide
  have hY : isRegister "Y" = false := by decide
  have hmark : Attrs.toEvaluate.has .boolean = false := by decide
  have hlowered : lowered.Proper := by
    refine ⟨?_, fun hb => by cases hb⟩
    simp [lowered, Term.AllProper, Term.Proper, hX, hY, hmark]
  have hbounded : bounded.Proper := by
    refine ⟨?_, fun _ o ho => ?_⟩
    · simp [bounded, Term.AllProper, Term.Proper, hX, hmark]
    · cases ho
  let u : UnitInfo := { isQuery := false, isNative := fun _ => false }
  constructor
  -- The code that the goal has is that of the example.
  · obtain ⟨code, hblocks, hcomes⟩ := @goal_computes lowered _ _ u true behindX hlowered rfl rfl
    replace hblocks : [(leafLabel 0, loweredCode ++ [u.tail])] = [(leafLabel 0, code ++ [u.tail])] := hblocks
    obtain rfl : loweredCode = code := by simpa using (Prod.mk.inj (List.singleton_inj.1 hblocks)).2
    exact hcomes (w := {}) rfl ⟨_, rfl⟩ ⟨rfl, rfl, rfl⟩ (atBody_memory _) Nat.one_pos rfl
      fun hpos => absurd hpos (by decide)
  · obtain ⟨code, hblocks, hcomes⟩ := @goal_computes bounded _ _ u true behindX hbounded rfl rfl
    replace hblocks : [(leafLabel 0, boundedCode ++ [u.tail])] = [(leafLabel 0, code ++ [u.tail])] := hblocks
    obtain rfl : boundedCode = code := by simpa using (Prod.mk.inj (List.singleton_inj.1 hblocks)).2
    exact hcomes (w := {}) rfl ⟨_, rfl⟩ ⟨rfl, rfl, rfl⟩ (atBody_memory _) Nat.one_pos rfl
      fun hpos => absurd hpos (by decide)

end Machine

end PrologMachine
