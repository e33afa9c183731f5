/-
  PrologMachine.Proofs.Goal.Evaluation ── **THE CODE OF AN ARITHMETIC EXPRESSION EVALUATES IT.**

  Operators are evaluated inside out: each one clears the operands, pushes its own two and leaves its
  value in a register of its own, from where the operator around it takes it.  What the machine comes
  to is what the recursive evaluation comes to, the first error included.

    * `Arith.evaluate`: the recursive evaluation, on a heap and the values of variables.
    * `Machine.Spares`: what an evaluation leaves alone.
    * `Machine.Evaluates`: instructions that carry out an evaluation, one after the other.
    * `Machine.evalOperand_computes`: the code of an expression, by induction on the expression.
-/
import PrologMachine.Proofs.Code.Compilation
import PrologMachine.Proofs.Heap.Widening
import PrologMachine.Proofs.Machine.Stretch

namespace PrologMachine

/-! ## §1. Expressions and what they come to. -/

/-- An arithmetic expression as it is written. -/
inductive Arith where
  /-- A variable. -/
  | var (name : String)
  /-- A constant. -/
  | const (value : Atomic)
  /-- A minus in front of an expression. -/
  | neg (operand : Arith)
  /-- An operator between expressions. -/
  | apply (op : ArithOp) (left right : Arith)

/-- The arithmetic expression that a term is. -/
def Term.arithmetic : Term → Option Arith
  | .var x _ => some (.var x)
  | .const a _ => some (.const a)
  | .app f [] _ _ => some (.const (.atom f))
  | .app f [t] _ _ => if f = "-" then t.arithmetic.map .neg else none
  | .app f [l, r] _ _ =>
    match Operator.ofName? f with
    | some (.value op) => do return .apply op (← l.arithmetic) (← r.arithmetic)
    | _ => none
  | _ => none

/-- What is left of an expression when the operators in it are evaluated. -/
inductive Operand where
  /-- A variable. -/
  | var (name : String)
  /-- A constant, such as the value of an operator. -/
  | const (value : Atomic)

section Evaluation

variable (h : Heap) (σ : String → Option Value)

/-- The number that an operand is converted to, where `σ` gives the values of variables.  A variable
    without a value is new and so unbound. -/
def Operand.number : Operand → Except RunError Float
  | .var x =>
    match σ x with
    | some t => h.operand t
    | none => .error (.unboundOperand x)
  | .const a =>
    match a.number? with
    | some x => .ok x
    | none => .error (.notANumber (String.ofList a.chars))

/-- An operator applied: it converts the left operand, and then the right one. -/
def ArithOp.onOperands (op : ArithOp) (a b : Operand) : Except RunError Operand := do
  let x ← a.number h σ
  let y ← b.number h σ
  match op.eval? x y with
  | some z => .ok (.const (.number z))
  | none => .error (.divisionByZero op.opcode)

/-- Evaluate the operators in an expression, from left to right.  A minus in front of an expression
    subtracts it from zero. -/
def Arith.evaluate : Arith → Except RunError Operand
  | .var x => .ok (.var x)
  | .const a => .ok (.const a)
  | .neg t => do
    let b ← t.evaluate
    ArithOp.minus.onOperands h σ (.const (.number 0)) b
  | .apply op l r => do
    let a ← l.evaluate
    let b ← r.evaluate
    op.onOperands h σ a b

end Evaluation

/-- The variables of an expression. -/
def Arith.names : Arith → List String
  | .var x => [x]
  | .const _ => []
  | .neg t => t.names
  | .apply _ l r => l.names ++ r.names

/-- The values of variables, without those of some. -/
def without (xs : List String) (σ : String → Option Value) (x : String) : Option Value :=
  if x ∈ xs then none else σ x

/-! ## §2. What the compiler makes of it. -/

/-- The expression that the compiler makes of an arithmetic expression. -/
def Arith.expr : Arith → Expr
  | .var x => .var x
  | .const a => .const a
  | .neg t => .apply (.value .minus) true (.const (.number 0)) t.expr
  | .apply op l r => .apply (.value op) true l.expr r.expr

/-- **An arithmetic expression is compiled as what it is.** -/
theorem Expr.ofTerm_arithmetic (t : Term) : t.Proper → ∀ {a : Arith} {x : Expr}, t.arithmetic = some a →
    -- A minus sign with one argument and the other operators with two are all there is; the flag that
    -- the reader sets keeps their results.
    Expr.ofTerm t = .ok x → x = a.expr := by
  fun_induction Term.arithmetic t with
  | case1 y id =>
    intro _ a x ha hx
    obtain rfl := Option.some.inj ha
    exact (Except.ok.inj hx).symm
  | case2 c pos =>
    intro _ a x ha hx
    obtain rfl := Option.some.inj ha
    exact (Except.ok.inj hx).symm
  | case3 f attrs pos =>
    intro _ a x ha hx
    obtain rfl := Option.some.inj ha
    exact (Except.ok.inj hx).symm
  | case4 t attrs pos ih =>
    intro ht a x ha hx
    obtain ⟨b, hb, rfl⟩ := Option.map_eq_some_iff.1 ha
    have hkeeps : (!attrs.has .boolean) = true := MarkedRight.keeps (o := .minus) ht.1 (by decide)
    simp only [Expr.ofTerm, List.isEmpty_cons, Bool.false_eq_true, if_false] at hx
    split at hx
    · obtain ⟨y, -, hy, rfl⟩ := Expr.ofApp_single_ok hx
      rw [hkeeps, ih ht.2.1 hb hy]
      rfl
    · cases hx
  | case5 f t attrs pos hf =>
    intro _ a x ha _
    cases ha
  | case6 f l r attrs pos op hop ihl ihr =>
    intro ht a x ha hx
    obtain ⟨b, hb, ha⟩ := Option.bind_eq_some_iff.1 ha
    obtain ⟨c, hc, ha⟩ := Option.bind_eq_some_iff.1 ha
    obtain rfl := Option.some.inj ha
    have hkeeps : (!attrs.has .boolean) = true := MarkedRight.keeps ht.1 hop
    simp only [Expr.ofTerm, List.isEmpty_cons, Bool.false_eq_true, if_false] at hx
    split at hx
    · obtain ⟨op', y, z, hop', hy, hz, rfl⟩ := Expr.ofApp_pair_ok hx
      obtain rfl : op' = .value op := Option.some.inj (hop'.symm.trans hop)
      rw [hkeeps, ihl ht.2.1 hb hy, ihr ht.2.2.1 hc hz]
      rfl
    · cases hx
  | case7 =>
    intro _ a x ha _
    cases ha
  | case8 =>
    intro _ a x ha _
    cases ha

/-! ## §3. What code generation hands out. -/

section Emission

open Emit

/-- The variables of an expression have occurred once its code is emitted. -/
theorem mem_seen_evalOperand (a : Arith) {y : String} : ∀ e : Emitter,
    y ∈ ((evalOperand a.expr).eval e).2.seen ↔ y ∈ a.names ∨ y ∈ e.seen := by
  induction a with
  | var x =>
    intro e
    by_cases hx : x ∈ e.seen
    · have hmem : y = x → y ∈ e.seen := fun heq => heq ▸ hx
      simpa [Arith.expr, Arith.names, evalOperand, hx] using hmem
    · simp [Arith.expr, Arith.names, evalOperand, hx]
  | const c => exact fun e => by simp [Arith.expr, Arith.names, evalOperand, pushConst]
  | neg t ih =>
    intro e
    simpa [Arith.expr, Arith.names, evalOperand, pushConst] using ih _
  | apply op l r ihl ihr =>
    intro e
    simp [Arith.expr, Arith.names, evalOperand, ihl, ihr]
    tauto

/-- Result registers are only added. -/
theorem results_evalOperand (x : Expr) : ∀ e : Emitter, e.results ≤ ((evalOperand x).eval e).2.results := by
  induction x with
  | var x =>
    intro e
    simp only [evalOperand, eval_bind, eval_pure, eval_occurs]
    split <;> exact Nat.le_refl _
  | const c => exact fun e => Nat.le_refl _
  | apply op keeps l r ihl ihr =>
    intro e
    have hboth := (ihl e).trans (ihr _)
    cases keeps with
    | true => exact hboth.trans (Nat.le_succ _)
    | false => exact hboth

end Emission

/-! ## §4. What an evaluation leaves alone. -/

namespace Heap

variable {h h' : Heap} {t : Value}

/-- A value on a wider heap is the number that it was, or is no number for the same reason. -/
theorem Widens.operand (hw : h.Widens h') (hg : h.Good) (hg' : h'.Good) (ht : h.Holds t) :
    h'.operand t = h.operand t := by
  have hd := hg.holds_deref ht
  unfold Heap.operand
  rw [hw.deref hg hg']
  cases hroot : h.deref t with
  | const c =>
    have htext : h'.text (.const c) = h.text (.const c) := hw.text hg hg' trivial
    simp only [htext]
  | var v =>
    rw [hroot] at hd
    simp only [hw.varCell v hd]
  | struct s =>
    rw [hroot] at hd
    simp only [hw.text hg hg' hd]
  | absent =>
    rw [hroot] at hd
    exact hd.elim

/-- An unbound variable is no number. -/
theorem operand_free {v : VarId} (hv : h.binding? v = none) :
    h.operand (.var v) = .error (.unboundOperand (h.varCell v).name) := by
  rw [Heap.operand, deref_free hv]

end Heap

namespace Machine

open Exec

variable {w : World} {c : Clause} {label : String} {i j k n low low' : Nat} {block : Code}
  {instr : Instruction} {m m₀ m' m'' : Machine} {R N : Set String} {x y : String} {t u : Value}
  {h h' : Heap} {σ : String → Option Value} {s : StructId}

/-- The machine without its cells, the values of the variables of the running clause, the place in the
    block, the flag of the last goal, the count of steps and the log. -/
def outline (m : Machine) : Machine :=
  { m with
    heap := {}, index := 0, success := false, steps := 0, transcript := {}
    frames := m.frames.modify m.current (fun fr => { fr with vars := [] }) }

/-- The machine with a variable of the running clause set, on another heap. -/
def setVar (m : Machine) (h' : Heap) (x : String) (t : Value) : Machine :=
  { m with heap := h' }.changeFrame m.current (·.put x t)

/-- Only a variable and the heap change. -/
theorem outline_setVar : (m.setVar h' x t).outline = m.outline := by
  have hmodify : (m.frames.modify m.current (·.put x t)).modify m.current (fun fr => { fr with vars := [] }) =
      m.frames.modify m.current (fun fr => { fr with vars := [] }) := by
    refine Array.ext (by simp) fun i hi hi' => ?_
    simp only [Array.getElem_modify]
    split
    · exact vars_put _ x t
    · rfl
  simp only [outline, setVar, changeFrame, hmodify]

/-- The variable has its new value, and the others have theirs. -/
theorem value?_setVar (hcurrent : m.current < m.frames.size) :
    (m.setVar h' x t).value? y = if y = x then some t else m.value? y := by
  have hframe : (m.setVar h' x t).frame m.current = ({ m with heap := h' }.frame m.current).put x t :=
    frame_changeFrame_self hcurrent
  show ((m.setVar h' x t).frame m.current).get? y = _
  rw [hframe, Frame.get?_put]
  rfl

/-- What an evaluation leaves alone: only result registers above `low` change, and variables in `N`
    that have no value or are in `R` get new unbound cells with their names. -/
structure Spares (R N : Set String) (low : Nat) (m m' : Machine) : Prop where
  /-- Nothing else in the machine changes. -/
  outline : m'.outline = m.outline
  /-- Cells that were there are what they were. -/
  heap : m.heap.Widens m'.heap
  /-- So are the results handed out before. -/
  results : ∀ n, 0 < n → n ≤ low → m'.value? (resultRegister n) = m.value? (resultRegister n)
  /-- Another variable changes only when it occurs for the first time. -/
  entries : ∀ x, (∀ n, x ≠ resultRegister n) → m'.value? x ≠ m.value? x →
    x ∈ N ∧ (x ∈ R ∨ m.value? x = none) ∧ ∃ v, m'.value? x = some (.var v) ∧
      m.heap.vars.size ≤ v ∧ v < m'.heap.vars.size ∧ (m'.heap.varCell v).name = x
  /-- New variable cells have the names of variables that occur. -/
  cells : ∀ v, m.heap.vars.size ≤ v → v < m'.heap.vars.size → (m'.heap.varCell v).name ∈ N

namespace Spares

protected theorem refl (R N : Set String) (low : Nat) (m : Machine) : Spares R N low m m :=
  ⟨rfl, .refl _, fun _ _ _ => rfl, fun _ _ hne => absurd rfl hne,
    fun _ hle hlt => absurd hlt (Nat.not_lt.2 hle)⟩

protected theorem trans (hs : Spares R N low m m') (hs' : Spares R N low' m' m'') (hle : low ≤ low') :
    Spares R N low m m'' where
  outline := hs'.outline.trans hs.outline
  heap := hs.heap.trans hs'.heap
  results n hpos hn := (hs'.results n hpos (hn.trans hle)).trans (hs.results n hpos hn)
  entries x hx hne := by
    by_cases hlast : m''.value? x = m'.value? x
    · obtain ⟨hN, hR, v, hv, hnew, hlt, hname⟩ := hs.entries x hx (hlast ▸ hne)
      exact ⟨hN, hR, v, hlast.trans hv, hnew, hlt.trans_le hs'.heap.vars,
        by rw [hs'.heap.varCell v hlt, hname]⟩
    · obtain ⟨hN, hR, v, hv, hnew, hlt, hname⟩ := hs'.entries x hx hlast
      refine ⟨hN, ?_, v, hv, hs.heap.vars.trans hnew, hlt, hname⟩
      by_cases hfirst : m'.value? x = m.value? x
      · rwa [hfirst] at hR
      · exact (hs.entries x hx hfirst).2.1
  cells v hle' hlt := by
    by_cases hv : v < m'.heap.vars.size
    · rw [hs'.heap.varCell v hv]
      exact hs.cells v hle' hv
    · exact hs'.cells v (Nat.le_of_not_lt hv) hlt

theorem mono {R' : Set String} (hs : Spares R N low m m') (hR : ∀ x ∈ R, x ∈ R') (hle : low' ≤ low) :
    Spares R' N low' m m' where
  outline := hs.outline
  heap := hs.heap
  results n hpos hn := hs.results n hpos (hn.trans hle)
  entries x hx hne := (hs.entries x hx hne).imp_right fun h => ⟨h.1.imp_left (hR x), h.2⟩
  cells := hs.cells

/-- Counting a step. -/
theorem counted (hs : Spares R N low m₀ m) : Spares R N low m₀ (m.counted w instr) :=
  ⟨hs.outline, hs.heap, hs.results, hs.entries, hs.cells⟩

/-- Setting the flag of the last goal. -/
theorem flagged (hs : Spares R N low m₀ m) (ok : Bool) : Spares R N low m₀ { m with success := ok } :=
  ⟨hs.outline, hs.heap, hs.results, hs.entries, hs.cells⟩

/-- An argument for a new structure. -/
theorem pushArg (hs : Spares R N low m₀ m) (hnew : m₀.heap.structs.size ≤ s) (t : Value) :
    Spares R N low m₀ { m with heap := m.heap.pushArg s t } :=
  ⟨hs.outline, hs.heap.pushArg hnew t, hs.results, hs.entries, hs.cells⟩

/-- Setting the scratch register or a new result register, to a new structure or constant. -/
theorem register (hs : Spares R N low m₀ m) (hcurrent : m.current < m.frames.size)
    (hn : n = 0 ∨ low < n) (hw : m.heap.Widens h') (hvars : h'.vars = m.heap.vars) (t : Value) :
    Spares R N low m₀ (m.setVar h' (resultRegister n) t) where
  outline := outline_setVar.trans hs.outline
  heap := hs.heap.trans hw
  results l hpos hl := by
    have hne : resultRegister l ≠ resultRegister n := by
      rw [Ne, resultRegister_inj]
      omega
    rw [value?_setVar hcurrent, if_neg hne, hs.results l hpos hl]
  entries x hx hne := by
    rw [value?_setVar hcurrent, if_neg (hx n)] at hne ⊢
    obtain ⟨hN, hR, v, hv, hnew, hlt, hname⟩ := hs.entries x hx hne
    exact ⟨hN, hR, v, hv, hnew, hlt.trans_le hw.vars, by rw [← hname]; exact congrArg _ (hw.varCell v hlt)⟩
  cells v hle hlt := by
    have hsize : (m.setVar h' (resultRegister n) t).heap.vars.size = m.heap.vars.size :=
      congrArg Array.size hvars
    rw [hsize] at hlt
    rw [show (m.setVar h' (resultRegister n) t).heap.varCell v = _ from hw.varCell v hlt]
    exact hs.cells v hle hlt

/-- A new cell for a variable that occurs for the first time. -/
theorem fresh (hs : Spares R N low m₀ m) (hcurrent : m.current < m.frames.size) (hN : x ∈ N)
    (hx : isRegister x = false) (hfirst : x ∈ R ∨ m.value? x = none) :
    Spares R N low m₀ (m.setVar (m.heap.fresh x).2 x (.var m.heap.vars.size)) where
  outline := outline_setVar.trans hs.outline
  heap := hs.heap.trans (.fresh _ x)
  results n hpos hn := by
    rw [value?_setVar hcurrent, if_neg (ne_resultRegister hx n).symm, hs.results n hpos hn]
  entries y hy hne := by
    have hsize : (m.setVar (m.heap.fresh x).2 x (.var m.heap.vars.size)).heap.vars.size =
        m.heap.vars.size + 1 := Heap.vars_size_fresh
    rw [value?_setVar hcurrent] at hne ⊢
    -- The new entry is a new cell with the name of its variable; the others are as before.
    by_cases hyx : y = x
    · rw [if_pos hyx]
      refine ⟨hyx ▸ hN, ?_, _, rfl, hs.heap.vars, by rw [hsize]; exact Nat.lt_succ_self _, ?_⟩
      · by_cases hsame : m.value? y = m₀.value? y
        · rw [← hsame, hyx]
          exact hfirst
        · exact (hs.entries y hy hsame).2.1
      · rw [hyx]
        simp [setVar, changeFrame, Heap.varCell, Heap.fresh, Heap.newVar]
    · rw [if_neg hyx] at hne ⊢
      obtain ⟨hN, hR, v, hv, hnew, hlt, hname⟩ := hs.entries y hy hne
      refine ⟨hN, hR, v, hv, hnew, by rw [hsize]; exact Nat.lt_succ_of_lt hlt, ?_⟩
      rw [← hname]
      exact congrArg _ ((Heap.Widens.fresh m.heap x).varCell v hlt)
  cells v hle hlt := by
    have hsize : (m.setVar (m.heap.fresh x).2 x (.var m.heap.vars.size)).heap.vars.size =
        m.heap.vars.size + 1 := Heap.vars_size_fresh
    rw [hsize] at hlt
    rcases Nat.lt_succ_iff_lt_or_eq.1 hlt with hlt | rfl
    · rw [show (m.setVar (m.heap.fresh x).2 x (.var m.heap.vars.size)).heap.varCell v = _ from
        (Heap.Widens.fresh m.heap x).varCell v hlt]
      exact hs.cells v hle hlt
    · simpa [setVar, changeFrame, Heap.varCell, Heap.fresh, Heap.newVar] using hN

end Spares

/-! ## §5. The values of variables. -/

/-- The variables of the running clause have the values `σ` of the heap `h`, except for new unbound cells
    of variables without a value. -/
structure Renders (h : Heap) (σ : String → Option Value) (m : Machine) : Prop where
  /-- The heap is in good shape. -/
  good : h.Good
  /-- Values exist on it. -/
  held : ∀ x t, isRegister x = false → σ x = some t → h.Holds t
  /-- The machine has its cells. -/
  heap : h.Widens m.heap
  /-- Variables have their values. -/
  entries : ∀ x, isRegister x = false → m.value? x = σ x ∨ σ x = none ∧ ∃ v, m.value? x = some (.var v) ∧
    h.vars.size ≤ v ∧ v < m.heap.vars.size ∧ (m.heap.varCell v).name = x

namespace Renders

protected theorem refl (hm : m.Memory) : Renders m.heap m.value? m :=
  ⟨hm.good, fun _ _ _ ht => hm.holds_get ht, .refl _, fun _ _ => .inl rfl⟩

/-- A variable without a value has none. -/
theorem eq_none (hr : Renders h σ m) (hx : isRegister x = false) (hvalue : m.value? x = none) : σ x = none := by
  rcases hr.entries x hx with heq | ⟨hσ, -⟩
  · rw [← heq, hvalue]
  · exact hσ

/-- An evaluation gives cells to variables without a value. -/
theorem spares (hr : Renders h σ m) (hs : Spares ∅ N low m m') : Renders h σ m' where
  good := hr.good
  held := hr.held
  heap := hr.heap.trans hs.heap
  entries x hx := by
    by_cases hsame : m'.value? x = m.value? x
    · rw [hsame]
      refine (hr.entries x hx).imp_right ?_
      rintro ⟨hσ, v, hv, hnew, hlt, hname⟩
      exact ⟨hσ, v, hv, hnew, hlt.trans_le hs.heap.vars, by rw [hs.heap.varCell v hlt, hname]⟩
    · obtain ⟨-, hnone, v, hv, hnew, hlt, hname⟩ := hs.entries x (ne_resultRegister hx) hsame
      have hσ := hr.eq_none hx (hnone.resolve_left (Set.notMem_empty x))
      exact .inr ⟨hσ, v, hv, hr.heap.vars.trans hnew, hlt, hname⟩

/-- Counting an instruction renders the same. -/
theorem counted (hr : Renders h σ m) : Renders h σ (m.counted w instr) :=
  ⟨hr.good, hr.held, hr.heap, hr.entries⟩

/-- A new structure may be filled. -/
theorem pushArg (hr : Renders h σ m) (hnew : h.structs.size ≤ s) (t : Value) :
    Renders h σ { m with heap := m.heap.pushArg s t } :=
  ⟨hr.good, hr.held, hr.heap.pushArg hnew t, hr.entries⟩

/-- Setting a register. -/
theorem register (hr : Renders h σ m) (hcurrent : m.current < m.frames.size) (hw : m.heap.Widens h')
    (n : Nat) (t : Value) : Renders h σ (m.setVar h' (resultRegister n) t) where
  good := hr.good
  held := hr.held
  heap := hr.heap.trans hw
  entries x hx := by
    rw [value?_setVar hcurrent, if_neg (ne_resultRegister hx n)]
    refine (hr.entries x hx).imp_right ?_
    rintro ⟨hσ, v, hv, hnew, hlt, hname⟩
    exact ⟨hσ, v, hv, hnew, hlt.trans_le hw.vars, by rw [← hname]; exact congrArg _ (hw.varCell v hlt)⟩

/-- A variable that gets a new cell has no other value then. -/
theorem fresh (hr : Renders h σ m) (hcurrent : m.current < m.frames.size) (x : String) :
    Renders h (without [x] σ) (m.setVar (m.heap.fresh x).2 x (.var m.heap.vars.size)) where
  good := hr.good
  held y t hy ht := by
    unfold without at ht
    split at ht
    · cases ht
    · exact hr.held y t hy ht
  heap := hr.heap.trans (.fresh _ x)
  entries y hy := by
    have hsize : (m.setVar (m.heap.fresh x).2 x (.var m.heap.vars.size)).heap.vars.size =
        m.heap.vars.size + 1 := Heap.vars_size_fresh
    rw [value?_setVar hcurrent, hsize]
    -- The new name has the new variable, and any other name what it had.
    by_cases hyx : y = x
    · rw [if_pos hyx]
      refine .inr ⟨by simp [without, hyx], _, rfl, hr.heap.vars, Nat.lt_succ_self _, ?_⟩
      simp [setVar, changeFrame, Heap.varCell, Heap.fresh, Heap.newVar, hyx]
    · rw [if_neg hyx, without, if_neg (by simpa using hyx)]
      refine (hr.entries y hy).imp_right ?_
      rintro ⟨hσ, v, hv, hnew, hlt, hname⟩
      refine ⟨hσ, v, hv, hnew, Nat.lt_succ_of_lt hlt, ?_⟩
      rw [← hname]
      exact congrArg _ ((Heap.Widens.fresh m.heap x).varCell v hlt)

end Renders

/-- Leaving out names without values leaves out nothing. -/
theorem without_eq {xs : List String} (hnone : ∀ x ∈ xs, σ x = none) : without xs σ = σ := by
  funext x
  unfold without
  split
  · next hx => exact (hnone x hx).symm
  · rfl

/-! ## §6. Pushing operands. -/

/-- The instruction pushes the operand: a variable, a constant of the code, or the result of an operator. -/
inductive Carries (N : Set String) (high : Nat) (m : Machine) : Instruction → Operand → Prop where
  /-- A variable. -/
  | var {x : String} (hN : x ∈ N) (hx : isRegister x = false) :
    Carries N high m { op := .pushValue, name := x } (.var x)
  /-- A constant. -/
  | const {i : Instruction} {k : Constant} (hop : i.op = .pushNumber ∨ i.op = .pushTerm)
    (hk : i.constant = some k) : Carries N high m i (.const k.value)
  /-- A result. -/
  | result {n : Nat} {k : Constant} (hpos : 0 < n) (hn : n ≤ high)
    (hv : m.value? (resultRegister n) = some (.const k)) :
    Carries N high m { op := .pushValue, name := resultRegister n } (.const k.value)

/-- Results stay while more are computed. -/
theorem Carries.spares {high high' : Nat} {o : Operand} (hc : Carries N high m instr o)
    (hs : Spares R N high m m') (hle : high ≤ high') : Carries N high' m' instr o := by
  cases hc with
  | var hN hx => exact .var hN hx
  | const hop hk => exact .const hop hk
  | result hpos hn hv => exact .result hpos (hn.trans hle) ((hs.results _ hpos hn).trans hv)

/-- The value is the operand. -/
def Means (m : Machine) : Operand → Value → Prop
  | .var x, t => m.value? x = some t
  | .const a, t => ∃ k : Constant, t = .const k ∧ k.value = a

/-- No variable among the operands is a register. -/
def Operand.Proper : Operand → Prop
  | .var x => isRegister x = false
  | .const _ => True

/-- What is carried is a proper operand. -/
theorem Carries.proper {high : Nat} {o : Operand} (hc : Carries N high m instr o) : Operand.Proper o := by
  cases hc with
  | var _ hx => exact hx
  | const => trivial
  | result => trivial

/-- **A value is converted like the operand that it is.** -/
theorem Means.number {o : Operand} (ht : Means m o t) (hr : Renders h σ m) (hm : m.Memory)
    (ho : Operand.Proper o) : m.heap.operand t = o.number h σ := by
  cases o with
  | var x =>
    have hvalue : m.value? x = some t := ht
    rcases hr.entries x ho with heq | ⟨hσ, v, hv, hnew, -, hname⟩
    · rw [hvalue] at heq
      rw [Operand.number, ← heq]
      exact hr.heap.operand hr.good hm.good (hr.held x t ho heq.symm)
    · rw [hvalue] at hv
      obtain rfl := Option.some.inj hv
      rw [Operand.number, hσ, Heap.operand_free (hr.heap.unbound v hnew), hname]
  | const a =>
    obtain ⟨k, rfl, rfl⟩ := ht
    rw [Operand.number, Heap.operand, Heap.deref_const]
    rfl

/-- The values `ts` have been pushed since the operands were cleared. -/
structure Gathered (h : Heap) (σ : String → Option Value) (R N : Set String) (low : Nat) (m₀ : Machine)
    (ts : List Value) (m : Machine) : Prop where
  /-- The memory is in order. -/
  memory : m.Memory
  /-- The clause has a frame. -/
  current : m.current < m.frames.size
  /-- Nothing else changed. -/
  spares : Spares R N low m₀ m
  /-- The variables have their values. -/
  renders : Renders h σ m
  /-- The operands. -/
  scratch : ∃ s, m₀.heap.structs.size ≤ s ∧ s < m.heap.structs.size ∧
    m.value? scratchRegister = some (.struct s) ∧ (m.heap.structCell s).args = ts

/-- Counting an instruction keeps the memory in order. -/
theorem Memory.counted (hm : m.Memory) : (m.counted w instr).Memory :=
  hm.of_eq rfl rfl rfl fun _ => ⟨rfl, rfl⟩

/-- A variable of the program is not the structure of the operands. -/
theorem ne_scratchRegister (hx : isRegister x = false) : x ≠ scratchRegister :=
  resultRegister_zero ▸ ne_resultRegister hx 0

namespace Gathered

variable {ts : List Value}

/-- Counting an instruction gathers nothing. -/
theorem counted (hg : Gathered h σ R N low m₀ ts m) : Gathered h σ R N low m₀ ts (m.counted w instr) :=
  ⟨hg.memory.counted, hg.current, hg.spares.counted, hg.renders.counted, hg.scratch⟩

/-- One more value. -/
theorem pushArg (hg : Gathered h σ R N low m₀ ts m) (hh : h.structs.size ≤ m₀.heap.structs.size)
    (hscratch : m.value? scratchRegister = some (.struct s)) (ht : m.heap.Holds t) :
    Gathered h σ R N low m₀ (ts ++ [t]) { m with heap := m.heap.pushArg s t } := by
  obtain ⟨s', hnew, hlt, hs', hargs⟩ := hg.scratch
  obtain rfl : s' = s := Value.struct.inj (Option.some.inj (hs'.symm.trans hscratch))
  refine ⟨hg.memory.pushArg ht s', hg.current, hg.spares.pushArg hnew t, hg.renders.pushArg (hh.trans hnew) t,
    s', hnew, ?_, hs', ?_⟩
  · simpa using hlt
  · show ((m.heap.pushArg s' t).structCell s').args = _
    rw [Heap.structCell_pushArg_self hlt, hargs]

/-- A cell for a variable that occurs for the first time. -/
theorem fresh (hg : Gathered h σ R N low m₀ ts m) (hN : x ∈ N) (hx : isRegister x = false)
    (hfirst : x ∈ R ∨ m.value? x = none) :
    Gathered h (without [x] σ) R N low m₀ ts (m.setVar (m.heap.fresh x).2 x (.var m.heap.vars.size)) := by
  obtain ⟨s, hnew, hlt, hs, hargs⟩ := hg.scratch
  refine ⟨(hg.memory.fresh x).put (by simp), ?_, hg.spares.fresh hg.current hN hx hfirst,
    hg.renders.fresh hg.current x, s, hnew, hlt, ?_, hargs⟩
  · simpa [setVar, changeFrame] using hg.current
  · rw [value?_setVar hg.current, if_neg (ne_scratchRegister hx).symm, hs]

/-- The operands are cleared. -/
theorem start (hm : m.Memory) (hcurrent : m.current < m.frames.size) (hr : Renders h σ m)
    (hat : At c label i m) (hblock : c.block? label = some block)
    (hi : block[i]? = some { op := .prepare }) (hroom : Room w 1 m) (R N : Set String) (low : Nat) :
    ∃ m', Passes w c label i 1 m m' ∧ Gathered h σ R N low m [] m' := by
  let m₁ := m.counted w { op := .prepare }
  let h' := (m.heap.newStruct scratchRegister [] .none).2
  let m' := m₁.setVar h' scratchRegister (.struct m.heap.structs.size)
  have hcurrent₁ : m₁.current < m₁.frames.size := hcurrent
  -- The instruction makes an empty structure in the scratch register.
  have heval : eval (execute w { op := .prepare }) m₁ = (.ok (), m') := eval_prepare
  have hsize : m'.frames.size = m₁.frames.size := frames_size_changeFrame
  refine ⟨m', .one hat hblock hi hroom heval ⟨rfl, rfl, rfl, rfl, rfl, hsize, rfl⟩, ?_⟩
  have hs : Spares R N low m m₁ := (Spares.refl R N low m).counted
  have hw : m₁.heap.Widens h' := .newStruct _ _ _ _
  have hholds : h'.Holds (.struct m.heap.structs.size) := by simp [h']
  refine ⟨(hm.counted.newStruct scratchRegister).put hholds, hsize ▸ hcurrent₁,
    hs.register hcurrent₁ (.inl rfl) hw rfl _, hr.counted.register hcurrent₁ hw 0 _,
    m.heap.structs.size, Nat.le_refl _, ?_, ?_, ?_⟩
  · show m.heap.structs.size < h'.structs.size
    simp [h']
  · rw [value?_setVar hcurrent₁, if_pos rfl]
  · show (h'.structCell m.heap.structs.size).args = []
    rw [Heap.structCell_newStruct, if_pos rfl]

end Gathered

namespace Gathered

variable {ts : List Value} {o : Operand}

/-- A variable that occurs for the first time is pushed. -/
theorem pushFresh (hg : Gathered h σ R N low m₀ ts m) (hh : h.structs.size ≤ m₀.heap.structs.size)
    (hN : x ∈ N) (hx : isRegister x = false) (hfirst : x ∈ R ∨ m.value? x = none)
    (hs : m.value? scratchRegister = some (.struct s)) :
    Gathered h (without [x] σ) R N low m₀ (ts ++ [.var m.heap.vars.size])
      { m.setVar (m.heap.fresh x).2 x (.var m.heap.vars.size) with
        heap := (m.heap.fresh x).2.pushArg s (.var m.heap.vars.size) } := by
  refine (hg.fresh hN hx hfirst).pushArg hh ?_ ?_
  · rw [value?_setVar hg.current, if_neg (ne_scratchRegister hx).symm, hs]
  · simp [setVar, changeFrame]

/-- The next operand. -/
theorem push (hg : Gathered h σ R N low m₀ ts m) (hh : h.structs.size ≤ m₀.heap.structs.size)
    (hc : Carries N low m₀ instr o) (hat : At c label i m) (hblock : c.block? label = some block)
    (hi : block[i]? = some instr) (hroom : Room w 1 m) :
    ∃ t m', Passes w c label i 1 m m' ∧ Gathered h σ R N low m₀ (ts ++ [t]) m' ∧ Means m' o t ∧
      ∀ o' t', Means m o' t' → Means m' o' t' := by
  obtain ⟨s, -, -, hs, -⟩ := hg.scratch
  have hcounted : Gathered h σ R N low m₀ ts (m.counted w instr) := hg.counted
  -- A value that is at hand is pushed as it is.
  have hpush : ∀ t, m.heap.Holds t → Means m o t → eval (execute w instr) (m.counted w instr) =
        (.ok (), { m.counted w instr with heap := m.heap.pushArg s t }) →
      ∃ t m', Passes w c label i 1 m m' ∧ Gathered h σ R N low m₀ (ts ++ [t]) m' ∧ Means m' o t ∧
        ∀ o' t', Means m o' t' → Means m' o' t' := by
    intro t ht hmeans heval
    refine ⟨t, _, .one hat hblock hi hroom heval ⟨rfl, rfl, rfl, rfl, rfl, rfl, rfl⟩,
      hcounted.pushArg hh hs ht, ?_, fun o' t' ht' => ?_⟩
    · cases o <;> exact hmeans
    · cases o' <;> exact ht'
  cases hc with
  | @var x hN hx =>
    have heval := eval_pushValue (m := m.counted w { op := .pushValue, name := x }) hg.memory.counted
      (ne_scratchRegister hx) hs
    cases hvalue : m.value? x with
    | some t =>
      rw [valueOf_some (m := m.counted w { op := .pushValue, name := x }) hvalue] at heval
      exact hpush t (hg.memory.holds_get hvalue) hvalue heval
    | none =>
      rw [valueOf_none (m := m.counted w { op := .pushValue, name := x }) hvalue] at heval
      have hfresh := hcounted.pushFresh hh hN hx (.inr hvalue) hs
      rw [without_eq (by simpa using hg.renders.eq_none hx hvalue)] at hfresh
      let m' : Machine := { (m.counted w { op := .pushValue, name := x }).setVar (m.heap.fresh x).2 x
        (.var m.heap.vars.size) with heap := (m.heap.fresh x).2.pushArg s (.var m.heap.vars.size) }
      have hsize : m'.frames.size = m.frames.size := frames_size_changeFrame
      have hvalues : ∀ y, m'.value? y = if y = x then some (.var m.heap.vars.size) else m.value? y :=
        fun y => value?_setVar hcounted.current
      refine ⟨_, m', .one hat hblock hi hroom heval ⟨rfl, rfl, rfl, rfl, rfl, hsize, rfl⟩, hfresh, ?_,
        fun o' t' ht' => ?_⟩
      · exact (hvalues x).trans (if_pos rfl)
      · cases o' with
        | var y =>
          have hy : m.value? y = some t' := ht'
          have hne : y ≠ x := by
            rintro rfl
            rw [hvalue] at hy
            cases hy
          exact ((hvalues y).trans (if_neg hne)).trans hy
        | const a => exact ht'
  | @const _ k hop hk =>
    refine hpush (.const k) trivial ⟨k, rfl, rfl⟩ ?_
    have hexecute : execute w instr = Exec.pushConst instr.constant := by
      rw [execute]
      rcases hop with hop | hop <;> rw [hop]
    rw [hexecute]
    exact eval_pushConst hk hs
  | @result n k hpos hn hv =>
    have hvalue : m.value? (resultRegister n) = some (.const k) := (hg.spares.results n hpos hn).trans hv
    have hne : resultRegister n ≠ scratchRegister := by
      rw [← resultRegister_zero, Ne, resultRegister_inj]
      omega
    have heval := eval_pushValue (m := m.counted w { op := .pushValue, name := resultRegister n })
      hg.memory.counted hne hs
    rw [valueOf_some (m := m.counted w { op := .pushValue, name := resultRegister n }) hvalue] at heval
    exact hpush (.const k) trivial ⟨k, rfl, rfl⟩ heval

end Gathered

/-! ## §7. Operators. -/

/-- The two operands are found. -/
theorem eval_operands (hs : m.value? scratchRegister = some (.struct s))
    (hargs : (m.heap.structCell s).args = [t, u]) : eval operands m = (.ok (t, u), m) := by
  have hscratch : eval scratch m = (.ok (some s), m) := eval_scratch hs
  simp [operands, hscratch, hargs]

/-- An operand is a number or an error. -/
theorem eval_number : eval (number t) m = match m.heap.operand t with
    | .ok x => (.ok x, m)
    | .error e => (.error (.running e), m) := by
  simp only [number, eval_bind, eval_get]
  cases m.heap.operand t <;> rfl

/-- An operand that is no number stops the machine, the left one first. -/
theorem eval_applyOperator_error {op : Operator} {e : RunError}
    (hs : m.value? scratchRegister = some (.struct s)) (hargs : (m.heap.structCell s).args = [t, u])
    (herror : m.heap.operand t = .error e ∨ ∃ z, m.heap.operand t = .ok z ∧ m.heap.operand u = .error e) :
    eval (applyOperator instr op) m = (.error (.running e), m) := by
  rw [applyOperator, eval_bind, eval_operands hs hargs]
  rcases herror with ht | ⟨z, ht, hu⟩
  · simp only [eval_bind, eval_number, ht]
  · simp only [eval_bind, eval_number, ht, hu]

/-- An operator that has a value leaves it in its register. -/
theorem eval_applyOperator_value {op : ArithOp} {a b z : Float}
    (hs : m.value? scratchRegister = some (.struct s)) (hargs : (m.heap.structCell s).args = [t, u])
    (ht : m.heap.operand t = .ok a) (hu : m.heap.operand u = .ok b) (hz : op.eval? a b = some z)
    (hresult : instr.result ≠ "") :
    eval (applyOperator instr (.value op)) m = (.ok (), { m.setVar (m.heap.newConst (.number z)).2 instr.result
      (.const ⟨.number z, .heap m.heap.constants⟩) with success := true }) := by
  rw [applyOperator, eval_bind, eval_operands hs hargs]
  simp only [eval_bind, eval_number, ht, hu, hz]
  simp [hresult, conclude, setVar]

/-- A division by zero stops the machine. -/
theorem eval_applyOperator_zero {op : ArithOp} {a b : Float}
    (hs : m.value? scratchRegister = some (.struct s)) (hargs : (m.heap.structCell s).args = [t, u])
    (ht : m.heap.operand t = .ok a) (hu : m.heap.operand u = .ok b) (hz : op.eval? a b = none) :
    eval (applyOperator instr (.value op)) m = (.error (.running (.divisionByZero instr.op)), m) := by
  rw [applyOperator, eval_bind, eval_operands hs hargs]
  simp [eval_number, ht, hu, hz]

/-- A comparison sets the flag of the last goal, and fails when it does not hold. -/
theorem eval_applyOperator_compare {op : CompareOp} {a b : Float}
    (hs : m.value? scratchRegister = some (.struct s)) (hargs : (m.heap.structCell s).args = [t, u])
    (ht : m.heap.operand t = .ok a) (hu : m.heap.operand u = .ok b) :
    eval (applyOperator instr (.compare op)) m =
      if op.holds a b then (.ok (), { m with success := true })
      else eval failure { m with success := false } := by
  rw [applyOperator, eval_bind, eval_operands hs hargs]
  simp only [eval_bind, eval_number, ht, hu, conclude, eval_modify]
  cases op.holds a b <;> simp

/-! ## §8. Expressions. -/

/-- From instruction `i` on, `n` instructions carry out an evaluation: when it has a value, they are run
    through and leave the machine in a state for it; otherwise one of them stops the machine with the
    error.  Nothing else changes until then. -/
inductive Evaluates (w : World) (c : Clause) (label : String) (block : Code) (N : Set String)
    (low i n : Nat) (m : Machine) {α : Type} (P : α → Machine → Prop) : Except RunError α → Prop where
  /-- There is a value. -/
  | value {a : α} {m' : Machine} (hp : Passes w c label i n m m') (hm : m'.Memory)
    (hs : Spares ∅ N low m m') (ha : P a m') : Evaluates w c label block N low i n m P (.ok a)
  /-- There is an error. -/
  | stops {j : Nat} {m' : Machine} {instr : Instruction} {e : RunError} (hj : j < n)
    (hp : Passes w c label i j m m') (hs : Spares ∅ N low m m') (hi : block[i + j]? = some instr)
    (hstop : m'.advance w = (m'.counted w instr).fault (.running e)) :
    Evaluates w c label block N low i n m P (.error e)

section

variable {α β : Type} {P : α → Machine → Prop} {Q : β → Machine → Prop} {r : Except RunError α}
  {f : α → Except RunError β} {n' : Nat}

/-- **One evaluation after the other.** -/
theorem Evaluates.bind (hr : Evaluates w c label block N low i n m P r) (hle : low ≤ low')
    (hf : ∀ a m', Passes w c label i n m m' → m'.Memory → Spares ∅ N low m m' → P a m' →
      Evaluates w c label block N low' (i + n) n' m' Q (f a)) :
    Evaluates w c label block N low i (n + n') m Q (r >>= f) := by
  cases hr with
  | @value a m₁ hp hm hs ha =>
    have hrest := hf a m₁ hp hm hs ha
    show Evaluates w c label block N low i (n + n') m Q (f a)
    generalize f a = r' at hrest
    cases hrest with
    | value hp' hm' hs' hb => exact .value (hp.trans hp') hm' (hs.trans hs' hle) hb
    | stops hj hp' hs' hi hstop =>
      refine .stops (Nat.add_lt_add_left hj n) (hp.trans hp') (hs.trans hs' hle) ?_ hstop
      rwa [← Nat.add_assoc]
  | stops hj hp hs hi hstop => exact .stops (Nat.lt_add_right n' hj) hp hs hi hstop

end

variable {a b : Operand} {pa pb : Instruction} {high : Nat}

/-- Clearing the operands and pushing two. -/
theorem gather (hr : Renders h σ m) (hm : m.Memory) (hcurrent : m.current < m.frames.size)
    (ha : Carries N low m pa a) (hb : Carries N low m pb b) (hat : At c label i m)
    (hblock : c.block? label = some block) (hcode : Segment block i [{ op := .prepare }, pa, pb])
    (hroom : Room w 3 m) :
    ∃ t u m', Passes w c label i 3 m m' ∧ Gathered h σ ∅ N low m [t, u] m' ∧ Means m' a t ∧ Means m' b u := by
  have hh : h.structs.size ≤ m.heap.structs.size := hr.heap.structs
  obtain ⟨m₁, hp₁, hg₁⟩ := Gathered.start hm hcurrent hr hat hblock hcode.head (hroom.mono (by omega)) ∅ N low
  obtain ⟨t, m₂, hp₂, hg₂, ht, -⟩ := hg₁.push hh ha hp₁.behind hblock hcode.tail.head
    (hroom.mono (by have := hp₁.steps; omega))
  obtain ⟨u, m₃, hp₃, hg₃, hu, hkeep⟩ := hg₂.push hh hb (hp₁.trans hp₂).behind hblock hcode.tail.tail.head
    (hroom.mono (by have := (hp₁.trans hp₂).steps; omega))
  exact ⟨t, u, m₃, (hp₁.trans hp₂).trans hp₃, hg₃, hkeep a t ht, hu⟩

/-- **An operator on two operands that are at hand.**  Its value goes to the next result register. -/
theorem operator_evaluates (op : ArithOp) (hr : Renders h σ m) (hm : m.Memory)
    (hcurrent : m.current < m.frames.size) (ha : Carries N low m pa a) (hb : Carries N low m pb b)
    (hat : At c label i m) (hblock : c.block? label = some block)
    (hcode : Segment block i [{ op := .prepare }, pa, pb,
      { op := op.opcode, result := resultRegister (low + 1) }]) (hroom : Room w 4 m) :
    Evaluates w c label block N low i 4 m (fun o m' =>
      Carries N (low + 1) m' { op := .pushValue, name := resultRegister (low + 1) } o)
      (op.onOperands h σ a b) := by
  have hoperands : Segment block i [{ op := .prepare }, pa, pb] := Segment.left hcode
  -- The operands are gathered in a new structure; the operator reads both from there.
  obtain ⟨t, u, m₁, hp, hg, ht, hu⟩ := gather hr hm hcurrent ha hb hat hblock hoperands (hroom.mono (by omega))
  obtain ⟨s, -, -, hs, hargs⟩ := hg.scratch
  have hta := ht.number hg.renders hg.memory ha.proper
  have hub := hu.number hg.renders hg.memory hb.proper
  have hat₁ : At c label (i + 3) m₁ := hp.behind
  have hroom₁ : Room w 1 m₁ := hroom.mono (by rw [hp.steps])
  let instr : Instruction := { op := op.opcode, result := resultRegister (low + 1) }
  have hi : block[i + 3]? = some instr := hcode.tail.tail.tail.head
  have hexecute : execute w instr = applyOperator instr (.value op) := by cases op <;> rfl
  have hadvance : m₁.advance w = (m₁.counted w instr).perform (applyOperator instr (.value op)) := by
    rw [hat₁.advance_eq hblock hi hroom₁, hexecute]
  have hstop : ∀ e, eval (applyOperator instr (.value op)) (m₁.counted w instr) =
      (.error (.running e), m₁.counted w instr) →
      Evaluates w c label block N low i 4 m (fun o m' =>
        Carries N (low + 1) m' { op := .pushValue, name := resultRegister (low + 1) } o) (.error e) := by
    intro e heval
    refine .stops (Nat.lt_succ_self 3) hp hg.spares hi ?_
    rw [hadvance, perform_eq, heval]
  -- The left operand is looked at first, and an error of it comes before one of the right operand.
  unfold ArithOp.onOperands
  cases hx : a.number h σ with
  | error e =>
    exact hstop e (eval_applyOperator_error hs hargs (.inl (hta.trans hx)))
  | ok x =>
    cases hy : b.number h σ with
    | error e => exact hstop e (eval_applyOperator_error hs hargs (.inr ⟨x, hta.trans hx, hub.trans hy⟩))
    | ok y =>
      show Evaluates w c label block N low i 4 m _ (match op.eval? x y with
        | some z => .ok (Operand.const (.number z))
        | none => .error (.divisionByZero op.opcode))
      cases hz : op.eval? x y with
      | none =>
        exact hstop (.divisionByZero op.opcode)
          (eval_applyOperator_zero hs hargs (hta.trans hx) (hub.trans hy) hz)
      | some z =>
        have hne : instr.result ≠ "" := by
          intro hempty
          simpa [instr, resultRegister] using congrArg String.toList hempty
        let k : Constant := ⟨.number z, .heap m₁.heap.constants⟩
        let m₂ := (m₁.counted w instr).setVar (m₁.heap.newConst (.number z)).2 instr.result (.const k)
        have heval : eval (applyOperator instr (.value op)) (m₁.counted w instr) =
            (.ok (), { m₂ with success := true }) :=
          eval_applyOperator_value hs hargs (hta.trans hx) (hub.trans hy) hz hne
        have hcurrent₁ : (m₁.counted w instr).current < (m₁.counted w instr).frames.size := hg.current
        have hsize : m₂.frames.size = m₁.frames.size := frames_size_changeFrame
        have hlast : Passes w c label (i + 3) 1 m₁ { m₂ with success := true } :=
          .one hat₁ hblock hi hroom₁ (hexecute ▸ heval) ⟨rfl, rfl, rfl, rfl, rfl, hsize, rfl⟩
        have hmemory : m₂.Memory := (hg.memory.counted.newConst (.number z)).put trivial
        have hspares : Spares ∅ N low m m₂ :=
          hg.spares.counted.register hcurrent₁ (.inr (Nat.lt_succ_self low)) (.newConst _ _) rfl _
        refine .value (hp.trans hlast) (hmemory.of_eq rfl rfl rfl fun _ => ⟨rfl, rfl⟩)
          (hspares.flagged true) (.result (k := k) (Nat.succ_pos low) (Nat.le_refl _) ?_)
        exact (value?_setVar hcurrent₁).trans (if_pos rfl)

section Emission

open Emit

/-- Wherever the code of the expression stands, it carries out the evaluation with result `r`, and leaves an
    instruction that pushes the value. -/
def Computes (w : World) (c : Clause) (label : String) (block : Code) (N : Set String) (h : Heap)
    (σ : String → Option Value) (x : Expr) (r : Except RunError Operand) : Prop :=
  ∀ {e : Emitter} {i : Nat} {m : Machine}, Renders h σ m → m.Memory → m.current < m.frames.size →
    At c label i m → Segment block i ((evalOperand x).eval e).1.1 →
    Room w ((evalOperand x).eval e).1.1.length m →
    Evaluates w c label block N e.results i ((evalOperand x).eval e).1.1.length m
      (fun o m' => Carries N ((evalOperand x).eval e).2.results m' ((evalOperand x).eval e).1.2 o) r

/-- The constant that a push instruction has been given. -/
theorem pushConst_carries (d : Atomic) (e : Emitter) (N : Set String) (high : Nat) (m : Machine) :
    Carries N high m ((PrologMachine.pushConst d).eval e).1 (.const d) := by
  have hk : ((PrologMachine.pushConst d).eval e).1.constant = some ⟨d, .code e.compiler e.constants⟩ := by
    cases d <;> rfl
  refine .const ?_ hk
  cases d
  · exact .inr rfl
  · exact .inl rfl
  · exact .inr rfl

/-- A variable is pushed as it is. -/
theorem var_computes (hN : x ∈ N) (hx : isRegister x = false) :
    Computes w c label block N h σ (.var x) (.ok (.var x)) :=
  fun _ hm _ hat _ _ => .value (.zero hat) hm (.refl _ _ _ _) (.var hN hx)

theorem const_computes (d : Atomic) : Computes w c label block N h σ (.const d) (.ok (.const d)) :=
  fun {e} _ _ _ hm _ hat _ _ => .value (.zero hat) hm (.refl _ _ _ _) (pushConst_carries d e N _ _)

/-- First the operators in the left operand are evaluated, then those in the right one, and then the
    operator itself. -/
theorem apply_computes {l r : Expr} {ra rb : Except RunError Operand} (op : ArithOp)
    (hblock : c.block? label = some block) (hl : Computes w c label block N h σ l ra)
    (hr : Computes w c label block N h σ r rb) :
    Computes w c label block N h σ (.apply (.value op) true l r)
      (do let a ← ra; let b ← rb; op.onOperands h σ a b) := by
  intro e i m hrenders hm hcurrent hat hcode hroom
  let a := (evalOperand l).eval e
  let b := (evalOperand r).eval a.2
  let own : Code := [{ op := .prepare }, a.1.2, b.1.2,
    { op := op.opcode, result := resultRegister (b.2.results + 1) }]
  change Segment block i (a.1.1 ++ b.1.1 ++ own) at hcode
  change Room w (a.1.1 ++ b.1.1 ++ own).length m at hroom
  show Evaluates w c label block N e.results i (a.1.1 ++ b.1.1 ++ own).length m (fun o m' =>
    Carries N (b.2.results + 1) m' { op := .pushValue, name := resultRegister (b.2.results + 1) } o) _
  have hlength : (a.1.1 ++ b.1.1 ++ own).length = a.1.1.length + (b.1.1.length + 4) := by
    rw [List.length_append, List.length_append, Nat.add_assoc]
    rfl
  -- The code of the left operand, the code of the right operand, and the four instructions of the
  -- operator.
  rw [hlength] at hroom ⊢
  have hle₁ : e.results ≤ a.2.results := results_evalOperand l e
  have hle₂ : a.2.results ≤ b.2.results := results_evalOperand r a.2
  have hroom₁ : Room w a.1.1.length m := hroom.mono (by omega)
  -- Computing the right operand spares the result of the left one, which has a lower number.
  refine (hl hrenders hm hcurrent hat hcode.left.left hroom₁).bind hle₁ fun o₁ m₁ hp₁ hm₁ hs₁ ho₁ => ?_
  have hcurrent₁ : m₁.current < m₁.frames.size := by rw [hp₁.current, hp₁.frames]; exact hcurrent
  have hsteps₁ : m₁.steps = m.steps + a.1.1.length := hp₁.steps
  have hroom₂ : Room w b.1.1.length m₁ := hroom.mono (by omega)
  refine (hr (hrenders.spares hs₁) hm₁ hcurrent₁ hp₁.behind hcode.left.right hroom₂).bind hle₂
    fun o₂ m₂ hp₂ hm₂ hs₂ ho₂ => ?_
  have hcurrent₂ : m₂.current < m₂.frames.size := by rw [hp₂.current, hp₂.frames]; exact hcurrent₁
  have hsteps₂ : m₂.steps = m₁.steps + b.1.1.length := hp₂.steps
  have hright := hcode.right
  rw [List.length_append, ← Nat.add_assoc] at hright
  exact operator_evaluates op ((hrenders.spares hs₁).spares hs₂) hm₂ hcurrent₂ (ho₁.spares hs₂ hle₂) ho₂
    hp₂.behind hblock hright (hroom.mono (by omega))

/-- **The code of an expression evaluates it.** -/
theorem evalOperand_computes (hblock : c.block? label = some block) (a : Arith) (ha : a.expr.Proper)
    (hN : ∀ x ∈ a.names, x ∈ N) : Computes w c label block N h σ a.expr (a.evaluate h σ) := by
  induction a with
  | var x => exact var_computes (hN x (List.mem_singleton_self x)) ha
  | const d => exact const_computes d
  | neg t ih => exact apply_computes .minus hblock (const_computes (.number 0)) (ih ha.2.2 hN)
  | apply op l r ihl ihr =>
    exact apply_computes op hblock (ihl ha.2.1 fun x hx => hN x (List.mem_append_left _ hx))
      (ihr ha.2.2 fun x hx => hN x (List.mem_append_right _ hx))

end Emission

end Machine

end PrologMachine
