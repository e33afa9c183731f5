/-
  PrologMachine.Proofs.Renumbering.Emission ── **CODE IS EMITTED THE SAME WAY AT ALL TIMES.**

  What a compiler emits for a body depends on how many auxiliary predicates and constants it has
  emitted before, but only up to renumbering.

    * `Renumbering.reach` pairs the constants that two compilers emit from some point on.
    * `Emits` is the property of two emitters; it is closed under sequencing.
    * `Renumbering.Bodies`: bodies that differ in the heads of their auxiliary clauses;
      `Bodies.fragment` is the code of such bodies, `clauseOf_emits` that of clauses.
-/
import PrologMachine.Proofs.Renumbering.Code

namespace PrologMachine

namespace Renumbering

variable {ρ : Renumbering} {a a' k l : Nat}

/-! ## §1. Emitters. -/

/-- The first `k` constants from `a` on are paired with those from `a'` on. -/
def reach (ρ : Renumbering) (a a' k : Nat) : Renumbering :=
  { ρ with
    cells := fun n n' => ∃ j, j < k ∧ n = a + j ∧ n' = a' + j
    cells_inj := by
      rintro _ _ _ _ ⟨j, -, rfl, rfl⟩ ⟨l, -, rfl, rfl⟩
      omega }

/-- The numbers that are reached grow with the counter. -/
theorem reach_mono (ρ : Renumbering) (a a' : Nat) (h : k ≤ l) : ρ.reach a a' k ≤ ρ.reach a a' l :=
  ⟨fun _ _ hg => hg, fun _ _ ⟨j, hj, hn⟩ => ⟨j, by omega, hn⟩⟩

/-- Auxiliary clauses of paired predicates, with the same code up to renumbering. -/
abbrev Kin (ρ : Renumbering) : List PrologMachine.Clause → List PrologMachine.Clause → Prop :=
  List.Forall₂ fun d d' => ρ.Clause d d' ∧ ρ.goals d.signature d'.signature

/-- Emitters that have come equally far: `k` constants from `a` and `a'` on. -/
structure Emitters (ρ : Renumbering) (a a' k : Nat) (e e' : Emitter) : Prop where
  /-- One compiler owns the constants. -/
  compiler : e'.compiler = e.compiler
  /-- As many constants were emitted. -/
  left : e.constants = a + k
  /-- On both sides. -/
  right : e'.constants = a' + k
  /-- The same variables have occurred. -/
  seen : e'.seen = e.seen
  /-- As many structure registers are in use. -/
  registers : e'.registers = e.registers
  /-- As many result registers. -/
  results : e'.results = e.results
  /-- There are as many leaf goals. -/
  leaves : e'.leaves = e.leaves
  /-- The auxiliary clauses. -/
  auxiliaries : (ρ.reach a a' k).Kin (PrologMachine.Clause.descendantsOf e.auxiliaries)
    (PrologMachine.Clause.descendantsOf e'.auxiliaries)

theorem Kin.mono {ρ' : Renumbering} {cs cs' : List PrologMachine.Clause} (hρ : ρ ≤ ρ')
    (h : ρ.Kin cs cs') : ρ'.Kin cs cs' :=
  h.imp fun _ _ h => ⟨h.1.mono hρ, hρ.1 _ _ h.2⟩

end Renumbering

open Renumbering

namespace Emit

variable {α β γ δ : Type} {ρ : Renumbering} {a a' k l : Nat} {R : Nat → α → β → Prop}
  {S : Nat → γ → δ → Prop} {name : String}

/-- **The emitters emit the same up to renumbering** when `k` constants were emitted before. -/
def Emits (ρ : Renumbering) (a a' k : Nat) (R : Nat → α → β → Prop) (x : Emit α) (x' : Emit β) :
    Prop := ∀ e e', ρ.Emitters a a' k e e' →
      ∃ l, k ≤ l ∧ R l (eval x e).1 (eval x' e').1 ∧ ρ.Emitters a a' l (eval x e).2 (eval x' e').2

/-- The same on both sides. -/
abbrev Alike {α : Type} : Nat → α → α → Prop := fun _ x x' => x' = x

namespace Emits

protected theorem pure {x : α} {x' : β} (h : R k x x') : Emits ρ a a' k R (pure x) (pure x') :=
  fun _ _ he => ⟨k, le_rfl, h, he⟩

/-- Emitters in turn, of which the second starts where the first has stopped. -/
protected theorem bind {x : Emit α} {x' : Emit β} {f : α → Emit γ} {f' : β → Emit δ}
    (hx : Emits ρ a a' k R x x')
    (hf : ∀ {l y y'}, k ≤ l → R l y y' → Emits ρ a a' l S (f y) (f' y')) :
    Emits ρ a a' k S (x >>= f) (x' >>= f') := by
  intro e e' he
  obtain ⟨l, hl, hR, he₁⟩ := hx e e' he
  obtain ⟨l', hl', hS, he₂⟩ := hf hl hR _ _ he₁
  exact ⟨l', hl.trans hl', hS, he₂⟩

protected theorem ite (c : Prop) [Decidable c] {x y : Emit α} {x' y' : Emit β}
    (hx : Emits ρ a a' k R x x') (hy : Emits ρ a a' k R y y') :
    Emits ρ a a' k R (if c then x else y) (if c then x' else y') := by
  split <;> assumption

end Emits

/-! ## §2. Constants, variables and registers. -/

/-- A variable of the program is not the goal. -/
theorem ne_goal (hname : isRegister name = false) : name ≠ "$x0" := by
  rintro rfl
  exact absurd hname (by decide)

theorem structRegister_ne (n : Nat) (hn : n ≠ 0) : structRegister n ≠ "$x0" := by
  rw [← structRegister_zero, Ne, structRegister_inj]
  exact hn

theorem resultRegister_ne (n : Nat) : resultRegister n ≠ "$x0" := by
  intro h
  simpa [resultRegister] using congrArg String.toList h

/-- Both emitters take the next constant. -/
theorem constant_emits (value : Atomic) : Emits ρ a a' k
    (fun l c c' => (ρ.reach a a' l).Const c c') (constant value) (constant value) := by
  intro e e' he
  have hmono := ρ.reach_mono a a' (Nat.le_succ k)
  refine ⟨k + 1, Nat.le_succ k, ⟨rfl, he.compiler, k, Nat.lt_succ_self k, he.left, he.right⟩, ?_⟩
  exact { he with
    left := by simp [he.left]; omega
    right := by simp [he.right]; omega
    auxiliaries := Kin.mono hmono he.auxiliaries }

/-- Both have seen the same names. -/
theorem occurs_emits (name : String) : Emits ρ a a' k Alike (occurs name) (occurs name) := by
  intro e e' he
  rw [eval_occurs, eval_occurs, he.seen]
  refine ⟨k, le_rfl, rfl, ?_⟩
  simp only
  split
  · exact he
  · exact { he with seen := rfl }

/-- Both begin to count registers again. -/
theorem clearRegisters_emits : Emits ρ a a' k Alike clearRegisters clearRegisters :=
  fun _ _ he => ⟨k, le_rfl, rfl, { he with registers := rfl }⟩

/-- Both take the same register, which is not the goal. -/
theorem newRegister_emits : Emits ρ a a' k (fun _ r r' => r' = r ∧ r ≠ 0) newRegister newRegister :=
  fun _ _ he => ⟨k, le_rfl, ⟨congrArg (· + 1) he.registers, Nat.succ_ne_zero _⟩,
    { he with registers := congrArg (· + 1) he.registers }⟩

/-- Both take the same result. -/
theorem newResult_emits : Emits ρ a a' k (fun _ y y' => y' = y ∧ y ≠ "$x0") newResult newResult :=
  fun _ _ he => ⟨k, le_rfl, ⟨congrArg (fun n => resultRegister (n + 1)) he.results,
    resultRegister_ne _⟩, { he with results := congrArg (· + 1) he.results }⟩

/-- Both take the same label. -/
theorem newLeaf_emits : Emits ρ a a' k Alike newLeaf newLeaf :=
  fun _ _ he => ⟨k, le_rfl, congrArg leafLabel he.leaves,
    { he with leaves := congrArg (· + 1) he.leaves }⟩

/-! ## §3. Heads. -/

/-- The same instruction. -/
abbrev SameInstr (ρ : Renumbering) (a a' : Nat) : Nat → Instruction → Instruction → Prop :=
  fun l => (ρ.reach a a' l).Instr

/-- The same code. -/
abbrev SameCode (ρ : Renumbering) (a a' : Nat) : Nat → Code → Code → Prop :=
  fun l => (ρ.reach a a' l).Codes

/-- No place is the register of the goal. -/
def Apart (places : List (Option Nat)) : Prop := ∀ r, some r ∈ places → r ≠ 0

/-- The same code with the same places. -/
def Placing (ρ : Renumbering) (a a' l : Nat) (out out' : Code × List (Option Nat)) : Prop :=
  (ρ.reach a a' l).Codes out.1 out'.1 ∧ out'.2 = out.2 ∧ Apart out.2

/-- One more place, which is not the goal either. -/
theorem Apart.cons {r : Option Nat} {places : List (Option Nat)} (hr : ∀ n ∈ r, n ≠ 0)
    (h : Apart places) : Apart (r :: places) := by
  intro n hn
  rcases List.mem_cons.1 hn with rfl | hn
  · exact hr n rfl
  · exact h n hn

/-- A variable of a head is decoded by one instruction. -/
theorem decodeVar_emits (root : Bool) (hname : isRegister name = false) :
    Emits ρ a a' k (SameInstr ρ a a') (decodeVar root name) (decodeVar root name) := by
  refine .ite _ (.pure (.refl rfl empty_ne empty_ne empty_ne)) ((occurs_emits name).bind ?_)
  intro l first first' _ hfirst
  obtain rfl : first' = first := hfirst
  exact .pure (.refl rfl empty_ne (ne_goal hname) empty_ne)

/-- A constant by counterparts. -/
theorem decodeConst_emits (root : Bool) (value : Atomic) :
    Emits ρ a a' k (SameInstr ρ a a') (decodeConst root value) (decodeConst root value) :=
  (constant_emits value).bind fun _ hc =>
    .pure (.constant_eq empty_ne empty_ne empty_ne (.some hc))

theorem decodeArg_emits (root : Bool) {t : Term} (ht : t.Proper) : Emits ρ a a' k
    (fun l p p' => (ρ.reach a a' l).Codes p.1 p'.1 ∧ p'.2 = p.2 ∧ ∀ n ∈ p.2, n ≠ 0)
    (decodeArg root t) (decodeArg root t) := by
  match t, ht with
  | .var name id, ht =>
    exact (decodeVar_emits root ht).bind fun _ hi => .pure ⟨.cons hi .nil, rfl, by simp⟩
  | .const v pos, _ =>
    exact (decodeConst_emits root v).bind fun _ hi => .pure ⟨.cons hi .nil, rfl, by simp⟩
  | .app name [] attrs pos, _ =>
    exact (decodeConst_emits root _).bind fun _ hi => .pure ⟨.cons hi .nil, rfl, by simp⟩
  | .app name (x :: xs) attrs pos, _ =>
    refine newRegister_emits.bind fun _ hr => ?_
    obtain ⟨rfl, hr⟩ := hr
    refine .pure ⟨.cons (.refl rfl empty_ne (structRegister_ne _ hr) empty_ne) .nil, rfl, ?_⟩
    simpa using hr
  | .absent, ht => exact ht.elim

theorem decodeArgs_emits (root : Bool) : ∀ {k : Nat} {ts : List Term}, Term.AllProper ts →
    Emits ρ a a' k (Placing ρ a a') (decodeArgs root ts) (decodeArgs root ts)
  | _, [], _ => .pure ⟨.nil, rfl, by simp [Apart]⟩
  | _, _ :: _, hts =>
    (decodeArg_emits root hts.1).bind fun _ hown =>
      (decodeArgs_emits root hts.2).bind fun hl hrest =>
      .pure ⟨List.rel_append (Codes.mono (ρ.reach_mono a a' hl) hown.1) hrest.1,
        by rw [hown.2.1, hrest.2.1], hrest.2.2.cons hown.2.2⟩

/-- The start of a structure other than the goal. -/
theorem getStruct_instr {n r : Nat} (hr : r ≠ 0) :
    ρ.Instr (getStruct name n r) (getStruct name n r) :=
  .refl rfl (structRegister_ne r hr) empty_ne empty_ne

theorem decodeNested_emits (ts : List Term) (places : List (Option Nat)) :
    ∀ {k : Nat}, Term.AllProper ts → Apart places →
      Emits ρ a a' k (SameCode ρ a a') (decodeNested ts places) (decodeNested ts places) := by
  fun_induction decodeNested ts places with
  | case1 name args attrs pos ts r rs ihBelow ihRest =>
    intro k hts hplaces
    -- The arguments of the structure come first, then what is nested in them, then the other structures.
    refine (decodeArgs_emits false hts.1.2).bind fun {l p p'} _ hown => ?_
    obtain ⟨own, regs⟩ := p
    obtain ⟨own', regs'⟩ := p'
    obtain ⟨hcode, rfl, hregs⟩ := hown
    refine (ihBelow regs' hts.1.2 hregs).bind fun hl hbelow => ?_
    refine (ihRest hts.2 fun n hn => hplaces n (List.mem_cons_of_mem _ hn)).bind
      fun hl' hrest => .pure ?_
    have hbelow' := Codes.mono (ρ.reach_mono a a' hl') hbelow
    have hown' := Codes.mono (ρ.reach_mono a a' (hl.trans hl')) hcode
    exact List.rel_append (List.rel_append (.cons (getStruct_instr (hplaces r (by simp))) hown')
      hbelow') hrest
  | case2 t ts r rs _ ih =>
    intro k hts hplaces
    exact ih hts.2 fun n hn => hplaces n (List.mem_cons_of_mem _ hn)
  | case3 => exact fun _ _ => .pure .nil

/-- **The code of a head**, for paired predicates. -/
theorem decodeHead_emits {name' : String} {args : List Term} (hasBody : Bool)
    (hargs : Term.AllProper args)
    (hgoal : ρ.Goal ⟨name, args.length⟩ ⟨name', args.length⟩) :
    Emits ρ a a' k (SameCode ρ a a') (decodeHead name args hasBody)
      (decodeHead name' args hasBody) := by
  refine clearRegisters_emits.bind fun _ _ => (decodeArgs_emits true hargs).bind
    fun {l p p'} _ hown => ?_
  obtain ⟨own, regs⟩ := p
  obtain ⟨own', regs'⟩ := p'
  obtain ⟨hcode, rfl, hregs⟩ := hown
  refine (decodeNested_emits args regs' hargs hregs).bind fun hl hbelow => .pure ?_
  have hown' := Codes.mono (ρ.reach_mono a a' hl) hcode
  refine List.rel_append (List.rel_append (.cons ?_ hown') hbelow) (.cons ?_ .nil)
  · exact ⟨rfl, fun _ => hgoal, fun h => (h structRegister_zero).elim, rfl, rfl, rfl, .none, rfl,
      rfl,      empty_ne, empty_ne⟩
  · cases hasBody <;> exact .refl rfl empty_ne empty_ne empty_ne

/-! ## §4. Goals. -/

/-- An argument is passed by counterparts. -/
theorem putArg_emits {t : Term} (ht : t.Proper) :
    Emits ρ a a' k (SameInstr ρ a a') (putArg t) (putArg t) := by
  match t, ht with
  | .var name id, ht =>
    refine .ite _ (.pure (.refl rfl empty_ne empty_ne empty_ne)) ((occurs_emits name).bind ?_)
    intro l first first' _ hfirst
    obtain rfl : first' = first := hfirst
    exact .ite _ (.pure (.refl rfl empty_ne (ne_goal ht) empty_ne))
      (.pure (.refl rfl empty_ne (ne_goal ht) empty_ne))
  | .const v pos, _ =>
    exact (constant_emits v).bind fun _ hc =>
      .pure (.constant_eq empty_ne empty_ne empty_ne (.some hc))
  | .app name args attrs pos, _ =>
    exact (constant_emits _).bind fun _ hc =>
      .pure (.constant_eq empty_ne empty_ne empty_ne (.some hc))
  | .absent, ht => exact ht.elim

theorem putArgs_emits (ts : List Term) (places : List (Option Nat)) :
    ∀ {k : Nat}, Term.AllProper ts → Apart places →
      Emits ρ a a' k (SameCode ρ a a') (putArgs ts places) (putArgs ts places) := by
  fun_induction putArgs ts places with
  | case1 t ts r rs ih =>
    intro k hts hplaces
    refine (ih hts.2 fun n hn => hplaces n (List.mem_cons_of_mem _ hn)).bind fun _ hrest => .pure ?_
    exact .cons (.refl rfl empty_ne (structRegister_ne r (hplaces r (by simp))) empty_ne) hrest
  | case2 t ts rs ih =>
    intro k hts hplaces
    refine (putArg_emits hts.1).bind fun _ hown => ?_
    refine (ih hts.2 fun n hn => hplaces n (List.mem_cons_of_mem _ hn)).bind
      fun hl hrest => .pure ?_
    exact .cons (hown.mono (ρ.reach_mono a a' hl)) hrest
  | case3 => exact fun _ _ => .pure .nil

theorem buildNested_emits (ts : List Term) : ∀ {k : Nat}, Term.AllProper ts →
    Emits ρ a a' k (Placing ρ a a') (buildNested ts) (buildNested ts) := by
  fun_induction buildNested ts with
  | case1 => exact fun _ => .pure ⟨.nil, rfl, by simp [Apart]⟩
  | case2 name x xs attrs pos ts ihBelow ihRest =>
    intro k hts
    refine newRegister_emits.bind fun _ hr => ?_
    obtain ⟨rfl, hr⟩ := hr
    refine (ihBelow hts.1.2).bind fun {l p p'} _ hbelow => ?_
    obtain ⟨below, regs⟩ := p
    obtain ⟨below', regs'⟩ := p'
    obtain ⟨hcode, rfl, hregs⟩ := hbelow
    refine (putArgs_emits (x :: xs) regs' hts.1.2 hregs).bind fun hl hputs => ?_
    refine (ihRest hts.2).bind fun {l p p'} hl' hrest => .pure ?_
    obtain ⟨code, rs⟩ := p
    obtain ⟨code', rs'⟩ := p'
    obtain ⟨hcode', rfl, hrs⟩ := hrest
    -- What was emitted before was emitted with fewer numbers, so it is still the same.
    have hbelow' := Codes.mono (ρ.reach_mono a a' (hl.trans hl')) hcode
    have hputs' := Codes.mono (ρ.reach_mono a a' hl') hputs
    refine ⟨?_, rfl, hrs.cons (by simpa using hr)⟩
    refine List.rel_append (List.rel_append hbelow' (.cons ?_ hputs')) hcode'
    exact .refl rfl (structRegister_ne _ hr) empty_ne empty_ne
  | case3 t ts _ ih =>
    intro k hts
    exact (ih hts.2).bind fun _ h => .pure ⟨h.1, by rw [h.2.1], h.2.2.cons (by simp)⟩

/-- **The code of a call**, for paired predicates. -/
theorem callGoal_emits {isNative : Signature → Bool} {g g' : Goal} (negated : Bool)
    (hargs : Term.AllProper g.args) (hargs' : g'.args = g.args)
    (hgoal : ρ.Goal g.signature g'.signature)
    (hnative : (g'.attrs.has .builtin || isNative g'.signature) =
      (g.attrs.has .builtin || isNative g.signature)) :
    Emits ρ a a' k (SameCode ρ a a') (callGoal isNative g negated)
      (callGoal isNative g' negated) := by
  have hbuild : Emits ρ a a' k (SameCode ρ a a') (buildGoal g) (buildGoal g') := by
    unfold buildGoal
    rw [hargs']
    refine clearRegisters_emits.bind fun _ _ => (buildNested_emits g.args hargs).bind
      fun {l p p'} _ hbelow => ?_
    obtain ⟨below, regs⟩ := p
    obtain ⟨below', regs'⟩ := p'
    obtain ⟨hcode, rfl, hregs⟩ := hbelow
    refine (putArgs_emits g.args regs' hargs hregs).bind fun hl hputs => .pure ?_
    refine List.rel_append (Codes.mono (ρ.reach_mono a a' hl) hcode) (.cons ?_ hputs)
    have hsignature : g'.signature = ⟨g'.name, g.args.length⟩ := by rw [← hargs']; rfl
    -- The goal itself is the one structure whose name may differ, which only register 0 allows.
    exact ⟨rfl, fun _ => hsignature ▸ hgoal, fun h => (h structRegister_zero).elim, rfl, rfl, rfl,
      .none, rfl, rfl, empty_ne, empty_ne⟩
  unfold callGoal
  simp only [hnative]
  refine hbuild.bind fun _ hcode => .pure ?_
  refine List.rel_append (.cons ?_ hcode) (.cons ?_ (.cons ?_ (.cons ?_ (.cons ?_ .nil))))
  all_goals exact .refl rfl empty_ne empty_ne empty_ne

/-! ## §5. Arithmetic. -/

/-- A constant is pushed by counterparts. -/
theorem pushConst_emits (value : Atomic) :
    Emits ρ a a' k (SameInstr ρ a a') (pushConst value) (pushConst value) :=
  (constant_emits value).bind fun _ hc =>
    .pure (.constant_eq empty_ne empty_ne empty_ne (.some hc))

/-- An expression is computed by counterparts. -/
theorem evalOperand_emits (x : Expr) : ∀ {k : Nat}, x.Proper → Emits ρ a a' k
    (fun l p p' => (ρ.reach a a' l).Codes p.1 p'.1 ∧ (ρ.reach a a' l).Instr p.2 p'.2)
    (evalOperand x) (evalOperand x) := by
  induction x with
  | var name =>
    exact fun hx => (occurs_emits name).bind fun _ _ =>
      .pure ⟨.nil, .refl rfl empty_ne (ne_goal hx) empty_ne⟩
  | const v => exact fun _ => (pushConst_emits v).bind fun _ hi => .pure ⟨.nil, hi⟩
  | apply op keeps left right ihl ihr =>
    intro k hx
    refine (ihl hx.2.1).bind fun {l p p'} _ hleft => (ihr hx.2.2).bind fun {l' o o'} hl hright => ?_
    obtain ⟨code, x⟩ := p
    obtain ⟨code', x'⟩ := p'
    obtain ⟨more, y⟩ := o
    obtain ⟨more', y'⟩ := o'
    -- Whether the result is kept or not, the code ends in one way; only the name of the result differs.
    have hfinish : ∀ {n : Nat} (z : String), l' ≤ n → z ≠ "$x0" → Emits ρ a a' n
        (fun l p p' => (ρ.reach a a' l).Codes p.1 p'.1 ∧ (ρ.reach a a' l).Instr p.2 p'.2)
        (pure (code ++ more ++ [{ op := .prepare }, x, y, { op := op.opcode, result := z }],
          ({ op := .pushValue, name := z } : Instruction)))
        (pure (code' ++ more' ++ [{ op := .prepare }, x', y', { op := op.opcode, result := z }],
          ({ op := .pushValue, name := z } : Instruction))) := by
      intro n z hn hz
      have hmono := ρ.reach_mono a a' (hl.trans hn)
      have hmono' := ρ.reach_mono a a' hn
      refine .pure ⟨List.rel_append
        (List.rel_append (Codes.mono hmono hleft.1) (Codes.mono hmono' hright.1))
        (.cons ?_ (.cons (hleft.2.mono hmono) (.cons (hright.2.mono hmono') (.cons ?_ .nil)))), ?_⟩
      · exact .refl rfl empty_ne empty_ne empty_ne
      · exact .refl rfl empty_ne empty_ne hz
      · exact .refl rfl empty_ne hz empty_ne
    refine .ite _ (newResult_emits.bind fun hn hz => ?_) (hfinish "" le_rfl empty_ne)
    obtain ⟨rfl, hz⟩ := hz
    exact hfinish _ hn hz

/-- The target of an assignment is pushed by counterparts. -/
theorem pushTarget_emits {target : Target} (ht : target.Proper) :
    Emits ρ a a' k (SameInstr ρ a a') (pushTarget target) (pushTarget target) := by
  cases target with
  | var name =>
    refine (occurs_emits name).bind fun {l first first'} _ hfirst => ?_
    obtain rfl : first' = first := hfirst
    exact .ite _ (.pure (.refl rfl empty_ne (ne_goal ht) empty_ne))
      (.pure (.refl rfl empty_ne (ne_goal ht) empty_ne))
  | const v => exact pushConst_emits v

theorem assignCode_emits {target : Target} {value : Expr} (ht : target.Proper) (hv : value.Proper) :
    Emits ρ a a' k (SameCode ρ a a') (assignCode target value) (assignCode target value) := by
  refine (evalOperand_emits value hv).bind fun _ hvalue => (pushTarget_emits ht).bind
    fun hl htarget => newResult_emits.bind fun hl' hy => .pure ?_
  obtain ⟨rfl, hy⟩ := hy
  have hmono := ρ.reach_mono a a' (hl.trans hl')
  refine List.rel_append (Codes.mono hmono hvalue.1)
    (.cons ?_ (.cons (htarget.mono (ρ.reach_mono a a' hl')) (.cons (hvalue.2.mono hmono)
      (.cons ?_ .nil))))
  · exact .refl rfl empty_ne empty_ne empty_ne
  · exact .refl rfl empty_ne empty_ne hy

/-! ## §6. Clauses. -/

/-- Clauses of the given predicates that are the same with all their auxiliary clauses. -/
structure SameClause (ρ : Renumbering) (a a' : Nat) (s s' : Signature) (l : Nat)
    (c c' : Clause) : Prop where
  /-- The code. -/
  clause : (ρ.reach a a' l).Clause c c'
  /-- The predicate of the first. -/
  left : c.signature = s
  /-- The predicate of the second. -/
  right : c'.signature = s'
  /-- The auxiliary clauses. -/
  descendants : (ρ.reach a a' l).Kin c.descendants c'.descendants

/-- An auxiliary clause is put with the others. -/
theorem withAuxiliary_emits {x x' : Emit Clause} (s s' : Signature) (hs : ρ.goals s s')
    (hx : Emits ρ a a' k (SameClause ρ a a' s s') x x') :
    Emits ρ a a' k Alike (withAuxiliary x) (withAuxiliary x') := by
  intro e e' he
  obtain ⟨l, hl, hclause, hinner⟩ := hx { compiler := e.compiler, constants := e.constants }
    { compiler := e'.compiler, constants := e'.constants }
    ⟨he.compiler, he.left, he.right, rfl, rfl, rfl, rfl, .nil⟩
  refine ⟨l, hl, rfl, { he with left := hinner.left, right := hinner.right, auxiliaries := ?_ }⟩
  show (ρ.reach a a' l).Kin (Clause.descendantsOf (e.auxiliaries ++ [(eval x _).1]))
    (Clause.descendantsOf (e'.auxiliaries ++ [(eval x' _).1]))
  rw [Clause.descendantsOf_append, Clause.descendantsOf_append]
  refine List.rel_append (Kin.mono (ρ.reach_mono a a' hl) he.auxiliaries) ?_
  simp only [Clause.descendantsOf, List.append_nil]
  refine .cons ⟨hclause.clause, ?_⟩ hclause.descendants
  rw [hclause.left, hclause.right]
  exact hs

/-- **The clause of a head and a body**, for paired predicates. -/
theorem clauseOf_emits {name' : String} {args : List Term} (hargs : Term.AllProper args)
    (hgoal : ρ.Goal ⟨name, args.length⟩ ⟨name', args.length⟩) {body body' : Option (Emit Fragment)}
    (hbody : Option.Rel
      (fun x x' => ∀ {k}, Emits ρ a a' k (fun l => (ρ.reach a a' l).Fragments) x x')
      body body') :
    Emits ρ a a' k (SameClause ρ a a' ⟨name, args.length⟩ ⟨name', args.length⟩)
      (clauseOf name args body) (clauseOf name' args body') := by
  have hsome : body'.isSome = body.isSome := by cases hbody <;> rfl
  -- With a body or without, the clause collects the auxiliary clauses that were emitted on the way.
  have hfinish : ∀ {k : Nat} {head head' : Code} {blocks blocks' : List Block},
      (ρ.reach a a' k).Codes head head' →
      List.Forall₂ (ρ.reach a a' k).Block blocks blocks' →
      Emits ρ a a' k (SameClause ρ a a' ⟨name, args.length⟩ ⟨name', args.length⟩)
        (do return ⟨⟨name, args.length⟩, (headLabel, head) :: blocks, false, (← get).auxiliaries⟩)
        (do return ⟨⟨name', args.length⟩, (headLabel, head') :: blocks', false,
          (← get).auxiliaries⟩) := by
    intro k head head' blocks blocks' hhead hblocks e e' he
    refine ⟨k, le_rfl, ⟨⟨rfl, .cons ⟨rfl, hhead⟩ hblocks⟩, rfl, rfl, ?_⟩, he⟩
    simp only [eval_bind, eval_get, eval_pure, Clause.descendants_mk]
    exact he.auxiliaries
  unfold clauseOf
  rw [hsome]
  refine (decodeHead_emits body.isSome hargs hgoal).bind fun _ hhead => ?_
  cases hbody with
  | none => exact hfinish hhead .nil
  | some hbody =>
    refine hbody.bind fun hl hf => ?_
    exact hfinish (Codes.mono (ρ.reach_mono a a' hl) hhead) hf.blocks

end Emit

/-! ## §7. Bodies. -/

namespace Renumbering

open Emit

variable {ρ : Renumbering} {a a' k l : Nat}

/-- **Bodies that differ in the heads of their auxiliary clauses.**  No other goal is auxiliary. -/
inductive Bodies (ρ : Renumbering) : Body → Body → Prop where
  /-- Both in turn. -/
  | conj {l l' r r' : Body} (hl : Bodies ρ l l') (hr : Bodies ρ r r') :
    Bodies ρ (.conj l r) (.conj l' r')
  /-- One, and as alternative the other. -/
  | disj {l l' r r' : Body} (hl : Bodies ρ l l') (hr : Bodies ρ r r') :
    Bodies ρ (.disj l r) (.disj l' r')
  /-- Commit. -/
  | cut : Bodies ρ .cut .cut
  /-- Fail. -/
  | fail : Bodies ρ .fail .fail
  /-- Succeed. -/
  | succeed : Bodies ρ .succeed .succeed
  /-- A call. -/
  | call {g : PrologMachine.Goal} (hg : isAuxiliary g.name = false) : Bodies ρ (.call g) (.call g)
  /-- A negated call. -/
  | negatedCall {g : PrologMachine.Goal} (hg : isAuxiliary g.name = false) :
    Bodies ρ (.negatedCall g) (.negatedCall g)
  /-- A negated body. -/
  | negatedBody {head head' : PrologMachine.Goal} {b b' : Body}
    (hhead : ρ.goals head.signature head'.signature)
    (hargs : head'.args = head.args) (hattrs : head'.attrs = head.attrs) (hb : Bodies ρ b b') :
    Bodies ρ (.negatedBody head b) (.negatedBody head' b')
  /-- An assignment. -/
  | assign (target : Target) (value : Expr) : Bodies ρ (.assign target value) (.assign target value)
  /-- An evaluation. -/
  | evaluate (value : Expr) : Bodies ρ (.evaluate value) (.evaluate value)

/-- The code of a single goal, with the end of the body behind it. -/
theorem leaf_emits (u : UnitInfo) (primitive : Bool) (x x' : Emit Code)
    (hx : ∀ {k}, Emits ρ a a' k (SameCode ρ a a') x x') :
    Emits ρ a a' k (fun l => (ρ.reach a a' l).Fragments)
      (do let label ← newLeaf
          return .leaf label ((← x) ++ [u.tail]) primitive)
      (do let label ← newLeaf
          return .leaf label ((← x') ++ [u.tail]) primitive) := by
  refine newLeaf_emits.bind fun {l label label'} _ hlabel => hx.bind fun _ hcode => .pure ?_
  obtain rfl : label' = label := hlabel
  exact .leaf (List.rel_append hcode (.cons (.refl rfl empty_ne empty_ne empty_ne) .nil)) primitive

/-- **Bodies that differ in auxiliary heads have the same code up to renumbering.** -/
theorem Bodies.fragment {admits : Signature → Bool} {b b' : Body} (h : ρ.Bodies b b') :
    ∀ {k : Nat} (u : UnitInfo) (outermost : Bool), b.Proper admits →
      (∀ s, isAuxiliary s.name = true → u.isNative s = false) →
      Emits ρ a a' k (fun l => (ρ.reach a a' l).Fragments) (b.fragment u outermost)
        (b'.fragment u outermost) := by
  induction h with
  | conj _ _ ihl ihr =>
    exact fun u outermost hb hu => (ihl u outermost hb.1 hu).bind fun _ hleft =>
      (ihr u outermost hb.2 hu).bind fun hl hright =>
        .pure ((hleft.mono (ρ.reach_mono a a' hl)).conj hright)
  | disj _ _ ihl ihr =>
    exact fun u outermost hb hu => (ihl u false hb.1 hu).bind fun _ hleft =>
      (ihr u false hb.2 hu).bind fun hl hright =>
        .pure ((hleft.mono (ρ.reach_mono a a' hl)).disj outermost hright)
  | cut =>
    exact fun u outermost _ _ => leaf_emits u true (pure [{ op := .cut }]) (pure [{ op := .cut }])
      (.pure (.cons (.refl rfl empty_ne empty_ne empty_ne) .nil))
  | fail =>
    refine fun u outermost _ _ => newLeaf_emits.bind fun {l label label'} _ hlabel => .pure ?_
    obtain rfl : label' = label := hlabel
    exact .leaf (.cons (.refl rfl empty_ne empty_ne empty_ne) .nil) true
  | succeed =>
    exact fun u outermost _ _ => leaf_emits u true (pure []) (pure []) (.pure .nil)
  | call hg =>
    exact fun u outermost hb hu => leaf_emits u false _ _
      (callGoal_emits false hb.1 rfl (.inl ⟨hg, rfl⟩) rfl)
  | negatedCall hg =>
    exact fun u outermost hb hu => leaf_emits u false _ _
      (callGoal_emits true hb.1 rfl (.inl ⟨hg, rfl⟩) rfl)
  | @negatedBody head head' b b' hhead hargs hattrs _ ih =>
    -- A negated body is the one goal that has another name on each side; no native has such a name.
    intro k u outermost hb hu
    have hlength : head'.signature = ⟨head'.name, head.args.length⟩ := by rw [← hargs]; rfl
    have hnative : (head'.attrs.has .builtin || u.isNative head'.signature) =
        (head.attrs.has .builtin || u.isNative head.signature) := by
      rw [hattrs, hu _ (ρ.auxiliary hhead).1, hu _ (ρ.auxiliary hhead).2]
    have hgoal : ρ.Goal head.signature head'.signature := .inr hhead
    unfold Body.fragment
    refine newLeaf_emits.bind fun {l label label'} _ hlabel => ?_
    obtain rfl : label' = label := hlabel
    refine (withAuxiliary_emits head.signature ⟨head'.name, head.args.length⟩
      (hlength ▸ hhead) ?_).bind fun _ _ =>
        (callGoal_emits true hb.1.1 hargs hgoal hnative).bind fun _ hcode => .pure ?_
    · rw [hargs]
      exact clauseOf_emits hb.1.1 (hlength ▸ hgoal)
        (.some fun {k} => ih { u with isQuery := false } true hb.2 hu)
    · exact .leaf (List.rel_append hcode (.cons (.refl rfl empty_ne empty_ne empty_ne) .nil)) false
  | assign target value =>
    exact fun u outermost hb _ => leaf_emits u true _ _ (assignCode_emits hb.1 hb.2)
  | evaluate value =>
    refine fun u outermost hb _ => newLeaf_emits.bind fun {l label label'} _ hlabel =>
      (evalOperand_emits value hb).bind fun _ hcode => .pure ?_
    obtain rfl : label' = label := hlabel
    exact .leaf (List.rel_append hcode.1 (.cons (.refl rfl empty_ne empty_ne empty_ne) .nil)) true

end Renumbering

end PrologMachine
