/-
  PrologMachine.Proofs.Code.Emission ── **CODE OF SINGLE HEADS AND GOALS.**

  The code that the compiler emits for a head, for the construction of a goal and for an arithmetic
  expression follows the discipline of `Phase`, provided that the terms are proper: none of their
  variables has the name of a register and none of them is missing.

    * `decodeHead_closes`: a head is decoded completely, each structure once.
    * `callGoal_run`, `evalOperand_run`, `assignCode_run`: the code of the three kinds of goals.
-/
import PrologMachine.Proofs.Code.Phase

namespace PrologMachine

/-! ## §1. Running an emitter. -/

namespace Emit

variable {α β : Type} {e : Emitter}

/-- What an emitter returns, and the state it leaves. -/
def eval (x : Emit α) (e : Emitter) : α × Emitter := x.run e

@[simp] theorem eval_pure (a : α) : eval (pure a) e = (a, e) := rfl

@[simp] theorem eval_bind (x : Emit α) (k : α → Emit β) :
    eval (x >>= k) e = eval (k (eval x e).1) (eval x e).2 := rfl

@[simp] theorem eval_map (x : Emit α) (k : α → β) :
    eval (k <$> x) e = (k (eval x e).1, (eval x e).2) := rfl

@[simp] theorem eval_get : eval get e = (e, e) := rfl

@[simp] theorem eval_set (e' : Emitter) : eval (set e') e = ((), e') := rfl

@[simp] theorem eval_modify (g : Emitter → Emitter) : eval (modify g) e = ((), g e) := rfl

@[simp] theorem eval_ite (c : Prop) [Decidable c] (x y : Emit α) :
    eval (if c then x else y) e = if c then eval x e else eval y e := by
  split <;> rfl

@[simp] theorem eval_constant (a : Atomic) : eval (constant a) e =
    (⟨a, .code e.compiler e.constants⟩, { e with constants := e.constants + 1 }) := rfl

@[simp] theorem eval_occurs (name : String) : eval (occurs name) e =
    (!e.seen.contains name,
      if e.seen.contains name then e else { e with seen := name :: e.seen }) := by
  show eval (if e.seen.contains name then pure false
    else do set { e with seen := name :: e.seen }; pure true) e = _
  rw [eval_ite]
  cases e.seen.contains name <;> rfl

@[simp] theorem eval_clearRegisters :
    eval clearRegisters e = ((), { e with registers := 0 }) := rfl

@[simp] theorem eval_newRegister : eval newRegister e =
    (e.registers + 1, { e with registers := e.registers + 1 }) := rfl

@[simp] theorem eval_newResult : eval newResult e =
    (resultRegister (e.results + 1), { e with results := e.results + 1 }) := rfl

@[simp] theorem eval_newLeaf : eval newLeaf e =
    (leafLabel e.leaves, { e with leaves := e.leaves + 1 }) := rfl

end Emit

open Emit

variable (admits : Signature → Bool)

/-! ## §2. Proper terms. -/

mutual

/-- No variable of the term has the name of a register, no part of it is missing, and no operator
    with a value is marked as a comparison. -/
def Term.Proper : Term → Prop
  | .var name _ => isRegister name = false
  | .const _ _ => True
  | .app name args attrs _ =>
    (attrs.has .boolean = true → ∀ o, Operator.ofName? name ≠ some (.value o)) ∧
      Term.AllProper args
  | .absent => False

/-- All terms of a list are proper. -/
def Term.AllProper : List Term → Prop
  | [] => True
  | t :: ts => t.Proper ∧ Term.AllProper ts

end

/-- Terms are all proper when each one is. -/
theorem Term.allProper_iff {ts : List Term} : Term.AllProper ts ↔ ∀ t ∈ ts, t.Proper := by
  induction ts with
  | nil => simp [Term.AllProper]
  | cons t ts ih => simp [Term.AllProper, ih]

/-! ## §3. Heads. -/

/-- The name is none of the registers that are still to be handed out. -/
def Emitter.Used (e : Emitter) (x : String) : Prop := ∀ k, e.registers < k → x ≠ structRegister k

/-- A name that is used up stays used up as more registers are taken. -/
theorem Emitter.Used.mono {e e' : Emitter} {x : String} (h : e.Used x)
    (hle : e.registers ≤ e'.registers) : e'.Used x := fun k hk => h k (by omega)

/-- The names of the registers in a list of places. -/
def placeNames (places : List (Option Nat)) : List String :=
  -- The names of the registers that stand in the places of a structure's nested arguments.
  (places.filterMap id).map structRegister

@[simp] theorem placeNames_nil : placeNames [] = [] := rfl

@[simp] theorem placeNames_none (places : List (Option Nat)) :
    placeNames (none :: places) = placeNames places := rfl

@[simp] theorem placeNames_some (r : Nat) (places : List (Option Nat)) :
    placeNames (some r :: places) = structRegister r :: placeNames places := rfl

/-- A place with a register belongs to a structure with arguments. -/
def Placed (t : Term) (r : Option Nat) : Prop :=
  r.isSome → ∃ name a as attrs pos, t = .app name (a :: as) attrs pos

/-- What decoding the arguments of a structure leaves to do: the registers are new, each for a
    structure, and the code takes up one argument after the other. -/
structure DecodesArgs (ts : List Term) (e : Emitter)
    (out : (Code × List (Option Nat)) × Emitter) : Prop where
  /-- Registers are only added. -/
  grows : e.registers ≤ out.2.registers
  /-- Places belong to structures. -/
  placed : List.Forall₂ Placed ts out.1.2
  /-- The registers are distinct. -/
  nodup : (out.1.2.filterMap id).Nodup
  /-- They are new. -/
  fresh : ∀ r ∈ out.1.2.filterMap id, e.registers < r ∧ r ≤ out.2.registers
  /-- The code goes nowhere else. -/
  straight : Code.Straight out.1.1
  /-- The code decodes all arguments. -/
  run : ∀ pending last n, (∀ x ∈ pending, e.Used x) → e.Used last →
    (Phase.head pending last (ts.length + n)).run admits out.1.1 =
      some (.head ((placeNames out.1.2).reverse ++ pending) last n)

/-- A variable of a head is one of the arguments that the phase waits for. -/
private theorem decodeVar_next (root : Bool) {name : String} (e : Emitter)
    (hname : isRegister name = false) (pending : List String) (last : String) (n : Nat) :
    (Phase.head pending last (n + 1)).next admits ((decodeVar root name).eval e).1 =
      some (.head pending last n) := by
  have hx := isStructRegister_of_not_isRegister hname
  simp only [decodeVar, eval_ite, eval_pure, eval_bind, eval_occurs]
  split
  · simp [Phase.next, Phase.nextHead, Phase.decoded]
  · cases e.seen.contains name <;> cases root <;>
      simp [Phase.next, Phase.nextHead, Phase.decoded, hname, hx]

private theorem decodeVar_registers (root : Bool) (name : String) (e : Emitter) :
    ((decodeVar root name).eval e).2.registers = e.registers := by
  simp only [decodeVar, eval_ite, eval_pure, eval_bind, eval_occurs]
  split
  · rfl
  · cases e.seen.contains name <;> rfl

private theorem decodeConst_next (root : Bool) (a : Atomic) (e : Emitter)
    (pending : List String) (last : String) (n : Nat) :
    (Phase.head pending last (n + 1)).next admits ((decodeConst root a).eval e).1 =
      some (.head pending last n) := by
  cases a <;> cases root <;> rfl

private theorem decodeConst_registers (root : Bool) (a : Atomic) (e : Emitter) :
    ((decodeConst root a).eval e).2.registers = e.registers := rfl

/-- The instruction of a variable goes to no label. -/
private theorem decodeVar_straight (root : Bool) (name : String) (e : Emitter) :
    Code.Straight [((decodeVar root name).eval e).1] := by
  simp only [decodeVar, eval_ite, eval_pure, eval_bind, eval_occurs]
  split
  · simp
  · cases e.seen.contains name <;> cases root <;> simp

private theorem decodeConst_straight (root : Bool) (a : Atomic) (e : Emitter) :
    Code.Straight [((decodeConst root a).eval e).1] := by
  cases a <;> cases root <;> simp [decodeConst]

/-- One argument: at most one register is taken. -/
private theorem decodeArg_decodes (root : Bool) {t : Term} (ht : t.Proper) (e : Emitter) :
    DecodesArgs admits [t] e ((((decodeArg root t).eval e).1.1, [((decodeArg root t).eval e).1.2]),
      ((decodeArg root t).eval e).2) := by
  -- Only a structure takes a register, which no earlier argument has: it is not pending yet.
  match t, ht with
  | .var name id, ht =>
    refine ⟨?_, by simp [decodeArg, Placed], by simp [decodeArg], by simp [decodeArg],
      by simpa [decodeArg] using decodeVar_straight root name e, fun pending last n _ _ => ?_⟩
    · simp [decodeArg, decodeVar_registers]
    · simp [decodeArg, Phase.run_cons, Nat.add_comm, decodeVar_next admits root e ht]
  | .const a pos, _ =>
    refine ⟨?_, by simp [decodeArg, Placed], by simp [decodeArg], by simp [decodeArg],
      by simpa [decodeArg] using decodeConst_straight root _ e, fun pending last n _ _ => ?_⟩
    · simp [decodeArg, decodeConst_registers]
    · simp [decodeArg, Phase.run_cons, Nat.add_comm, decodeConst_next admits]
  | .app name [] attrs pos, _ =>
    refine ⟨?_, by simp [decodeArg, Placed], by simp [decodeArg], by simp [decodeArg],
      by simpa [decodeArg] using decodeConst_straight root _ e, fun pending last n _ _ => ?_⟩
    · simp [decodeArg, decodeConst_registers]
    · simp [decodeArg, Phase.run_cons, Nat.add_comm, decodeConst_next admits]
  | .app name (a :: as) attrs pos, _ =>
    refine ⟨by simp [decodeArg], by simp [decodeArg, Placed], by simp [decodeArg],
      by simp [decodeArg], by cases root <;> simp [decodeArg], fun pending last n hp hl => ?_⟩
    have hnew : e.registers < e.registers + 1 := by omega
    have hmem : structRegister (e.registers + 1) ∉ pending := fun h => hp _ h _ hnew rfl
    have hlast : structRegister (e.registers + 1) ≠ last := fun h => hl _ hnew h.symm
    have hzero : structRegister (e.registers + 1) ≠ "$x0" := by
      rw [← structRegister_zero, Ne, structRegister_inj]; omega
    cases root <;>
      simp [decodeArg, Phase.run_cons, Phase.next, Phase.nextHead, Phase.decoded, hmem, hlast,
        hzero, Nat.add_comm]

/-- **All arguments of a structure are decoded, and nested structures get new registers.** -/
theorem decodeArgs_decodes (root : Bool) : ∀ {ts : List Term} (_ : Term.AllProper ts)
    (e : Emitter), DecodesArgs admits ts e ((decodeArgs root ts).eval e) := by
  intro ts
  induction ts with
  | nil =>
    intro _ e
    exact ⟨by simp [decodeArgs], .nil, by simp [decodeArgs], by simp [decodeArgs],
      by simp [decodeArgs], fun pending last n _ _ => by simp [decodeArgs]⟩
  | cons t ts ih =>
    intro hts e
    have h₁ := decodeArg_decodes admits root hts.1 e
    have h₂ := ih hts.2 ((decodeArg root t).eval e).2
    simp only [decodeArgs, eval_bind, eval_pure]
    generalize hd : (decodeArg root t).eval e = d at h₁ h₂ ⊢
    generalize hds : (decodeArgs root ts).eval d.2 = ds at h₂ ⊢
    have hfresh := h₁.fresh
    have hgrows : e.registers ≤ d.2.registers := h₁.grows
    refine ⟨Nat.le_trans hgrows h₂.grows, .cons (by simpa using h₁.placed) h₂.placed, ?_, ?_,
      Code.straight_append.2 ⟨h₁.straight, h₂.straight⟩, ?_⟩
    -- The registers of the first argument lie below those of the other arguments.
    · cases hr : d.1.2 with
      | none => simpa [hr] using h₂.nodup
      | some r =>
        have hr' := hfresh r (by simp [hr])
        simp only [List.filterMap_cons, id, List.nodup_cons]
        refine ⟨fun hmem => ?_, h₂.nodup⟩
        have := h₂.fresh r hmem
        simp only at hr'
        omega
    · intro r hr
      cases hp : d.1.2 with
      | none =>
        have := h₂.fresh r (by simpa [hp] using hr)
        simp only
        omega
      | some r' =>
        simp only [hp, List.filterMap_cons, id, List.mem_cons] at hr
        rcases hr with rfl | hr
        · have h := hfresh r (by simp [hp])
          have h' := h₂.grows
          simp only at h
          exact ⟨h.1, Nat.le_trans h.2 h'⟩
        · have := h₂.fresh r hr
          simp only
          omega
    · intro pending last n hp hl
      have hrun₁ := h₁.run pending last (ts.length + n) hp hl
      -- What is pending behind the first argument is its own register and what was pending before.
      have hpend : ∀ x ∈ (placeNames [d.1.2]).reverse ++ pending, d.2.Used x := by
        intro x hx
        rcases List.mem_append.1 hx with hx | hx
        · cases hr : d.1.2 with
          | none => simp [hr] at hx
          | some r =>
            obtain rfl : x = structRegister r := by simpa [hr] using hx
            have hr' := hfresh r (by simp [hr])
            intro k hk
            rw [Ne, structRegister_inj]
            simp only at hr'
            omega
        · exact (hp x hx).mono hgrows
      have hrun₂ := h₂.run _ last n hpend (hl.mono hgrows)
      have hlen : (t :: ts).length + n = [t].length + (ts.length + n) := by
        simp only [List.length_cons, List.length_nil]; omega
      rw [hlen, Phase.run_append, hrun₁, Option.bind_some, hrun₂]
      cases hr : d.1.2 <;> simp

/-- What decoding nested structures does: their registers, and those of what they contain, are
    used up, and all others stay as they were. -/
def DecodesNested (places : List (Option Nat)) (e : Emitter) (out : Code × Emitter) : Prop :=
  e.registers ≤ out.2.registers ∧ Code.Straight out.1 ∧
  ∀ pending last, (∀ x ∈ placeNames places, x ∈ pending) → (∀ x ∈ pending, e.Used x) →
    e.Used last → last ∉ pending →
    ∃ last', (Phase.head pending last 0).run admits out.1 =
        some (.head (pending.filter (· ∉ placeNames places)) last' 0) ∧
      out.2.Used last' ∧ last' ∉ pending.filter (· ∉ placeNames places)

/-- **Nested structures are decoded completely, each once.** -/
theorem decodeNested_decodes (ts : List Term) (places : List (Option Nat)) :
    Term.AllProper ts → List.Forall₂ Placed ts places → (places.filterMap id).Nodup →
    ∀ e : Emitter, (∀ r ∈ places.filterMap id, r ≤ e.registers) →
      DecodesNested admits places e ((decodeNested ts places).eval e) := by
  fun_induction decodeNested ts places with
  | case1 name args attrs pos ts r rs ihBelow ihRest =>
    intro hts hplaced hnodup e hold
    obtain ⟨⟨-, hargs⟩, hts⟩ := hts
    cases hplaced with
    | cons _ hplaced =>
    simp only [List.filterMap_cons, id, List.nodup_cons] at hnodup
    have h₁ := decodeArgs_decodes admits false hargs e
    simp only [eval_bind, eval_pure]
    generalize hd : (decodeArgs false args).eval e = d at h₁ ⊢
    have h₂ := ihBelow d.1.2 hargs h₁.placed h₁.nodup d.2 (fun r hr => (h₁.fresh r hr).2)
    generalize hb : (decodeNested args d.1.2).eval d.2 = b at h₂ ⊢
    have h₃ := ihRest hts hplaced hnodup.2 b.2 (fun r hr => by
      have := hold r (List.mem_cons_of_mem _ hr)
      have := h₁.grows
      have := h₂.1
      omega)
    generalize hc : (decodeNested ts rs).eval b.2 = c at h₃ ⊢
    have hle : e.registers ≤ b.2.registers := Nat.le_trans h₁.grows h₂.1
    refine ⟨Nat.le_trans hle h₃.1,
      by simpa [getStruct, h₁.straight, h₂.2.1] using h₃.2.1, fun pending last hin hpend hlast hnot => ?_⟩
    -- `x` is the register decoded now; `pending'` is what is left once all it contains is done.
    let x := structRegister r
    let pending' := pending.filter (· ≠ x)
    have hx : x ∈ pending := hin x (by simp [x])
    have hxlast : x ≠ last := by rintro rfl; exact hnot hx
    have hpend' : ∀ y ∈ pending', e.Used y := fun y hy => hpend y (List.mem_of_mem_filter hy)
    have hstart : (Phase.head pending last 0).next admits (getStruct name args.length r) =
        some (.head pending' x (args.length + 0)) := by
      simp only [Phase.next, Phase.nextHead, getStruct]
      rw [if_pos ⟨trivial, hx, hxlast⟩]
      rfl
    have hrun₁ := h₁.run pending' x 0 hpend' (hpend x hx)
    have hnew : ∀ y ∈ placeNames d.1.2, ¬ e.Used y := by
      intro y hy hu
      obtain ⟨k, hk, rfl⟩ := List.mem_map.1 hy
      exact hu k (h₁.fresh k hk).1 rfl
    have hfilter : ((placeNames d.1.2).reverse ++ pending').filter (· ∉ placeNames d.1.2) =
        pending' := by
      rw [List.filter_append, List.filter_eq_nil_iff.2, List.nil_append,
        List.filter_eq_self.2]
      · intro y hy
        simpa using fun h => hnew y h (hpend' y hy)
      · intro y hy
        simpa using hy
    obtain ⟨last₁, hrun₂, hused₁, hnot₁⟩ := h₂.2.2 ((placeNames d.1.2).reverse ++ pending') x
      (fun y hy => by simp [hy])
      (fun y hy => by
        rcases List.mem_append.1 hy with hy | hy
        · obtain ⟨k, hk, rfl⟩ := List.mem_map.1 (List.mem_reverse.1 hy)
          intro j hj
          rw [Ne, structRegister_inj]
          have := (h₁.fresh k hk).2
          omega
        · exact (hpend' y hy).mono h₁.grows)
      ((hpend x hx).mono h₁.grows)
      (fun h => by
        rcases List.mem_append.1 h with h | h
        · exact hnew x (List.mem_reverse.1 h) (hpend x hx)
        · simp [pending'] at h)
    rw [hfilter] at hrun₂ hnot₁
    have hmono : ∀ y, e.Used y → b.2.Used y := fun y hy => hy.mono hle
    obtain ⟨last₂, hrun₃, hused₂, hnot₂⟩ := h₃.2.2 pending' last₁
      (fun y hy => by
        refine List.mem_filter.2 ⟨hin y (by simp [hy]), ?_⟩
        obtain ⟨k, hk, rfl⟩ := List.mem_map.1 hy
        simp only [x, ne_eq, structRegister_inj, decide_not, Bool.not_eq_eq_eq_not, Bool.not_true,
          decide_eq_false_iff_not]
        rintro rfl
        exact hnodup.1 hk)
      (fun y hy => hmono y (hpend' y hy)) hused₁ hnot₁
    have hall : pending'.filter (· ∉ placeNames rs) =
        pending.filter (· ∉ placeNames (some r :: rs)) := by
      rw [List.filter_filter]
      apply List.filter_congr
      intro y _
      simp [x, and_comm]
    refine ⟨last₂, ?_, hused₂, by rwa [← hall]⟩
    rw [List.cons_append, List.cons_append, Phase.run_cons, hstart, Option.bind_some,
      Phase.run_append, Phase.run_append, hrun₁]
    simp only [Option.bind_some, hrun₂, hrun₃, hall]
  | case2 t ts r rs hne ih =>
    intro hts hplaced hnodup e hold
    cases hplaced with
    | cons hp hplaced =>
    have hr : r = none := by
      cases r with
      | none => rfl
      | some k =>
        obtain ⟨name, a, as, attrs, pos, rfl⟩ := hp rfl
        exact (hne name (a :: as) attrs pos k rfl rfl).elim
    subst hr
    exact ih hts.2 hplaced hnodup e hold
  | case3 ts places h₁ h₂ =>
    intro _ hplaced _ e _
    have hnil : places = [] := by
      cases hplaced with
      | nil => rfl
      | cons _ _ => exact (h₂ _ _ _ _ rfl rfl).elim
    subst hnil
    refine ⟨Nat.le_refl _, by simp, fun pending last _ _ hl hnot => ⟨last, ?_, hl, by simpa using hnot⟩⟩
    simp

/-- **The code of a head is a block, and leads at most to the body.** -/
theorem decodeHead_closes (name : String) {args : List Term} (hasBody : Bool) (e : Emitter)
    (hargs : Term.AllProper args) :
    (Phase.head ["$x0"] "" 0).Closes admits ((decodeHead name args hasBody).eval e).1 ∧
      ∀ l, Code.Targets ((decodeHead name args hasBody).eval e).1 l →
        hasBody = true ∧ l = bodyLabel := by
  have h₁ := decodeArgs_decodes admits true hargs { e with registers := 0 }
  simp only [decodeHead, eval_bind, eval_clearRegisters, eval_pure]
  generalize (decodeArgs true args).eval { e with registers := 0 } = d at h₁ ⊢
  have h₂ := decodeNested_decodes admits args d.1.2 hargs h₁.placed h₁.nodup d.2
    (fun r hr => (h₁.fresh r hr).2)
  generalize (decodeNested args d.1.2).eval d.2 = b at h₂ ⊢
  have hroot : ∀ e' : Emitter, e'.Used "$x0" := by
    intro e' k hk
    -- The head of the clause is register 0; the registers of its arguments begin at 1.
    rw [← structRegister_zero, Ne, structRegister_inj]
    omega
  have hstart : (Phase.head ["$x0"] "" 0).next admits (getStruct name args.length 0) =
      some (.head [] "$x0" (args.length + 0)) := by
    simp [Phase.next, Phase.nextHead, getStruct, structRegister_zero]
  have hrun₁ := h₁.run [] "$x0" 0 (by simp) (hroot _)
  have hplaces : ∀ x ∈ (placeNames d.1.2).reverse ++ [], d.2.Used x ∧ x ≠ "$x0" := by
    intro x hx
    obtain ⟨r, hr, rfl⟩ : ∃ r ∈ d.1.2.filterMap id, structRegister r = x := by
      -- Each nested argument of the head has a register of its own, and no other register is left.
      simpa [placeNames] using hx
    have hr' := h₁.fresh r hr
    refine ⟨fun k hk => ?_, ?_⟩
    · rw [Ne, structRegister_inj]; omega
    · rw [← structRegister_zero, Ne, structRegister_inj]
      have := hr'.1
      omega
  obtain ⟨last, hrun₂, -, -⟩ := h₂.2.2 ((placeNames d.1.2).reverse ++ []) "$x0" (by simp)
    (fun x hx => (hplaces x hx).1) (hroot _) (fun h => (hplaces _ h).2 rfl)
  have hnone : ((placeNames d.1.2).reverse ++ []).filter (· ∉ placeNames d.1.2) = [] := by
    simp
  rw [hnone] at hrun₂
  refine ⟨⟨.closed, ?_, .inl rfl⟩, fun l hl => ?_⟩
  · rw [List.cons_append, List.cons_append, Phase.run_cons, hstart, Option.bind_some,
      Phase.run_append, Phase.run_append, hrun₁, Option.bind_some, hrun₂, Option.bind_some]
    cases hasBody <;> simp [Phase.run_cons, Phase.next, Phase.nextHead]
  · have hown := h₁.straight.not_targets l
    have hbelow := h₂.2.1.not_targets l
    rw [Code.targets_append, List.cons_append, Code.targets_cons, Code.targets_append] at hl
    cases hasBody
    · simp [getStruct, hown, hbelow, Code.targets_cons] at hl
    · simpa [getStruct, hown, hbelow, Code.targets_cons, eq_comm] using hl

/-! ## §4. Goals. -/

/-- The instruction adds to the goal under construction. -/
def Opcode.puts : Opcode → Bool
  | .putStruct | .putVar | .putVoid | .putValue | .putTerm | .putNumber | .putNil => true
  | _ => false

/-- Every instruction adds to the goal under construction. -/
def Code.Puts (code : Code) : Prop := ∀ i ∈ code, i.op.puts = true

@[simp] theorem Code.puts_nil : Code.Puts [] := fun _ h => (List.not_mem_nil h).elim

@[simp] theorem Code.puts_cons {i : Instruction} {code : Code} :
    Code.Puts (i :: code) ↔ i.op.puts = true ∧ Code.Puts code := List.forall_mem_cons

@[simp] theorem Code.puts_append {code code' : Code} :
    Code.Puts (code ++ code') ↔ Code.Puts code ∧ Code.Puts code' := List.forall_mem_append

/-- Passing an argument is one of the building instructions. -/
theorem putArg_puts (t : Term) (e : Emitter) : ((putArg t).eval e).1.op.puts = true := by
  cases t with
  | var name id =>
    simp only [putArg, eval_ite, eval_pure, eval_bind, eval_occurs]
    split
    · rfl
    · split
      · rfl
      · rfl
  | const a pos =>
    cases a with
    | atom => rfl
    | number => rfl
    | nil => rfl
  | app name args attrs pos => rfl
  | absent => rfl

theorem putArgs_puts (ts : List Term) (places : List (Option Nat)) :
    ∀ e : Emitter, Code.Puts ((putArgs ts places).eval e).1 := by
  fun_induction putArgs ts places with
  | case1 t ts r rs ih => exact fun e => by simpa [Opcode.puts] using ih e
  | case2 t ts rs ih => exact fun e => by simpa using ⟨putArg_puts t e, ih _⟩
  | case3 => exact fun e => by simp

/-- So is all of the code that builds nested arguments, from the inside out. -/
theorem buildNested_puts (ts : List Term) : ∀ e : Emitter, Code.Puts ((buildNested ts).eval e).1.1 := by
  fun_induction buildNested ts with
  | case1 => exact fun e => by simp
  | case2 name a as attrs pos ts ihBelow ihRest =>
    intro e
    have hputs := putArgs_puts (a :: as)
    simp [putStruct, Opcode.puts, ihBelow, hputs, ihRest]
  | case3 t ts _ ih => exact fun e => by simpa using ih e

/-- **A goal is built by instructions that add to it.** -/
theorem buildGoal_puts (g : Goal) (e : Emitter) : Code.Puts ((buildGoal g).eval e).1 := by
  simp [buildGoal, putStruct, Opcode.puts, buildNested_puts, putArgs_puts]

/-- An argument that is not nested is one of the arguments that the phase waits for. -/
private theorem putArg_passes {t : Term} (ht : t.Proper) (e : Emitter) (regs : List String)
    (begun : Option (String × Signature)) (n : Nat) :
    (Phase.build regs begun (n + 1)).next admits ((putArg t).eval e).1 = some (.build regs begun n) ∧
      Code.Straight [((putArg t).eval e).1] := by
  match t, ht with
  | .var name id, ht =>
    have hx := isStructRegister_of_not_isRegister ht
    have hname : isRegister name = false := ht
    simp only [putArg, eval_ite, eval_pure, eval_bind, eval_occurs]
    split
    · simp [Phase.next, Phase.nextBuild, Phase.passed]
    · cases e.seen.contains name <;>
        simp [Phase.next, Phase.nextBuild, Phase.passed, hname, hx]
  | .const a pos, _ =>
    cases a <;> simp [putArg, Phase.next, Phase.nextBuild, Phase.passed]
  | .app name args attrs pos, _ => simp [putArg, Phase.next, Phase.nextBuild, Phase.passed]

/-- The arguments of a structure are passed one after the other. -/
theorem putArgs_run (ts : List Term) (places : List (Option Nat)) :
    Term.AllProper ts → places.length = ts.length →
    ∀ (e : Emitter) (regs : List String) (begun : Option (String × Signature)) (n : Nat),
      (∀ x ∈ placeNames places, x ∈ regs) →
      (Phase.build regs begun (ts.length + n)).run admits ((putArgs ts places).eval e).1 =
          some (.build regs begun n) ∧
        Code.Straight ((putArgs ts places).eval e).1 := by
  fun_induction putArgs ts places with
  | case1 t ts r rs ih =>
    intro hts hlen e regs begun n hregs
    obtain ⟨hrun, hstraight⟩ := ih hts.2 (by simpa using hlen) e regs begun n
      (fun x hx => hregs x (by simp [hx]))
    -- A nested argument was built before, so its register is known and can be passed.
    have hmem : structRegister r ∈ regs := hregs _ (by simp)
    have hsucc : (t :: ts).length + n = ts.length + n + 1 := by
      simp only [List.length_cons]; omega
    refine ⟨?_, by simpa using hstraight⟩
    rw [hsucc]
    simp [Phase.run_cons, Phase.next, Phase.nextBuild, Phase.passed, hmem, hrun]
  | case2 t ts rs ih =>
    intro hts hlen e regs begun n hregs
    obtain ⟨hnext, hown⟩ := putArg_passes admits hts.1 e regs begun (ts.length + n)
    obtain ⟨hrun, hstraight⟩ := ih hts.2 (by simpa using hlen) ((putArg t).eval e).2 regs begun n
      (fun x hx => hregs x hx)
    have hsucc : (t :: ts).length + n = ts.length + n + 1 := by
      simp only [List.length_cons]; omega
    refine ⟨?_, by simpa using ⟨by simpa using hown, hstraight⟩⟩
    rw [hsucc]
    simp [Phase.run_cons, hnext, hrun]
  | case3 ts places h₁ h₂ =>
    -- The places are as many as the arguments, so both lists end here together.
    intro _ hlen e regs begun n _
    have hnil : ts = [] := by
      cases ts with
      | nil => rfl
      | cons t ts =>
        obtain ⟨r, rs, rfl⟩ := List.exists_cons_of_length_eq_add_one hlen
        cases r with
        | none => exact (h₂ _ _ _ rfl rfl).elim
        | some r => exact (h₁ _ _ _ _ rfl rfl).elim
    subst hnil
    simp

/-- What building the structures among arguments leaves: each has its place, and its register
    holds it. -/
def BuildsNested (ts : List Term) (out : (Code × List (Option Nat)) × Emitter) : Prop :=
  out.1.2.length = ts.length ∧ Code.Straight out.1.1 ∧
  ∀ regs begun, ∃ regs' begun', (Phase.build regs begun 0).run admits out.1.1 =
      some (.build regs' begun' 0) ∧
    (∀ x ∈ regs, x ∈ regs') ∧ ∀ x ∈ placeNames out.1.2, x ∈ regs'

/-- **Nested structures are built before they are passed.** -/
theorem buildNested_builds (ts : List Term) :
    Term.AllProper ts → ∀ e : Emitter, BuildsNested admits ts ((buildNested ts).eval e) := by
  fun_induction buildNested ts with
  | case1 =>
    intro _ e
    exact ⟨rfl, by simp, fun regs begun => ⟨regs, begun, rfl, fun _ h => h, by simp⟩⟩
  | case2 name a as attrs pos ts ihBelow ihRest =>
    intro hts e
    obtain ⟨⟨-, hargs⟩, hts⟩ := hts
    simp only [eval_bind, eval_newRegister, eval_pure]
    -- First the structures below this one are built, then it is started and gets its arguments, and then
    -- come the structures beside it.
    have h₁ := ihBelow hargs { e with registers := e.registers + 1 }
    generalize (buildNested (a :: as)).eval { e with registers := e.registers + 1 } = b at h₁ ⊢
    have h₂ := putArgs_run admits (a :: as) b.1.2 hargs h₁.1 b.2
    generalize (putArgs (a :: as) b.1.2).eval b.2 = p at h₂ ⊢
    have h₃ := ihRest hts p.2
    generalize (buildNested ts).eval p.2 = c at h₃ ⊢
    refine ⟨by simpa using h₃.1, ?_, fun regs begun => ?_⟩
    · obtain ⟨-, hputs⟩ := h₂ (placeNames b.1.2) none 0 (fun _ h => h)
      simpa [putStruct, hputs, h₁.2.1] using h₃.2.1
    · obtain ⟨regs₁, begun₁, hrun₁, hkeep₁, hplace₁⟩ := h₁.2.2 regs begun
      let x := structRegister (e.registers + 1)
      let goal : Signature := ⟨name, (a :: as).length⟩
      have hstart : (Phase.build regs₁ begun₁ 0).next admits
          (putStruct name (a :: as).length (e.registers + 1)) =
          some (.build (x :: regs₁) (some (x, goal)) ((a :: as).length + 0)) := by
        simp [Phase.next, Phase.nextBuild, putStruct, x, goal]
        omega
      obtain ⟨hrun₂, -⟩ := h₂ (x :: regs₁) (some (x, goal)) 0
        (fun y hy => List.mem_cons_of_mem _ (hplace₁ y hy))
      obtain ⟨regs₃, begun₃, hrun₃, hkeep₃, hplace₃⟩ := h₃.2.2 (x :: regs₁) (some (x, goal))
      -- A register that was known stays known, so every place is known at the end.
      refine ⟨regs₃, begun₃, ?_, fun y hy => hkeep₃ y (by simp [hkeep₁ y hy]), fun y hy => ?_⟩
      · rw [List.append_assoc, List.cons_append, Phase.run_append, hrun₁, Option.bind_some,
          Phase.run_cons, hstart, Option.bind_some, Phase.run_append, hrun₂, Option.bind_some,
          hrun₃]
      · rcases List.mem_cons.1 (by simpa using hy) with rfl | hy
        · exact hkeep₃ x (by simp)
        · exact hplace₃ y hy
  | case3 t ts hne ih =>
    intro hts e
    simp only [eval_bind, eval_pure]
    have h := ih hts.2 e
    exact ⟨by simpa using h.1, h.2.1, h.2.2⟩

/-- **The code of a call builds its goal completely and looks after its outcome.** -/
theorem callGoal_run (isNative : Signature → Bool) {g : Goal} (negated : Bool) (e : Emitter)
    (hargs : Term.AllProper g.args) (hq : admits g.signature = true) :
    Phase.body.run admits ((callGoal isNative g negated).eval e).1 = some .outcome ∧
      Code.Straight ((callGoal isNative g negated).eval e).1 := by
  simp only [callGoal, buildGoal, eval_bind, eval_clearRegisters, eval_pure]
  have h₁ := buildNested_builds admits g.args hargs { e with registers := 0 }
  generalize (buildNested g.args).eval { e with registers := 0 } = b at h₁ ⊢
  have h₂ := putArgs_run admits g.args b.1.2 hargs h₁.1 b.2
  generalize (putArgs g.args b.1.2).eval b.2 = p at h₂ ⊢
  -- The structures below the goal are built in some registers; the goal itself comes last, in register
  -- 0.
  obtain ⟨regs, begun, hrun₁, -, hplace⟩ := h₁.2.2 [] none
  have hstart : (Phase.build regs begun 0).next admits (putStruct g.name g.args.length 0) =
      some (.build ("$x0" :: regs) (some ("$x0", g.signature)) (g.args.length + 0)) := by
    simp [Phase.next, Phase.nextBuild, putStruct, structRegister_zero, Goal.signature]
  obtain ⟨hrun₂, hstraight⟩ := h₂ ("$x0" :: regs) (some ("$x0", g.signature)) 0
    (fun x hx => List.mem_cons_of_mem _ (hplace x hx))
  refine ⟨?_, ?_⟩
  · rw [List.cons_append, List.append_assoc, List.cons_append, Phase.run_cons]
    simp only [Phase.next, Phase.nextBody, Option.bind_some]
    rw [Phase.run_append, hrun₁, Option.bind_some, Phase.run_cons, hstart, Option.bind_some,
      Phase.run_append, hrun₂, Option.bind_some]
    cases negated <;> cases (g.attrs.has .builtin || isNative g.signature) <;>
      simp [Phase.run_cons, Phase.next, Phase.nextBuild, hq]
  · have hbelow := h₁.2.1
    cases negated <;> cases (g.attrs.has .builtin || isNative g.signature) <;>
      simp [putStruct, hbelow, hstraight]

/-! ## §5. Arithmetic. -/

/-- No variable of the expression has the name of a register, and operators with a value keep
    it. -/
def Expr.Proper : Expr → Prop
  | .var name => isRegister name = false
  | .const _ => True
  | .apply op keeps l r => ((∃ o, op = .value o) → keeps = true) ∧ l.Proper ∧ r.Proper

/-- The target has not the name of a register. -/
def Target.Proper : Target → Prop
  | .var name => isRegister name = false
  | .const _ => True

/-- The instruction pushes one operand. -/
def PushesOne (i : Instruction) : Prop :=
  ¬ i.goesToLabel ∧ ∀ n, n < 2 → (Phase.operands n).next admits i = some (.operands (n + 1))

/-- An operand with a name is pushed as one operand. -/
private theorem pushesOne_name {i : Instruction} (hop : i.op = .pushVar ∨ i.op = .pushValue)
    (hname : Phase.isOperandName i.name = true) : PushesOne admits i := by
  refine ⟨by rcases hop with h | h <;> simp [h], fun n hn => ?_⟩
  rcases hop with h | h <;> simp [Phase.next, Phase.nextOperands, h, hn, hname]

/-- A variable of the program may be an operand. -/
private theorem isOperandName_variable {name : String} (h : isRegister name = false) :
    Phase.isOperandName name = true := by
  have hy : name ≠ scratchRegister := by
    rw [← resultRegister_zero]; exact ne_resultRegister h 0
  simp [Phase.isOperandName, isStructRegister_of_not_isRegister h, hy]

private theorem isOperandName_result (n : Nat) :
    Phase.isOperandName (resultRegister (n + 1)) = true := by
  have hy : resultRegister (n + 1) ≠ scratchRegister := by
    rw [← resultRegister_zero, Ne, resultRegister_inj]; omega
  simp [Phase.isOperandName, hy]

/-- Such a result has a name. -/
private theorem resultRegister_ne_empty (n : Nat) : resultRegister n ≠ "" := by
  intro h
  simpa [resultRegister] using congrArg String.toList h

/-- A constant is pushed as one operand. -/
private theorem pushConst_pushesOne (a : Atomic) (e : Emitter) :
    PushesOne admits ((pushConst a).eval e).1 := by
  cases a <;> exact ⟨by simp [pushConst], fun n hn => by
    simp [pushConst, Phase.next, Phase.nextOperands, hn]⟩

/-- An operator with both operands pushed. -/
private theorem operator_next {op : Operator} {keeps : Bool} {y : String}
    (hkeeps : (∃ o, op = .value o) → keeps = true)
    (hy : keeps = true → y ≠ "" ∧ Phase.isOperandName y = true) :
    (Phase.operands 2).next admits { op := op.opcode, result := y } = some .body := by
  cases op with
  | value o =>
    have := hy (hkeeps ⟨o, rfl⟩)
    cases o <;> simp [Operator.opcode, ArithOp.opcode, Phase.next, Phase.nextOperands, this]
  | compare c =>
    cases c <;> simp [Operator.opcode, CompareOp.opcode, Phase.next, Phase.nextOperands]

/-- An operator goes to no label. -/
private theorem opcode_straight (op : Operator) (y : String) :
    ¬ Instruction.goesToLabel { op := op.opcode, result := y } := by
  cases op with
  | value o => cases o <;> simp [Operator.opcode, ArithOp.opcode]
  | compare c => cases c <;> simp [Operator.opcode, CompareOp.opcode]

/-- The operands pushed and the operator applied. -/
private theorem operation_run {a b i : Instruction} (ha : PushesOne admits a) (hb : PushesOne admits b)
    (hi : (Phase.operands 2).next admits i = some .body) :
    Phase.body.run admits [{ op := .prepare }, a, b, i] = some .body := by
  have hprepare : Phase.body.next admits { op := .prepare } = some (.operands 0) := rfl
  simp [Phase.run_cons, hprepare, ha.2 0 (by omega), hb.2 1 (by omega), hi]

/-- **The code of an expression leaves its value to be pushed.** -/
theorem evalOperand_run (x : Expr) (hx : x.Proper) : ∀ e : Emitter,
    Phase.body.run admits ((evalOperand x).eval e).1.1 = some .body ∧
      Code.Straight ((evalOperand x).eval e).1.1 ∧ PushesOne admits ((evalOperand x).eval e).1.2 := by
  induction x with
  | var name =>
    intro e
    exact ⟨by simp [evalOperand], by simp [evalOperand],
      pushesOne_name admits (.inr rfl) (isOperandName_variable hx)⟩
  | const a =>
    intro e
    exact ⟨by simp [evalOperand], by simp [evalOperand], pushConst_pushesOne admits a e⟩
  | apply op keeps l r ihl ihr =>
    intro e
    obtain ⟨hkeeps, hl, hr⟩ := hx
    obtain ⟨hrun₁, hstraight₁, hpush₁⟩ := ihl hl e
    obtain ⟨hrun₂, hstraight₂, hpush₂⟩ := ihr hr ((evalOperand l).eval e).2
    simp only [evalOperand, eval_bind, eval_pure, eval_ite, eval_newResult]
    generalize (evalOperand l).eval e = a at hrun₁ hstraight₁ hpush₁ hrun₂ hstraight₂ hpush₂ ⊢
    generalize (evalOperand r).eval a.2 = b at hrun₂ hstraight₂ hpush₂ ⊢
    -- Both operands are computed before either is pushed, so the operand stack holds just the two of
    -- them.
    have hop : ∀ y, Phase.isOperandName y = true → (keeps = true → y ≠ "") →
        Phase.body.run admits (a.1.1 ++ b.1.1 ++
          [{ op := .prepare }, a.1.2, b.1.2, { op := op.opcode, result := y }]) = some .body ∧
        Code.Straight (a.1.1 ++ b.1.1 ++
          [{ op := .prepare }, a.1.2, b.1.2, { op := op.opcode, result := y }]) ∧
        PushesOne admits { op := .pushValue, name := y } := by
      intro y hy hne
      have hnext := operator_next admits hkeeps (fun h => ⟨hne h, hy⟩)
      refine ⟨?_, ?_, pushesOne_name admits (.inr rfl) hy⟩
      · rw [Phase.run_append, Phase.run_append, hrun₁, Option.bind_some, hrun₂, Option.bind_some,
          operation_run admits hpush₁ hpush₂ hnext]
      · have h₁ := hpush₁.1
        have h₂ := hpush₂.1
        have h₃ := opcode_straight op y
        simp_all
    cases keeps with
    | false => exact hop "" (by decide) (by simp)
    | true => exact hop _ (isOperandName_result _) (fun _ => resultRegister_ne_empty _)

/-- The code of an evaluation into a target. -/
theorem assignCode_run {target : Target} {value : Expr} (e : Emitter) (ht : target.Proper)
    (hv : value.Proper) :
    Phase.body.run admits ((assignCode target value).eval e).1 = some .body ∧
      Code.Straight ((assignCode target value).eval e).1 := by
  obtain ⟨hrun, hstraight, hpush⟩ := evalOperand_run admits value hv e
  simp only [assignCode, eval_bind, eval_pure, eval_newResult]
  generalize (evalOperand value).eval e = a at hrun hstraight hpush ⊢
  -- The target is pushed as one operand: as it stands, or as the result of an operator.
  have htarget : PushesOne admits ((pushTarget target).eval a.2).1 := by
    cases target with
    | var name =>
      simp only [pushTarget, eval_bind, eval_ite, eval_pure, eval_occurs]
      split
      · exact pushesOne_name admits (.inl rfl) (isOperandName_variable ht)
      · exact pushesOne_name admits (.inr rfl) (isOperandName_variable ht)
    | const c => exact pushConst_pushesOne admits c a.2
  generalize (pushTarget target).eval a.2 = b at htarget ⊢
  refine ⟨?_, ?_⟩
  · rw [Phase.run_append, hrun, Option.bind_some]
    exact operation_run admits htarget hpush (by simp [Phase.next, Phase.nextOperands])
  · have h₁ := htarget.1
    have h₂ := hpush.1
    simp_all

end PrologMachine
