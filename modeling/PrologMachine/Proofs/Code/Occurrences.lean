/-
  PrologMachine.Proofs.Code.Occurrences ── **FIRST OCCURRENCES ARE EMITTED FIRST.**

  The emitter notes each variable when it emits an occurrence of it, and emits a first occurrence only
  for a variable that it has not noted.  Terms are emitted inside out and operands before the target
  of an evaluation, but the code that comes out has an occurrence that was emitted later further
  behind, except for operands, which are never first occurrences.

    * `NamedVariable`: the names of variables that are neither anonymous nor registers.
    * `Tracked`: what a stretch of emitted code does for a variable; it is closed under appending.
    * `decodeHead_tracked`, `callGoal_tracked`, `assignCode_tracked`: heads and goals.
    * `Body.goals_tracked`: the goals of a body in the order of the text.
-/
import PrologMachine.Proofs.Code.Paths
import PrologMachine.Proofs.Machine.Variables

namespace PrologMachine

open Emit

/-- The name of a variable of a clause that is neither anonymous nor a register. -/
structure NamedVariable (x : String) : Prop where
  /-- It has a name. -/
  named : x ≠ ""
  /-- No register has the name. -/
  register : isRegister x = false
  /-- The name was not made up. -/
  anonymous : isAnonymous x = false

namespace NamedVariable

variable {x : String}

/-- A named variable is no register. -/
theorem ne_register (hx : NamedVariable x) {name : String} (hname : isRegister name = true) :
    name ≠ x := by
  rintro rfl
  rw [hx.register] at hname
  cases hname

theorem ne_structRegister (hx : NamedVariable x) (r : Nat) : structRegister r ≠ x :=
  hx.ne_register (by simp [isRegister, structRegister])

theorem ne_resultRegister (hx : NamedVariable x) (r : Nat) : resultRegister r ≠ x :=
  hx.ne_register (isRegister_resultRegister r)

theorem ne_scratchRegister (hx : NamedVariable x) : scratchRegister ≠ x := hx.ne_register rfl

end NamedVariable

/-! ## §1. Instructions. -/

/-- The instruction neither is an occurrence of the variable nor sets it. -/
def Instruction.Passes (x : String) (i : Instruction) : Prop := ¬ i.Names x ∧ ¬ i.Sets x

namespace Instruction

variable {x : String} {i : Instruction}

/-- Beside first occurrences only results are set. -/
theorem sets_iff (hx : NamedVariable x) (hresult : i.result ≠ x) : i.Sets x ↔ i.Introduces x := by
  refine ⟨?_, .inl⟩
  rintro (h | h | h)
  · exact h
  · exact (hresult h.2).elim
  · exact (hx.ne_scratchRegister h.2).elim

/-- Instructions with other names pass the variable. -/
theorem Passes.of_ne (hx : NamedVariable x) (hname : i.name ≠ x) (hresult : i.result ≠ x) :
    i.Passes x :=
  ⟨fun h => hname h.2, fun h => hname ((sets_iff hx hresult).1 h).2⟩

end Instruction

/-! ## §2. Stretches of code. -/

/-- Code that was emitted from one state of the emitter to another, as far as one variable is
    concerned. -/
structure Tracked (x : String) (e : Emitter) (code : Code) (e' : Emitter) : Prop where
  /-- A variable that was noted stays noted. -/
  stays : x ∈ e.seen → x ∈ e'.seen
  /-- It is not introduced again. -/
  old : x ∈ e.seen → ∀ i ∈ code, ¬ i.Introduces x
  /-- An occurrence is noted. -/
  noted : ∀ i ∈ code, i.Names x → x ∈ e'.seen
  /-- No first occurrence has an occurrence in front of it. -/
  first : code.Pairwise fun j i => j.Names x → ¬ i.Introduces x
  /-- Only first occurrences set the variable. -/
  sets : ∀ i ∈ code, i.Sets x → i.Introduces x

namespace Tracked

variable {x : String} {e e₁ e' : Emitter} {a b code : Code} {i : Instruction}

/-- Two pieces of code that are tracked, one behind the other. -/
theorem append (ha : Tracked x e a e₁) (hb : Tracked x e₁ b e') : Tracked x e (a ++ b) e' where
  stays h := hb.stays (ha.stays h)
  old h i hi := (List.mem_append.1 hi).elim (ha.old h i) (hb.old (ha.stays h) i)
  noted i hi hnames := (List.mem_append.1 hi).elim (fun hi => hb.stays (ha.noted i hi hnames))
    fun hi => hb.noted i hi hnames
  first := List.pairwise_append.2 ⟨ha.first, hb.first, fun j hj i hi hnames =>
    hb.old (ha.noted j hj hnames) i hi⟩
  sets i hi := (List.mem_append.1 hi).elim (ha.sets i) (hb.sets i)

/-- Only what was noted matters. -/
theorem congr (h : Tracked x e code e₁) (hseen : e'.seen = e₁.seen) : Tracked x e code e' :=
  ⟨hseen ▸ h.stays, h.old, hseen ▸ h.noted, h.first, h.sets⟩

/-- Code without first occurrences. -/
theorem later (hstays : x ∈ e.seen → x ∈ e'.seen) (hsets : ∀ i ∈ code, ¬ i.Sets x)
    (hnoted : ∀ i ∈ code, i.Names x → x ∈ e'.seen) : Tracked x e code e' where
  stays := hstays
  old _ i hi h := hsets i hi (.inl h)
  noted := hnoted
  first := List.pairwise_of_forall_mem_list fun _ _ i hi _ h => hsets i hi (.inl h)
  sets i hi h := (hsets i hi h).elim

/-- Code that passes the variable. -/
theorem passes (hseen : e'.seen = e.seen) (hcode : ∀ i ∈ code, i.Passes x) : Tracked x e code e' :=
  later (fun h => hseen ▸ h) (fun i hi => (hcode i hi).2) fun i hi h => ((hcode i hi).1 h).elim

theorem nil (hseen : e'.seen = e.seen) : Tracked x e [] e' := passes hseen (by simp)

/-- One instruction in front. -/
theorem cons (hi : i.Passes x) (h : Tracked x e code e') : Tracked x e (i :: code) e' := by
  have hone : Tracked x e [i] e := passes rfl (by simpa using hi)
  exact hone.append h

/-- A first occurrence of a variable that was not noted. -/
theorem occurs_first {name : String} {op : Opcode} (hx : NamedVariable x) (hname : name ∉ e.seen) :
    Tracked x e [{ op, name }] { e with seen := name :: e.seen } := by
  by_cases hne : name = x
  · subst hne
    refine ⟨fun h => (hname h).elim, fun h => (hname h).elim, fun _ _ _ => List.mem_cons_self,
      List.pairwise_singleton _ _, fun i hi hsets => ?_⟩
    obtain rfl := List.mem_singleton.1 hi
    exact (Instruction.sets_iff hx hx.named.symm).1 hsets
  · have hpass : Instruction.Passes x { op, name } := .of_ne hx hne hx.named.symm
    refine later (List.mem_cons_of_mem _) ?_ ?_ <;> intro i hi <;>
      obtain rfl := List.mem_singleton.1 hi
    · exact hpass.2
    · exact fun hnames => (hpass.1 hnames).elim

/-- A later occurrence of a variable that was noted. -/
theorem occurs_later {name : String} {op : Opcode} (hx : NamedVariable x) (hname : name ∈ e.seen)
    (hop : op.introduces = false) : Tracked x e [{ op, name }] e := by
  refine later id ?_ ?_ <;> intro i hi <;> obtain rfl := List.mem_singleton.1 hi
  · intro hsets
    have hintro := ((Instruction.sets_iff hx hx.named.symm).1 hsets).1
    rw [hop] at hintro
    cases hintro
  · rintro ⟨-, rfl⟩
    exact hname

end Tracked

/-! ## §3. Heads. -/

variable {x : String}

/-- An instruction without a name and a result. -/
theorem Tracked.blank {e e' : Emitter} {i : Instruction} (hx : NamedVariable x) (hseen : e'.seen = e.seen)
    (hname : i.name = "") (hresult : i.result = "") : Tracked x e [i] e' := by
  refine .passes hseen fun j hj => ?_
  obtain rfl := List.mem_singleton.1 hj
  exact .of_ne hx (hname ▸ hx.named.symm) (hresult ▸ hx.named.symm)

/-- A variable of a head is tracked. -/
theorem decodeVar_tracked (hx : NamedVariable x) (root : Bool) (name : String) (e : Emitter) :
    Tracked x e [((decodeVar root name).eval e).1] ((decodeVar root name).eval e).2 := by
  simp only [decodeVar, eval_ite, eval_pure, eval_bind, eval_occurs]
  split
  · exact .blank hx rfl rfl rfl
  · cases hseen : e.seen.contains name with
    | true => cases root <;> exact .occurs_later hx (by simpa using hseen) rfl
    | false => cases root <;> exact .occurs_first hx (by simpa using hseen)

theorem decodeConst_tracked (hx : NamedVariable x) (root : Bool) (a : Atomic) (e : Emitter) :
    Tracked x e [((decodeConst root a).eval e).1] ((decodeConst root a).eval e).2 :=
  .blank hx rfl rfl rfl

theorem decodeArg_tracked (hx : NamedVariable x) (root : Bool) (t : Term) (e : Emitter) :
    Tracked x e ((decodeArg root t).eval e).1.1 ((decodeArg root t).eval e).2 := by
  match t with
  | .var name id => exact decodeVar_tracked hx root name e
  | .const a pos => exact decodeConst_tracked hx root a e
  | .app name [] attrs pos => exact decodeConst_tracked hx root (.atom name) e
  | .app name (a :: as) attrs pos =>
    refine .passes rfl fun i hi => ?_
    obtain rfl := List.mem_singleton.1 hi
    exact .of_ne hx (hx.ne_structRegister _) hx.named.symm
  | .absent => exact .nil rfl

theorem decodeArgs_tracked (hx : NamedVariable x) (root : Bool) (ts : List Term) : ∀ e : Emitter,
    Tracked x e ((decodeArgs root ts).eval e).1.1 ((decodeArgs root ts).eval e).2 := by
  induction ts with
  | nil => exact fun e => .nil rfl
  | cons t ts ih => exact fun e => (decodeArg_tracked hx root t e).append (ih _)

/-- The start of a structure does not speak of the variable. -/
theorem getStruct_passes (hx : NamedVariable x) (name : String) (arity r : Nat) :
    (getStruct name arity r).Passes x := .of_ne hx hx.named.symm hx.named.symm

/-- Nested structures are tracked. -/
theorem decodeNested_tracked (hx : NamedVariable x) (ts : List Term) (places : List (Option Nat)) :
    ∀ e : Emitter, Tracked x e ((decodeNested ts places).eval e).1 ((decodeNested ts places).eval e).2 := by
  fun_induction decodeNested ts places with
  | case1 name args attrs pos ts r rs ihBelow ihRest =>
    intro e
    have hown := decodeArgs_tracked hx false args e
    exact .cons (getStruct_passes hx _ _ _) ((hown.append (ihBelow _ _)).append (ihRest _))
  | case2 t ts r rs _ ih => exact ih
  | case3 => exact fun e => .nil rfl

/-- **A head.** -/
theorem decodeHead_tracked (hx : NamedVariable x) (name : String) (args : List Term) (hasBody : Bool)
    (e : Emitter) : Tracked x e ((decodeHead name args hasBody).eval e).1
      ((decodeHead name args hasBody).eval e).2 := by
  have hown := decodeArgs_tracked hx true args { e with registers := 0 }
  have hbelow := decodeNested_tracked hx args ((decodeArgs true args).eval { e with registers := 0 }).1.2
    ((decodeArgs true args).eval { e with registers := 0 }).2
  have hlast : ∀ e : Emitter, Tracked x e
      [if hasBody then { op := .jump, label := bodyLabel } else { op := .proceed }] e := by
    intro e
    cases hasBody <;> exact .blank hx rfl rfl rfl
  have hclear : Tracked x e [] { e with registers := 0 } := .nil rfl
  exact hclear.append (.cons (getStruct_passes hx _ _ _) ((hown.append hbelow).append (hlast _)))

/-! ## §4. Goals. -/

/-- An argument of a goal is tracked. -/
theorem putArg_tracked (hx : NamedVariable x) (t : Term) (e : Emitter) :
    Tracked x e [((putArg t).eval e).1] ((putArg t).eval e).2 := by
  match t with
  | .var name id =>
    simp only [putArg, eval_ite, eval_pure, eval_bind, eval_occurs]
    split
    · exact .blank hx rfl rfl rfl
    · cases hseen : e.seen.contains name with
      | true => exact .occurs_later hx (by simpa using hseen) rfl
      | false => exact .occurs_first hx (by simpa using hseen)
  | .const a pos => exact .blank hx rfl rfl rfl
  | .app name args attrs pos => exact .blank hx rfl rfl rfl
  | .absent => exact .blank hx rfl rfl rfl

theorem putArgs_tracked (hx : NamedVariable x) (ts : List Term) (places : List (Option Nat)) :
    ∀ e : Emitter, Tracked x e ((putArgs ts places).eval e).1 ((putArgs ts places).eval e).2 := by
  fun_induction putArgs ts places with
  | case1 t ts r rs ih =>
    exact fun e => .cons (.of_ne hx (hx.ne_structRegister r) hx.named.symm) (ih e)
  | case2 t ts rs ih => exact fun e => (putArg_tracked hx t e).append (ih _)
  | case3 => exact fun e => .nil rfl

/-- The start of a structure does not speak of the variable. -/
theorem putStruct_passes (hx : NamedVariable x) (name : String) (arity r : Nat) :
    (putStruct name arity r).Passes x := .of_ne hx hx.named.symm hx.named.symm

/-- Nested structures are tracked as they are built. -/
theorem buildNested_tracked (hx : NamedVariable x) (ts : List Term) : ∀ e : Emitter,
    Tracked x e ((buildNested ts).eval e).1.1 ((buildNested ts).eval e).2 := by
  fun_induction buildNested ts with
  | case1 => exact fun e => .nil rfl
  | case2 name a as attrs pos ts ihBelow ihRest =>
    intro e
    have hnew : Tracked x e [] { e with registers := e.registers + 1 } := .nil rfl
    have hputs := putArgs_tracked hx (a :: as)
    exact hnew.append (((ihBelow _).append (.cons (putStruct_passes hx _ _ _) (hputs _ _))).append
      (ihRest _))
  | case3 t ts _ ih => exact fun e => ih e

theorem callGoal_tracked (hx : NamedVariable x) (isNative : Signature → Bool) (g : Goal)
    (negated : Bool) (e : Emitter) : Tracked x e ((callGoal isNative g negated).eval e).1
      ((callGoal isNative g negated).eval e).2 := by
  have hbelow := buildNested_tracked hx g.args { e with registers := 0 }
  have hputs := putArgs_tracked hx g.args ((buildNested g.args).eval { e with registers := 0 }).1.2
    ((buildNested g.args).eval { e with registers := 0 }).2
  have hbuild := hbelow.append (.cons (putStruct_passes hx g.name g.args.length 0) hputs)
  have hclear : Tracked x e [{ op := .allocate }] { e with registers := 0 } := .blank hx rfl rfl rfl
  have hcall : ∀ (e : Emitter) (enter retry : Opcode),
      Tracked x e [{ op := .setup }, { op := enter }, { op := retry }, { op := .deallocate }] e := by
    intro e enter retry
    have hblank : ∀ op, Instruction.Passes x { op } := fun op =>
      .of_ne hx hx.named.symm hx.named.symm
    exact .passes rfl (by simp [hblank])
  exact (hclear.append hbuild).append (hcall _ _ _)

/-- A constant that is pushed is tracked. -/
theorem pushConst_tracked (hx : NamedVariable x) (a : Atomic) (e : Emitter) :
    Tracked x e [((pushConst a).eval e).1] ((pushConst a).eval e).2 := .blank hx rfl rfl rfl

/-- The code of an operator behind its operands. -/
theorem Tracked.operation {e e₁ e₂ : Emitter} {code : Code} {a b i : Instruction}
    (hx : NamedVariable x) (hcode : Tracked x e code e₁) (ha : Tracked x e₁ [a] e₂)
    (hb : Tracked x e₂ [b] e₂) (hi : i.Passes x) :
    Tracked x e (code ++ [{ op := .prepare }, a, b, i]) e₂ := by
  have hprepare : Tracked x e₁ [{ op := .prepare }] e₁ := .blank hx rfl rfl rfl
  have hlast : Tracked x e₂ [i] e₂ := .passes rfl (by simpa using hi)
  exact hcode.append (hprepare.append (ha.append (hb.append hlast)))

/-- **An expression**: its variables are noted and never introduced, so that the operands may be pushed
    behind code that was emitted after them. -/
theorem evalOperand_tracked (hx : NamedVariable x) (value : Expr) : ∀ e : Emitter,
    -- The code that computes an operand is tracked; pushing it is tracked wherever its names were noted.
    Tracked x e ((evalOperand value).eval e).1.1 ((evalOperand value).eval e).2 ∧
      ∀ e' : Emitter, (x ∈ ((evalOperand value).eval e).2.seen → x ∈ e'.seen) →
        Tracked x e' [((evalOperand value).eval e).1.2] e' := by
  induction value with
  | var name =>
    intro e
    have hnoted : name ∈ ((occurs name).eval e).2.seen ∧
        ∀ y ∈ e.seen, y ∈ ((occurs name).eval e).2.seen := by
      rw [eval_occurs]
      cases hseen : e.seen.contains name with
      | true => exact ⟨by simpa using hseen, fun _ h => h⟩
      | false => exact ⟨List.mem_cons_self, fun _ h => List.mem_cons_of_mem _ h⟩
    simp only [evalOperand, eval_bind, eval_pure]
    refine ⟨.later (hnoted.2 x) (by simp) (by simp), fun e' hstays => ?_⟩
    refine .later id ?_ ?_ <;> intro i hi <;> obtain rfl := List.mem_singleton.1 hi
    · intro hsets
      cases ((Instruction.sets_iff hx hx.named.symm).1 hsets).1
    · rintro ⟨-, rfl⟩
      exact hstays hnoted.1
  | const a =>
    intro e
    exact ⟨.nil rfl, fun e' _ => .blank hx rfl rfl rfl⟩
  | apply op keeps l r ihl ihr =>
    intro e
    obtain ⟨hleft, ha⟩ := ihl e
    obtain ⟨hright, hb⟩ := ihr ((evalOperand l).eval e).2
    have hcode := hleft.append hright
    have hoperation := fun i hi => hcode.operation (i := i) hx (ha _ hright.stays) (hb _ id) hi
    -- An operator speaks of its result only, which is no variable of the program.
    have happlied : ∀ y, y ≠ x → Instruction.Passes x { op := op.opcode, result := y } := fun y hy =>
      .of_ne hx hx.named.symm hy
    have hpush : ∀ (e' : Emitter) (y : String), y ≠ x →
        Tracked x e' [{ op := .pushValue, name := y }] e' := by
      intro e' y hy
      refine .passes rfl fun i hi => ?_
      obtain rfl := List.mem_singleton.1 hi
      exact .of_ne hx hy hx.named.symm
    cases keeps with
    | true =>
      have hresult := hx.ne_resultRegister
        (((evalOperand r).eval ((evalOperand l).eval e).2).2.results + 1)
      exact ⟨(hoperation _ (happlied _ hresult)).congr rfl, fun e' _ => hpush e' _ hresult⟩
    | false =>
      have hresult := hx.named.symm
      exact ⟨hoperation _ (happlied _ hresult), fun e' _ => hpush e' _ hresult⟩

/-- The target of an assignment is tracked. -/
theorem pushTarget_tracked (hx : NamedVariable x) (target : Target) (e : Emitter) :
    Tracked x e [((pushTarget target).eval e).1] ((pushTarget target).eval e).2 := by
  cases target with
  | var name =>
    simp only [pushTarget, eval_ite, eval_pure, eval_bind, eval_occurs]
    cases hseen : e.seen.contains name with
    | false => exact .occurs_first hx (by simpa using hseen)
    | true =>
      cases hanon : isAnonymous name with
      | false => exact .occurs_later hx (by simpa using hseen) rfl
      | true =>
        -- A target that was made up is pushed as new every time.
        have hname : name ≠ x := by
          rintro rfl
          rw [hx.anonymous] at hanon
          cases hanon
        refine .passes rfl fun i hi => ?_
        obtain rfl := List.mem_singleton.1 hi
        exact .of_ne hx hname hx.named.symm
  | const a => exact pushConst_tracked hx a e

/-- **An evaluation into a target.** -/
theorem assignCode_tracked (hx : NamedVariable x) (target : Target) (value : Expr) (e : Emitter) :
    Tracked x e ((assignCode target value).eval e).1 ((assignCode target value).eval e).2 := by
  obtain ⟨hcode, hright⟩ := evalOperand_tracked hx value e
  have htarget := pushTarget_tracked hx target ((evalOperand value).eval e).2
  have hbehind := hright _ htarget.stays
  have hresult := hx.ne_resultRegister
    (((pushTarget target).eval ((evalOperand value).eval e).2).2.results + 1)
  have hassigned : Instruction.Passes x { op := .is, result := resultRegister _ } :=
    .of_ne hx hx.named.symm hresult
  exact (hcode.operation hx htarget hbehind hassigned).congr rfl

/-! ## §5. Bodies. -/

/-- The goals in the order of the text. -/
def Goals.leaves : Goals → List Leaf
  | .goal x => [x]
  | .both l r => l.leaves ++ r.leaves
  | .either l r => l.leaves ++ r.leaves

/-- A way through the goals takes some of them, in the order of the text. -/
theorem Goals.sublist_of_mem_paths {g : Goals} {p : List Leaf} (h : p ∈ g.paths) :
    p.Sublist g.leaves := by
  induction g generalizing p with
  | goal y =>
    obtain rfl : p = [y] := by simpa [paths] using h
    exact .refl _
  | both l r ihl ihr =>
    simp only [paths, List.mem_flatMap, List.mem_map] at h
    obtain ⟨a, ha, b, hb, rfl⟩ := h
    exact (ihl ha).append (ihr hb)
  | either l r ihl ihr =>
    rcases List.mem_append.1 h with h | h
    · exact (ihl h).trans (List.sublist_append_left _ _)
    · exact (ihr h).trans (List.sublist_append_right _ _)

/-- The code of the goals in the order of the text. -/
def Goals.text (g : Goals) : Code := g.leaves.flatMap Leaf.code

@[simp] theorem Goals.text_both (l r : Goals) : (Goals.both l r).text = l.text ++ r.text :=
  List.flatMap_append

@[simp] theorem Goals.text_either (l r : Goals) : (Goals.either l r).text = l.text ++ r.text :=
  List.flatMap_append

/-- What ends a body. -/
theorem UnitInfo.tail_tracked (hx : NamedVariable x) (u : UnitInfo) {e e' : Emitter} {code : Code}
    (h : Tracked x e code e') : Tracked x e (code ++ [u.tail]) e' :=
  h.append (.blank hx rfl rfl rfl)

/-- A body that is emitted as one goal. -/
theorem Body.goals_tracked_leaf {b : Body} {u : UnitInfo} {e e' : Emitter} {label : String}
    {code : Code} {primitive : Bool} (hgoals : b.goals u = Goals.single <$> b.fragment u true)
    (hfragment : (b.fragment u true).eval e = (.leaf label code primitive, e'))
    (hcode : Tracked x e code e') :
    Tracked x e ((b.goals u).eval e).1.text ((b.goals u).eval e).2 := by
  rw [hgoals, eval_map, hfragment]
  simpa [Goals.single, Goals.text, Goals.leaves, Fragment.leaf] using hcode

/-- **The goals of a body are emitted in the order of the text.** -/
theorem Body.goals_tracked (hx : NamedVariable x) (b : Body) : ∀ (u : UnitInfo) (e : Emitter),
    Tracked x e ((b.goals u).eval e).1.text ((b.goals u).eval e).2 := by
  have hleaf : ∀ e : Emitter, Tracked x e [] { e with leaves := e.leaves + 1 } := fun e => .nil rfl
  induction b with
  | conj l r ihl ihr =>
    intro u e
    have h := (ihl u e).append (ihr u ((l.goals u).eval e).2)
    simpa [Body.goals] using h
  | disj l r ihl ihr =>
    intro u e
    have h := (ihl u e).append (ihr u ((l.goals u).eval e).2)
    simpa [Body.goals] using h
  | cut =>
    intro u e
    have hcut : Tracked x e [{ op := .cut }] { e with leaves := e.leaves + 1 } := .blank hx rfl rfl rfl
    exact goals_tracked_leaf rfl rfl (u.tail_tracked hx hcut)
  | fail =>
    intro u e
    exact goals_tracked_leaf rfl rfl (.blank hx rfl rfl rfl)
  | succeed =>
    intro u e
    exact goals_tracked_leaf rfl rfl (u.tail_tracked hx (hleaf e))
  | call g =>
    intro u e
    exact goals_tracked_leaf rfl rfl
      (u.tail_tracked hx ((hleaf e).append (callGoal_tracked hx u.isNative g false _)))
  | negatedCall g =>
    intro u e
    exact goals_tracked_leaf rfl rfl
      (u.tail_tracked hx ((hleaf e).append (callGoal_tracked hx u.isNative g true _)))
  | negatedBody head body _ =>
    intro u e
    -- The auxiliary clause has an emitter of its own.
    have haux : Tracked x e [] ((withAuxiliary
        (clauseOf head.name head.args (some (body.fragment { u with isQuery := false } true)))).eval
          { e with leaves := e.leaves + 1 }).2 := .nil rfl
    exact goals_tracked_leaf rfl rfl
      (u.tail_tracked hx (haux.append (callGoal_tracked hx u.isNative head true _)))
  | assign target value =>
    intro u e
    exact goals_tracked_leaf rfl rfl
      (u.tail_tracked hx ((hleaf e).append (assignCode_tracked hx target value _)))
  | evaluate value =>
    intro u e
    exact goals_tracked_leaf rfl rfl
      (u.tail_tracked hx ((hleaf e).append (evalOperand_tracked hx value _).1))

end PrologMachine
