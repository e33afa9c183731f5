/-
  PrologMachine.Proofs.Code.Phase ── **THE DISCIPLINE OF COMPILED CODE.**

  Compiled code follows a discipline that a finite automaton can check: a head decodes each
  structure once and completely, a goal is complete before it is called, a call is followed by its
  retry and the dropping of its frame, an operator finds two operands.  A phase is what the code so
  far has promised to the code that follows.

    * `Phase.next` is the automaton, `Phase.run` its run over a piece of code.
    * `Clause.Sound` says that every block of a clause follows the discipline and that every label
      it goes to is there.
-/
import Mathlib
import PrologMachine.Code.Fragment
import PrologMachine.Machine.Evaluation
import PrologMachine.Proofs.Signature

namespace PrologMachine

/-! ## §1. Names of registers and labels. -/

/-- Registers of different numbers have different names. -/
theorem structRegister_inj {a b : Nat} : structRegister a = structRegister b ↔ a = b := by
  simp [structRegister, ← String.toList_inj, toDigits_inj]

/-- Results of different numbers have different names. -/
theorem resultRegister_inj {a b : Nat} : resultRegister a = resultRegister b ↔ a = b := by
  simp [resultRegister, ← String.toList_inj, toDigits_inj]

/-- Leaves of different numbers have different labels. -/
theorem leafLabel_inj {a b : Nat} : leafLabel a = leafLabel b ↔ a = b := by
  simp [leafLabel, ← String.toList_inj, toDigits_inj]

/-- The goal is register 0. -/
theorem structRegister_zero : structRegister 0 = "$x0" := rfl

theorem resultRegister_zero : resultRegister 0 = scratchRegister := rfl

theorem leafLabel_zero : leafLabel 0 = bodyLabel := rfl

/-- No leaf has the label of the head. -/
theorem leafLabel_ne_head (n : Nat) : leafLabel n ≠ headLabel := by
  intro h
  have := congrArg String.toList h
  simp [leafLabel, headLabel] at this

@[simp] theorem isStructRegister_structRegister (n : Nat) :
    isStructRegister (structRegister n) = true := by
  simp [isStructRegister, structRegister]

@[simp] theorem isStructRegister_resultRegister (n : Nat) :
    isStructRegister (resultRegister n) = false := by
  simp [isStructRegister, resultRegister, List.isPrefixOf]

@[simp] theorem isRegister_resultRegister (n : Nat) : isRegister (resultRegister n) = true := by
  simp [isRegister, resultRegister]

/-- A name of the program is not that of a register. -/
theorem isStructRegister_of_not_isRegister {name : String} (h : isRegister name = false) :
    isStructRegister name = false := by
  revert h
  simp only [isRegister, isStructRegister]
  rcases name.toList with _ | ⟨a, _ | ⟨b, l⟩⟩ <;> simp +contextual [List.isPrefixOf]

/-- So it differs from the name of every register for structures. -/
theorem ne_structRegister {name : String} (h : isStructRegister name = false) (n : Nat) :
    name ≠ structRegister n := by
  rintro rfl; simp at h

/-- It differs from the name of every register for results. -/
theorem ne_resultRegister {name : String} (h : isRegister name = false) (n : Nat) :
    name ≠ resultRegister n := by
  rintro rfl; simp at h

/-! ## §2. Phases. -/

/-- What the code so far promises to the code that follows. -/
inductive Phase where
  /-- A head: the registers still to be decoded, the one being decoded, and how many of its
      arguments are left. -/
  | head (pending : List String) (last : String) (left : Nat)
  /-- Between goals. -/
  | body
  /-- A goal under construction: the registers that hold a structure, the structure begun last,
      and how many of its arguments are left. -/
  | build (regs : List String) (begun : Option (String × Signature)) (left : Nat)
  /-- A call is set up. -/
  | ready (goal : Signature)
  /-- A call has returned. -/
  | returned (goal : Signature)
  /-- A call has returned and is not tried again. -/
  | retried
  /-- The outcome of a call is still to be looked at. -/
  | outcome
  /-- Operands are being pushed. -/
  | operands (count : Nat)
  /-- Behind a goal that always fails. -/
  | failed
  /-- Control has left the block. -/
  | closed
  deriving DecidableEq

namespace Phase

/-- A head whose structure has had one more argument decoded. -/
def decoded (pending : List String) (last : String) (left : Nat) (ok : Bool) : Option Phase :=
  if left = 0 ∨ ok = false then none else some (.head pending last (left - 1))

/-- Decoding an argument of a head: the test must hold and an argument must be left. -/
theorem decoded_eq_some {pending : List String} {last : String} {left : Nat} {ok : Bool} {p : Phase}
    (h : decoded pending last left ok = some p) :
    ok = true ∧ ∃ n, left = n + 1 ∧ p = .head pending last n := by
  unfold decoded at h
  split at h
  · cases h
  · next hne =>
    rw [not_or, Bool.not_eq_false] at hne
    exact ⟨hne.2, left - 1, by omega, (Option.some.inj h).symm⟩

/-- The phase of a head behind an instruction. -/
def nextHead (pending : List String) (last : String) (left : Nat) (i : Instruction) :
    Option Phase :=
  match i.op with
  | .getStruct =>
    if left = 0 ∧ i.register ∈ pending ∧ i.register ≠ last then
      some (.head (pending.filter (· ≠ i.register)) i.register i.arity.toNat)
    else none
  | .getVar | .unifVar =>
    if isStructRegister i.name then
      decoded (i.name :: pending) last left
        (i.name ∉ pending && i.name ≠ last && i.name ≠ "$x0")
    else decoded pending last left (!isRegister i.name)
  | .getValue | .unifValue => decoded pending last left (!isRegister i.name)
  | .unifVoid => decoded pending last left true
  | .getTerm | .getNumber | .getNil | .unifyTerm | .unifyNumber | .unifyNil =>
    decoded pending last left i.constant.isSome
  | .jump | .proceed => if left = 0 ∧ pending = [] then some .closed else none
  | _ => none

/-- The phase between goals behind an instruction. -/
def nextBody (i : Instruction) : Option Phase :=
  match i.op with
  | .allocate => some (.build [] none 0)
  | .prepare => some (.operands 0)
  | .cut | .tryElse | .tryFinally => some .body
  | .fail => some .failed
  | .jump | .proceed | .end_ => some .closed
  | _ => none

/-- A goal under construction with one more argument passed. -/
def passed (regs : List String) (begun : Option (String × Signature)) (left : Nat) (ok : Bool) :
    Option Phase :=
  if left = 0 ∨ ok = false then none else some (.build regs begun (left - 1))

/-- Passing an argument to a goal: the test must hold and an argument must be left. -/
theorem passed_eq_some {regs : List String} {begun : Option (String × Signature)} {left : Nat}
    {ok : Bool} {p : Phase} (h : passed regs begun left ok = some p) :
    ok = true ∧ ∃ n, left = n + 1 ∧ p = .build regs begun n := by
  unfold passed at h
  split at h
  · cases h
  · next hne =>
    rw [not_or, Bool.not_eq_false] at hne
    exact ⟨hne.2, left - 1, by omega, (Option.some.inj h).symm⟩

/-- The phase of a goal under construction behind an instruction.  Only goals that `admits` lets
    through may be called. -/
def nextBuild (admits : Signature → Bool) (regs : List String) (begun : Option (String × Signature))
    (left : Nat) (i : Instruction) : Option Phase :=
  match i.op with
  | .putStruct =>
    if left = 0 ∧ 0 ≤ i.arity then
      some (.build (i.register :: regs) (some (i.register, ⟨i.functor, i.arity⟩)) i.arity.toNat)
    else none
  | .putVar => passed regs begun left (!isRegister i.name)
  | .putVoid => passed regs begun left true
  | .putValue =>
    passed regs begun left
      (if isStructRegister i.name then i.name ∈ regs else !isRegister i.name)
  | .putTerm | .putNumber | .putNil => passed regs begun left i.constant.isSome
  | .setup =>
    match begun with
    | some (x, goal) =>
      if left = 0 ∧ x = "$x0" ∧ admits goal = true then some (.ready goal) else none
    | none => none
  | _ => none

/-- The name may be pushed as an operand. -/
def isOperandName (name : String) : Bool :=
  !isStructRegister name && name ≠ scratchRegister

/-- The phase of operands being pushed behind an instruction. -/
def nextOperands (count : Nat) (i : Instruction) : Option Phase :=
  match i.op with
  | .pushVar | .pushValue =>
    if count < 2 ∧ isOperandName i.name then some (.operands (count + 1)) else none
  | .pushTerm | .pushNumber =>
    if count < 2 ∧ i.constant.isSome then some (.operands (count + 1)) else none
  | .is | .lt | .gt | .le | .ge | .eq | .ne => if count = 2 then some .body else none
  | .plus | .minus | .mult | .div | .intDiv | .mod =>
    if count = 2 ∧ i.result ≠ "" ∧ isOperandName i.result then some .body else none
  | _ => none

/-- The phase behind an instruction; nothing if it breaks the discipline. -/
def next (admits : Signature → Bool) : Phase → Instruction → Option Phase
  | .head pending last left, i => nextHead pending last left i
  | .body, i => nextBody i
  | .failed, i => nextBody i
  | .build regs begun left, i => nextBuild admits regs begun left i
  | .ready goal, i => if i.op = .call ∨ i.op = .bcall then some (.returned goal) else none
  | .returned _, i => if i.op = .maybeRetry ∨ i.op = .maybeRetryN then some .retried else none
  | .retried, i => if i.op = .deallocate then some .outcome else none
  | .outcome, i =>
    if i.op = .maybeFail then some .body
    else if i.op = .proceed ∨ i.op = .end_ then some .closed
    else none
  | .operands count, i => nextOperands count i
  | .closed, _ => none

/-- The phase behind a piece of code. -/
def run (admits : Signature → Bool) : Phase → Code → Option Phase
  | p, [] => some p
  | p, i :: is => (p.next admits i).bind (·.run admits is)

variable {admits : Signature → Bool}

@[simp] theorem run_nil (p : Phase) : p.run admits [] = some p := rfl

/-- A run takes one instruction after another. -/
theorem run_cons (p : Phase) (i : Instruction) (is : Code) :
    p.run admits (i :: is) = (p.next admits i).bind (·.run admits is) := rfl

/-- A run over two pieces of code is a run over the first and then over the second. -/
theorem run_append (p : Phase) (is js : Code) :
    p.run admits (is ++ js) = (p.run admits is).bind (·.run admits js) := by
  induction is generalizing p with
  | nil => rfl
  | cons i is ih =>
    rw [List.cons_append, run_cons, run_cons]
    cases h : p.next admits i with
    | none => rfl
    | some q => simpa using ih q

/-- Behind a goal that always fails the code goes on as between goals. -/
theorem run_failed {is : Code} (h : is ≠ []) : failed.run admits is = body.run admits is := by
  obtain ⟨i, is, rfl⟩ := List.exists_cons_of_ne_nil h
  rfl

/-- Only a call that was set up leads behind a call. -/
theorem eq_ready_of_next {p : Phase} {i : Instruction} {g : Signature}
    (h : p.next admits i = some (.returned g)) : p = .ready g := by
  -- Only a ready goal can be called; every other phase goes elsewhere, or nowhere.
  cases p with
  | ready g' =>
    simp only [next] at h
    split at h
    · rw [returned.inj (Option.some.inj h)]
    · cases h
  | head pending last left =>
    simp only [next, nextHead, decoded] at h
    repeat' split at h
    all_goals cases h
  | build regs begun left =>
    simp only [next, nextBuild, passed] at h
    repeat' split at h
    all_goals cases h
  | body =>
    simp only [next, nextBody] at h
    split at h <;> cases h
  | failed =>
    simp only [next, nextBody] at h
    split at h <;> cases h
  | operands n =>
    simp only [next, nextOperands] at h
    repeat' split at h
    all_goals cases h
  | returned g' =>
    simp only [next] at h
    split at h <;> cases h
  | retried =>
    simp only [next] at h
    split at h <;> cases h
  | outcome =>
    simp only [next] at h
    repeat' split at h
    all_goals cases h
  | closed => cases h

/-- Only an admitted goal is set up. -/
theorem admits_of_next {p : Phase} {i : Instruction} {g : Signature}
    (h : p.next admits i = some (.ready g)) : admits g = true := by
  -- Only a goal that is complete becomes ready, and it is admitted there.
  cases p with
  | build regs begun left =>
    simp only [next, nextBuild, passed] at h
    repeat' split at h
    all_goals first
      | (next hcond => obtain rfl := ready.inj (Option.some.inj h); exact hcond.2.2)
      | cases h
  | head pending last left =>
    simp only [next, nextHead, decoded] at h
    repeat' split at h
    all_goals cases h
  | body =>
    simp only [next, nextBody] at h
    split at h <;> cases h
  | failed =>
    simp only [next, nextBody] at h
    split at h <;> cases h
  | operands n =>
    simp only [next, nextOperands] at h
    repeat' split at h
    all_goals cases h
  | ready g' =>
    simp only [next] at h
    split at h <;> cases h
  | returned g' =>
    simp only [next] at h
    split at h <;> cases h
  | retried =>
    simp only [next] at h
    split at h <;> cases h
  | outcome =>
    simp only [next] at h
    repeat' split at h
    all_goals cases h
  | closed => cases h

/-- A block may end in the phase. -/
def Final (p : Phase) : Prop := p = .closed ∨ p = .failed

end Phase

/-! ## §3. Clauses. -/

/-- The code is a block: from the phase it starts in it follows the discipline to its end. -/
def Phase.Closes (admits : Signature → Bool) (p : Phase) (code : Code) : Prop :=
  ∃ q, p.run admits code = some q ∧ q.Final

/-- The phase in which the block with a label starts. -/
def startPhase (label : String) : Phase :=
  if label = headLabel then .head ["$x0"] "" 0 else .body

/-- The instruction goes to its label, at once or later. -/
def Instruction.goesToLabel (i : Instruction) : Prop := i.op = .jump ∨ i.op = .tryElse

/-- The instruction calls a goal. -/
def Instruction.calls (i : Instruction) : Prop := i.op = .call ∨ i.op = .bcall

/-- The labels that a piece of code goes to. -/
def Code.Targets (code : Code) (label : String) : Prop :=
  ∃ i ∈ code, i.goesToLabel ∧ i.label = label

/-- The code goes to no label. -/
def Code.Straight (code : Code) : Prop := ∀ i ∈ code, ¬ i.goesToLabel

@[simp] theorem Code.straight_nil : Code.Straight [] := by simp [Code.Straight]

@[simp] theorem Code.straight_cons {i : Instruction} {code : Code} :
    Code.Straight (i :: code) ↔ ¬ i.goesToLabel ∧ Code.Straight code := by
  simp [Code.Straight]

@[simp] theorem Code.straight_append {a b : Code} :
    Code.Straight (a ++ b) ↔ Code.Straight a ∧ Code.Straight b := by
  simp [Code.Straight, or_imp, forall_and]

@[simp] theorem Instruction.goesToLabel_iff {i : Instruction} :
    i.goesToLabel ↔ i.op = .jump ∨ i.op = .tryElse := Iff.rfl

@[simp] theorem Code.not_targets_nil {label : String} : ¬ Code.Targets [] label := by
  simp [Code.Targets]

/-- The targets of two pieces of code are those of the one and those of the other. -/
theorem Code.targets_append {a b : Code} {label : String} :
    Code.Targets (a ++ b) label ↔ Code.Targets a label ∨ Code.Targets b label := by
  simp [Code.Targets, or_and_right, exists_or]

/-- The targets of a piece of code are that of its first instruction and those of the others. -/
theorem Code.targets_cons {i : Instruction} {code : Code} {label : String} :
    Code.Targets (i :: code) label ↔
      (i.goesToLabel ∧ i.label = label) ∨ Code.Targets code label := by
  simp [Code.Targets]

/-- Straight code has no targets. -/
theorem Code.Straight.not_targets {code : Code} (h : Code.Straight code) (label : String) :
    ¬ Code.Targets code label := fun ⟨i, hi, hgoes, _⟩ => h i hi hgoes

/-- A clause whose blocks follow the discipline and lead to blocks of the clause. -/
structure Clause.Sound (admits : Signature → Bool) (c : Clause) : Prop where
  /-- Every block follows the discipline. -/
  closes : ∀ label code, (label, code) ∈ c.code → (startPhase label).Closes admits code
  /-- Every label that is gone to has a block. -/
  targets : ∀ label code, (label, code) ∈ c.code → ∀ l, Code.Targets code l →
    l ≠ headLabel ∧ l ∈ c.code.map Prod.fst

/-- A block that is found is one of the blocks. -/
theorem Clause.mem_of_block? {c : Clause} {label : String} {code : Code}
    (h : c.block? label = some code) : (label, code) ∈ c.code := by
  rw [Clause.block?, List.lookup_eq_some_iff] at h
  obtain ⟨l₁, l₂, hl, -⟩ := h
  rw [hl]
  simp

/-! ## §4. Points in the code of a clause. -/

/-- The code of the clause has come to a phase before the instruction `index` of a block. -/
def Clause.At (admits : Signature → Bool) (c : Clause) (label : String) (index : Nat) (p : Phase) :
    Prop :=
  ∃ code, c.block? label = some code ∧ index ≤ code.length ∧
    (startPhase label).run admits (code.take index) = some p

namespace Clause.At

variable {admits : Signature → Bool} {c : Clause} {label : String} {index : Nat} {p : Phase}

/-- A label of a clause has a block. -/
theorem block?_of_mem (h : label ∈ c.code.map Prod.fst) : ∃ code, c.block? label = some code := by
  rw [← Option.isSome_iff_exists, Clause.block?, List.lookup_isSome_iff]
  obtain ⟨b, hb, rfl⟩ := List.mem_map.1 h
  exact ⟨b, hb, by simp⟩

/-- A block is entered at its start. -/
theorem start (h : label ∈ c.code.map Prod.fst) : c.At admits label 0 (startPhase label) := by
  obtain ⟨code, hcode⟩ := block?_of_mem h
  exact ⟨code, hcode, Nat.zero_le _, rfl⟩

/-- Every block but the head starts in the phase of a body. -/
theorem start_body (h : label ∈ c.code.map Prod.fst) (hne : label ≠ headLabel) :
    c.At admits label 0 .body := by
  have hs : c.At admits label 0 (startPhase label) := start h
  rwa [startPhase, if_neg hne] at hs

/-- **Before the end of a block there is an instruction that keeps the discipline.** -/
theorem next (hc : c.Sound admits) (h : c.At admits label index p) (hp : ¬ p.Final) :
    ∃ code i p', c.block? label = some code ∧ code[index]? = some i ∧
      p.next admits i = some p' ∧ c.At admits label (index + 1) p' := by
  obtain ⟨code, hcode, hle, hrun⟩ := h
  obtain ⟨q, hq, hfinal⟩ := hc.closes label code (Clause.mem_of_block? hcode)
  -- The code is run in two parts: up to the index, and from there on.
  have hsplit := hq
  rw [← List.take_append_drop index code, Phase.run_append, hrun, Option.bind_some] at hsplit
  cases hd : code.drop index with
  -- At the end of the block the phase is final.
  | nil =>
    rw [hd, Phase.run_nil] at hsplit
    exact (hp (Option.some.inj hsplit ▸ hfinal)).elim
  | cons i rest =>
    rw [hd, Phase.run_cons] at hsplit
    obtain ⟨p', hp', -⟩ := Option.bind_eq_some_iff.1 hsplit
    have hi : code[index]? = some i := by
      rw [← List.head?_drop, hd]
      rfl
    have hlt : index < code.length := (List.getElem?_eq_some_iff.1 hi).1
    refine ⟨code, i, p', hcode, hi, hp', code, hcode, hlt, ?_⟩
    rw [List.take_add_one, hi, Phase.run_append, hrun]
    simpa [Phase.run_cons] using hp'

/-- A phase in which no block starts is reached by an instruction. -/
theorem exists_previous (h : c.At admits label index p) (hp : p ≠ startPhase label) :
    ∃ k p₀ i, index = k + 1 ∧ c.At admits label k p₀ ∧ p₀.next admits i = some p := by
  obtain ⟨code, hcode, hle, hrun⟩ := h
  cases index with
  | zero => exact absurd (by simpa using hrun.symm) hp
  | succ k =>
    rw [List.take_add_one, Phase.run_append] at hrun
    obtain ⟨p₀, hp₀, hnext⟩ := Option.bind_eq_some_iff.1 hrun
    obtain ⟨i, hi⟩ : ∃ i, code[k]? = some i := ⟨_, List.getElem?_eq_getElem (by omega)⟩
    rw [hi] at hnext
    refine ⟨k, p₀, i, rfl, ⟨code, hcode, by omega, hp₀⟩, ?_⟩
    simpa [Phase.run_cons] using hnext

/-- Only a call returns. -/
theorem ready_of_returned {g : Signature} (h : c.At admits label index (.returned g)) :
    ∃ k, index = k + 1 ∧ c.At admits label k (.ready g) := by
  obtain ⟨k, p₀, i, hk, hat, hnext⟩ := h.exists_previous
    (by unfold startPhase; split <;> simp)
  rw [Phase.eq_ready_of_next hnext] at hat
  exact ⟨k, hk, hat⟩

/-- The instruction in front of the point where a call returns is the call. -/
theorem calls_of_returned {g : Signature} {code : Code} {i : Instruction}
    (h : c.At admits label (index + 1) (.returned g)) (hcode : c.block? label = some code)
    (hi : code[index]? = some i) : i.calls := by
  obtain ⟨code', hcode', -, hrun⟩ := h
  obtain rfl := Option.some.inj (hcode.symm.trans hcode')
  rw [List.take_add_one, hi, Phase.run_append] at hrun
  obtain ⟨p, -, hnext⟩ := Option.bind_eq_some_iff.1 hrun
  replace hnext : p.next admits i = some (.returned g) := by
    simpa [Phase.run_cons] using hnext
  rw [Phase.eq_ready_of_next hnext] at hnext
  simp only [Phase.next] at hnext
  split at hnext
  · assumption
  · cases hnext

/-- Only admitted goals are called. -/
theorem admits_of_ready {g : Signature} (h : c.At admits label index (.ready g)) :
    admits g = true := by
  obtain ⟨k, p₀, i, -, -, hnext⟩ := h.exists_previous (by unfold startPhase; split <;> simp)
  exact Phase.admits_of_next hnext

end Clause.At

end PrologMachine
