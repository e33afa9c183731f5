/-
  PrologMachine.Proofs.Machine.Bookkeeping ── **WHAT NO INSTRUCTION TOUCHES.**

  Whether a question was set is decided when a machine is asked, and steps are counted when an
  instruction is fetched.  No instruction, whatever the code, the clauses and the native predicates,
  takes a question back, counts a step or reports that a step limit is used up.

    * `Machine.ledger` is what instructions leave alone.
    * `Machine.Lenient` is a relation between a machine and what becomes of it that allows whatever
      sets no variable of a frame twice; `Exec.Obeys` is an action within such a relation, and it is
      closed under sequencing.
    * `Exec.Keeps` is the case of the ledger, which holds of every instruction.
    * `Machine.undisturbed`: what an action leaves that a machine performs.
    * `Machine.asked_step`, `Machine.asked_redo`: a question stays asked.
-/
import PrologMachine.Proofs.Machine.Actions

namespace PrologMachine

/-! ## §1. Relations. -/

namespace Machine

/-- What instructions leave alone: whether a question was set, how many steps were counted, and the
    error that stopped the machine. -/
def ledger (m : Machine) : Bool × Nat × Option Error := (m.asked, m.steps, m.error)

/-- The later machine has the ledger of the earlier one. -/
def SameLedger (m m' : Machine) : Prop := m'.ledger = m.ledger

/-- A relation between a machine and what becomes of it.  It allows any change beside the frames and
    the ledger, and of the frames it allows what sets no variable that has a value. -/
class Lenient (R : Machine → Machine → Prop) : Prop where
  /-- Nothing changes. -/
  refl (m : Machine) : R m m
  /-- One change after the other. -/
  trans {m m' m'' : Machine} (h : R m m') (h' : R m' m'') : R m m''
  /-- A change beside the frames and the ledger. -/
  rest {m m' : Machine} (hframes : m'.frames = m.frames) (hledger : m'.ledger = m.ledger) : R m m'
  /-- A change of a frame that leaves its variables. -/
  changeFrame {m : Machine} {f : FrameId} {g : Frame → Frame} (hg : ∀ fr, (g fr).vars = fr.vars) :
    R m (m.changeFrame f g)
  /-- The first value of a variable of the running clause. -/
  put {m : Machine} {name : String} {t : Value} (hname : (m.frame m.current).get? name = none) :
    R m (m.changeFrame m.current (·.put name t))
  /-- A new frame. -/
  push {m : Machine} {fr : Frame} : R m { m with frames := m.frames.push fr }

instance : Lenient SameLedger where
  refl _ := rfl
  trans h h' := Eq.trans h' h
  rest _ h := h
  changeFrame _ := rfl
  put _ := rfl
  push := rfl

variable {R : Machine → Machine → Prop} [Lenient R] {m m' : Machine} {f : FrameId}

/-- A change of a frame that leaves its variables, after one beside the frames and the ledger. -/
theorem Lenient.restChange {g : Frame → Frame} (hframes : m'.frames = m.frames)
    (hledger : m'.ledger = m.ledger) (hg : ∀ fr, (g fr).vars = fr.vars) : R m (m'.changeFrame f g) :=
  trans (rest hframes hledger) (changeFrame hg)

/-- Recording a binding is lenient. -/
theorem Lenient.trail (v : VarId) : R m (m.trail v) := by
  unfold Machine.trail
  split
  · exact changeFrame fun _ => rfl
  · exact refl m

theorem Lenient.trailAll (vs : List VarId) : R m (m.trailAll vs) := by
  unfold Machine.trailAll
  split
  · exact changeFrame fun _ => rfl
  · exact refl m

end Machine

open Machine (Lenient SameLedger)

namespace Exec

variable {α β : Type} {w : World} {m m' : Machine} {f : FrameId} {R : Machine → Machine → Prop}

/-! ## §2. Actions. -/

/-- What an action left is within the relation, and no error says that a step limit is used up. -/
structure Obeyed (R : Machine → Machine → Prop) (m : Machine) (r : Except Error α × Machine) :
    Prop where
  /-- What became of the machine. -/
  change : R m r.2
  /-- No error is one of a step limit. -/
  error : ∀ k, r.1 ≠ .error (.running (.stepLimit k))

/-- The action stays within the relation and reports no step limit, also where it stops with an
    error. -/
def Obeys (R : Machine → Machine → Prop) (x : Exec α) : Prop := ∀ m, Obeyed R m (eval x m)

/-- An outcome that is no error. -/
protected theorem Obeyed.ok {a : α} (h : R m m') : Obeyed R m (.ok a, m') := ⟨h, nofun⟩

protected theorem Obeys.modify {g : Machine → Machine} (hg : ∀ m, R m (g m)) :
    Obeys R (modify g) := fun m => .ok (hg m)

protected theorem Obeys.ite (c : Prop) [Decidable c] {x y : Exec α} (hx : x.Obeys R)
    (hy : y.Obeys R) : Obeys R (if c then x else y) := by
  split <;> assumption

variable [Lenient R]

protected theorem Obeyed.trans {r : Except Error α × Machine} (hr : Obeyed R m' r) (h : R m m') :
    Obeyed R m r :=
  ⟨Lenient.trans h hr.change, hr.error⟩

namespace Obeys

protected theorem pure (a : α) : Obeys R (pure a : Exec α) := fun m => .ok (Lenient.refl m)

protected theorem stop {e : RunError} (he : ∀ k, e ≠ .stepLimit k) :
    Obeys R (Exec.stop e : Exec α) :=
  fun m => ⟨Lenient.refl m, fun k h => he k (Error.running.inj (Except.error.inj h))⟩

protected theorem throw {e : Error} (he : ∀ k, e ≠ .running (.stepLimit k)) :
    Obeys R (throw e : Exec α) :=
  fun m => ⟨Lenient.refl m, fun k h => he k (Except.error.inj h)⟩

protected theorem get : Obeys R (get : Exec Machine) := fun m => .ok (Lenient.refl m)

protected theorem bind {x : Exec α} {k : α → Exec β} (hx : x.Obeys R) (hk : ∀ a, (k a).Obeys R) :
    Obeys R (x >>= k) := by
  intro m
  have hxm := hx m
  rw [eval_bind]
  rcases heval : eval x m with ⟨e | a, m'⟩ <;> rw [heval] at hxm
  · exact ⟨hxm.change, fun k h => hxm.error k (congrArg Except.error (Except.error.inj h))⟩
  · exact (hk a m').trans hxm.change

end Obeys

/-- Changes of a frame that leave its variables alone obey. -/
theorem obeys_changeCurrent {g : Frame → Frame} (hg : ∀ fr, (g fr).vars = fr.vars) :
    Obeys R (changeCurrent g) := fun _ => .ok (Lenient.changeFrame hg)

theorem obeys_target (op : Opcode) : Obeys R (target op) := by
  refine .bind .get fun m => ?_
  split
  · exact .pure _
  · exact .stop nofun

theorem obeys_fresh (name : String) : Obeys R (fresh name) := fun _ => .ok (Lenient.rest rfl rfl)

theorem obeys_newStruct (name : String) : Obeys R (newStruct name) :=
  fun _ => .ok (Lenient.rest rfl rfl)

theorem obeys_newNumber (x : Float) : Obeys R (newNumber x) := fun _ => .ok (Lenient.rest rfl rfl)

theorem obeys_pushArg (s : StructId) (t : Value) : Obeys R (pushArg s t) :=
  fun _ => .ok (Lenient.rest rfl rfl)

theorem obeys_current : Obeys R current := fun m => .ok (Lenient.refl m)

theorem obeys_deref (t : Value) : Obeys R (deref t) := fun m => .ok (Lenient.refl m)

/-- A variable is made where it has no value. -/
theorem obeys_lookup (name : String) : Obeys R (lookup name) := by
  intro m
  rw [eval_lookup]
  unfold Machine.valueOf
  split
  · exact .ok (Lenient.refl m)
  · next hname =>
    have hmade : R m { m with heap := (m.heap.fresh name).2 } := Lenient.rest rfl rfl
    exact .ok (Lenient.trans hmade (Lenient.put hname))

/-- No objection to a binding is the step limit. -/
theorem bindFault?_ne {h : Heap} {v : VarId} {t : Value} {e : RunError}
    (he : h.bindFault? v t = some e) (k : Int) : e ≠ .stepLimit k := by
  rintro rfl
  unfold Heap.bindFault? at he
  grind

/-- A binding obeys, whether it is accepted or not. -/
theorem obeys_bind (v : VarId) (t : Value) : Obeys R (bind v t) := by
  have htrail : Obeys R (modify (·.trail v)) := .modify fun _ => Lenient.trail v
  refine .bind .get fun m => .ite _ (htrail.bind fun _ => ?_) ?_
  all_goals
    refine .bind .get fun m => ?_
    split
    · next he => exact .stop (bindFault?_ne he)
    · exact .modify fun _ => Lenient.rest rfl rfl

theorem obeys_unify (a b : Value) : Obeys R (unify a b) := by
  intro m
  rw [eval_unify]
  have hunified : R m { m with heap := (m.heap.unify a b).2.heap } := Lenient.rest rfl rfl
  exact .ok (Lenient.trans hunified (Lenient.trailAll _))

/-! ## §3. Undoing, failure and returns. -/

/-- No objection to undoing a trail is the step limit. -/
theorem unwindTrail_ne {n : Nat} {vs : List VarId} {h : Heap} {e : RunError}
    (he : (unwindTrail n vs h).1 = some e) (k : Int) : e ≠ .stepLimit k := by
  fun_induction unwindTrail n vs h with
  | case1 n v vs h _ ih => exact ih he
  | case2 => cases he; exact nofun
  | case3 => cases he

theorem obeys_unwindTo (f : FrameId) (mark : Nat) : Obeys R (unwindTo f mark) := by
  intro m
  simp only [unwindTo, eval_bind, eval_get, eval_set]
  split
  · next he =>
    exact (Obeys.stop (unwindTrail_ne he) _).trans (Lenient.restChange rfl rfl fun _ => rfl)
  · exact .ok (Lenient.restChange rfl rfl fun _ => rfl)

/-- Removing a frame obeys, and so does handing its trail down. -/
theorem obeys_pop : Obeys R pop := by
  intro m
  simp only [pop, eval_bind, eval_get, eval_ite]
  split
  · exact Obeys.stop (by simp) m
  split
  · exact Obeys.stop (by simp) m
  · simp only [eval_bind, eval_set]
    split
    · next he =>
      exact (Obeys.stop (unwindTrail_ne he) _).trans (Lenient.restChange rfl rfl fun _ => rfl)
    · exact .ok (Lenient.restChange rfl rfl fun _ => rfl)

theorem obeys_popMany : ∀ n, Obeys R (popMany n)
  | 0 => .pure _
  | n + 1 => obeys_pop.bind fun _ => obeys_popMany n

theorem obeys_popTo (depth : Nat) : Obeys R (popTo depth) := .bind .get fun _ => obeys_popMany _

theorem obeys_jump (label : String) : Obeys R (jump label) := fun _ => .ok (Lenient.rest rfl rfl)

theorem obeys_returnTo (f : FrameId) : Obeys R (returnTo f) :=
  .modify fun m => by split <;> exact Lenient.rest rfl rfl

/-- Going back to a caller obeys. -/
theorem obeys_resume (f : FrameId) : Obeys R (resume f) := by
  refine .bind .get fun m => ?_
  split
  · exact .stop nofun
  · exact (obeys_returnTo f).bind fun _ => .modify fun _ => Lenient.restChange rfl rfl fun _ => rfl

/-- Going back to the last choice obeys. -/
theorem obeys_backtrack : Obeys R backtrack := by
  refine .bind .get fun m => ?_
  split
  · exact .pure _
  refine .ite _ (.pure _) ?_
  split
  · exact (obeys_resume _).bind fun _ => .pure _
  refine (obeys_popMany _).bind fun _ => .bind .get fun _ => ?_
  split
  · exact .pure _
  · exact .ite _ (.pure _) (.bind (.modify fun _ => Lenient.changeFrame fun _ => rfl) fun _ =>
      (obeys_resume _).bind fun _ => .pure _)

theorem obeys_backtrackOrEnd : Obeys R backtrackOrEnd :=
  obeys_backtrack.bind fun _ => .ite _ (.modify fun _ => Lenient.rest rfl rfl) (.pure _)

theorem obeys_headFail : Obeys R headFail :=
  .bind (.modify fun _ => Lenient.rest rfl rfl) fun _ => obeys_backtrackOrEnd

theorem obeys_failure : Obeys R failure := by
  refine .bind (.modify fun _ => Lenient.rest rfl rfl) fun _ => .bind .get fun m => ?_
  have hleave : ∀ as, Obeys R (do
      changeCurrent (fun fr => { fr with alternatives := as })
      backtrackOrEnd) := fun as =>
    .bind (obeys_changeCurrent fun _ => rfl) fun _ => obeys_backtrackOrEnd
  simp only
  split
  next a rest _ =>
    refine .ite _ (.bind (obeys_changeCurrent fun _ => rfl) fun _ => ?_) (hleave _)
    have htaken : ∀ label, Obeys R (do
        modify (fun m => { m with success := true })
        jump label) := fun label =>
      .bind (.modify fun _ => Lenient.rest rfl rfl) fun _ => obeys_jump label
    split
    · exact (obeys_unwindTo _ _).bind fun _ => htaken a.label
    · exact .pure ()
  · exact hleave _

/-! ## §4. Calls and control. -/

theorem obeys_allocate : Obeys R allocate :=
  .modify fun _ => Lenient.trans Lenient.push (Lenient.rest rfl rfl)

/-- Setting up a call obeys. -/
theorem obeys_setup : Obeys R setup := by
  refine (obeys_target _).bind fun f => ?_
  intro m
  exact .ok (Lenient.changeFrame fun _ => rfl)

/-- The errors of native predicates are put into their context. -/
theorem call_ne {b : Builtin} {args : List Value} {scene : Scene} {e : Error}
    (he : (b.call args scene).1 = .error e) (k : Int) : e ≠ .running (.stepLimit k) := by
  rintro rfl
  unfold Builtin.call at he
  split at he
  · cases he
  split at he
  · cases he
  · split at he <;> cases he

/-- A native predicate obeys: it binds variables and writes, and its errors are not the step limit. -/
theorem obeys_callNative (f : FrameId) (goal : Signature) (args : List Value) :
    Obeys R (callNative w f goal args) := by
  unfold callNative
  split
  · exact .stop nofun
  next b _ =>
  refine .bind (.modify fun _ => Lenient.changeFrame fun _ => rfl) fun _ => ?_
  intro m
  simp only [eval_bind, eval_get, eval_set]
  have hcalled : R m { m with
      heap := (b.call args ⟨m.heap, [], m.transcript, w.complaint⟩).2.heap
      transcript := (b.call args ⟨m.heap, [], m.transcript, w.complaint⟩).2.transcript } :=
    Lenient.rest rfl rfl
  have hrecorded := Lenient.trans hcalled
    (Lenient.trailAll (b.call args ⟨m.heap, [], m.transcript, w.complaint⟩).2.bound)
  split
  · next he => exact (Obeys.throw (call_ne he) _).trans hrecorded
  · have hanswered : ∀ ok, Obeys R (do
        modify (fun m => { m with success := ok })
        returnTo f) := fun ok =>
      .bind (.modify fun _ => Lenient.rest rfl rfl) fun _ => obeys_returnTo f
    exact (hanswered _ _).trans hrecorded

/-- Turning to the next clause obeys. -/
theorem obeys_retry (f : FrameId) : Obeys R (retry f) := by
  refine (obeys_unwindTo f 0).bind fun _ => ?_
  intro m
  simp only [eval_bind, eval_get, eval_ite]
  split
  · exact .ok (Lenient.restChange rfl rfl fun _ => rfl)
  · exact .ok (Lenient.refl m)

theorem obeys_maybeRetry : Obeys R maybeRetry := by
  refine .bind .get fun m => ?_
  split
  · exact (obeys_retry _).bind fun _ => .pure _
  · exact .pure _

theorem obeys_maybeRetryN : Obeys R maybeRetryN := by
  refine .bind .get fun m => ?_
  split
  · exact .pure _
  next f _ =>
  have hrest : ∀ retried : Bool, Obeys R (if retried = true then return () else do
      popTo ((← get).frame f).position
      modify (fun m => { m with target := none, success := !m.success })) := fun retried =>
    .ite _ (.pure _) (.bind .get fun _ => (obeys_popTo _).bind fun _ =>
      .modify fun _ => Lenient.rest rfl rfl)
  split
  · exact .bind (.pure _) hrest
  · exact (obeys_retry f).bind hrest

theorem obeys_deallocate : Obeys R deallocate := by
  refine .bind .get fun m => ?_
  split
  · exact .ite _ (.pure _) (.bind (.modify fun _ => Lenient.rest rfl rfl) fun _ => obeys_pop)
  · exact .pure _

theorem obeys_maybeFail : Obeys R maybeFail := .bind .get fun _ => .ite _ (.pure _) obeys_failure

theorem obeys_endQuery : Obeys R endQuery :=
  .bind .get fun _ => .ite _ (.modify fun _ => Lenient.rest rfl rfl) obeys_failure

theorem obeys_proceed : Obeys R proceed :=
  .bind .get fun _ => .ite _ obeys_failure (.ite _ obeys_endQuery
    ((obeys_returnTo _).bind fun _ => .modify fun _ => Lenient.rest rfl rfl))

theorem obeys_cut : Obeys R cut := by
  have hcommit : Obeys R (changeCurrent
      (fun fr => { fr with committed := true, alternatives := [] })) :=
    obeys_changeCurrent fun _ => rfl
  refine .bind .get fun m => ?_
  simp only
  split
  · exact .bind (.modify fun _ => Lenient.changeFrame fun _ => rfl) fun _ => hcommit
  · exact .pure ()

/-! ## §5. Heads, goals and operands. -/

/-- Decoding a structure obeys. -/
theorem obeys_getStruct (i : Instruction) : Obeys R (getStruct i) := by
  have hstart : ∀ (mode : Mode) (s : StructId), Obeys R (modify (fun m : Machine =>
      { m with mode, decoding := some s, argument := 0, register := i.register })) :=
    fun _ _ => .modify fun _ => Lenient.rest rfl rfl
  refine .bind .get fun m => .ite _ (.stop nofun) ?_
  split
  · exact .stop nofun
  simp only
  split
  · exact .ite _ obeys_headFail (hstart _ _)
  · exact (obeys_newStruct _).bind fun _ => (obeys_bind _ _).bind fun _ => hstart _ _
  · exact .ite _ obeys_headFail ((obeys_newStruct _).bind fun _ => hstart _ _)
  · exact .stop nofun

theorem obeys_nextArg : Obeys R nextArg := by
  intro m
  simp only [nextArg, eval_bind, eval_get]
  split
  · exact .ok (Lenient.rest rfl rfl)
  · exact Obeys.stop (by simp) m

theorem obeys_writeArg (t : Value) : Obeys R (writeArg t) := by
  refine .bind .get fun m => ?_
  split
  · exact obeys_pushArg _ _
  · exact .stop nofun

theorem obeys_getValue (name : String) : Obeys R (getValue name) := by
  refine (obeys_lookup name).bind fun known => .bind .get fun m => ?_
  split
  · exact obeys_writeArg _
  · exact obeys_nextArg.bind fun _ => (obeys_unify _ _).bind fun _ =>
      .ite _ (.pure _) obeys_headFail

theorem obeys_unifVoid : Obeys R unifVoid := by
  refine .bind .get fun m => ?_
  split
  · exact (obeys_fresh _).bind fun _ => obeys_writeArg _
  · exact obeys_nextArg.bind fun _ => .pure _

/-- Comparing with a constant obeys. -/
theorem obeys_getConst (i : Instruction) : Obeys R (getConst i) := by
  unfold getConst
  split
  · exact .stop nofun
  refine .bind .get fun m => ?_
  split
  · exact obeys_writeArg _
  refine obeys_nextArg.bind fun t => (obeys_deref t).bind fun d => ?_
  split
  · exact obeys_bind _ _
  · exact .bind .get fun _ => .bind (.modify fun _ => Lenient.rest rfl rfl) fun _ =>
      .ite _ (.pure _) obeys_headFail

theorem obeys_putArg (t : Value) : Obeys R (putArg t) := by
  refine .bind .get fun m => ?_
  split
  · exact obeys_pushArg _ _
  · exact .stop nofun

theorem obeys_putValue (i : Instruction) : Obeys R (putValue i) := by
  refine .ite _ ((obeys_target _).bind fun f => .bind .get fun m => ?_)
    ((obeys_lookup _).bind fun _ => obeys_putArg _)
  split
  · exact obeys_putArg _
  · exact .stop fun _ => RunError.noConfusion

theorem obeys_putConst (i : Instruction) : Obeys R (putConst i) := by
  unfold putConst
  split
  · exact obeys_putArg _
  · exact .stop nofun

theorem obeys_scratch : Obeys R scratch := by
  refine obeys_current.bind fun fr => ?_
  split <;> exact .pure _

theorem obeys_push (t : Value) : Obeys R (push t) := by
  refine obeys_scratch.bind fun s => ?_
  split
  · exact obeys_pushArg _ _
  · exact .stop nofun

theorem obeys_pushValue (name : String) : Obeys R (pushValue name) := by
  refine (obeys_lookup name).bind fun t => ?_
  split
  · refine obeys_scratch.bind fun s => ?_
    split <;> exact .stop nofun
  · exact obeys_push _

theorem obeys_pushConst (c : Option Constant) : Obeys R (pushConst c) := by
  unfold pushConst
  split <;> exact obeys_push _

/-- Taking the operands obeys. -/
theorem obeys_operands : Obeys R operands := by
  refine obeys_scratch.bind fun s => ?_
  split
  · exact .stop nofun
  refine .bind .get fun m => ?_
  split
  · exact .pure _
  · exact .stop nofun

/-- No objection to an operand is the step limit. -/
theorem operand_ne {h : Heap} {t : Value} {e : RunError} (he : h.operand t = .error e) (k : Int) :
    e ≠ .stepLimit k := by
  rintro rfl
  unfold Heap.operand at he
  split at he
  · split at he <;> cases he
  · cases he
  · cases he

theorem obeys_number (t : Value) : Obeys R (number t) := by
  refine .bind .get fun m => ?_
  split
  · exact .pure _
  · next he => exact .stop (operand_ne he)

theorem obeys_conclude (ok : Bool) : Obeys R (conclude ok) :=
  .bind (.modify fun _ => Lenient.rest rfl rfl) fun _ => .ite _ (.pure _) obeys_failure

theorem obeys_assign : Obeys R assign := by
  refine obeys_operands.bind fun p => (obeys_deref _).bind fun d => ?_
  split
  · exact (obeys_number _).bind fun _ => (obeys_newNumber _).bind fun _ =>
      (obeys_bind _ _).bind fun _ => obeys_conclude _
  · exact .bind .get fun _ => .stop nofun

theorem obeys_compare (i : Instruction) (c : CompareOp) :
    Obeys R (applyOperator i (.compare c)) :=
  obeys_operands.bind fun _ => (obeys_number _).bind fun _ => (obeys_number _).bind fun _ =>
    obeys_conclude _

end Exec

/-! ## §6. Instructions. -/

/-- Instructions that set a variable or register whether or not it has a value. -/
def Opcode.overwrites : Opcode → Bool
  | .getVar | .unifVar | .putStruct | .putVar | .call | .bcall | .prepare | .pushVar => true
  | .plus | .minus | .mult | .div | .intDiv | .mod => true
  | _ => false

namespace Exec

/-- **All other instructions stay within every lenient relation.** -/
theorem obeys_execute [Lenient R] {i : Instruction} (hi : i.op.overwrites = false) :
    Obeys R (execute w i) := by
  -- The instructions left over at the end are those that write variables, which the hypothesis excludes.
  cases hop : i.op <;> simp only [execute, hop]
  case getStruct => exact obeys_getStruct i
  case getValue | unifValue => exact obeys_getValue _
  case unifVoid => exact obeys_unifVoid
  case getTerm | getNumber | getNil | unifyTerm | unifyNumber | unifyNil => exact obeys_getConst i
  case putVoid => exact (obeys_fresh _).bind fun _ => obeys_putArg _
  case putValue => exact obeys_putValue i
  case putTerm | putNumber | putNil => exact obeys_putConst i
  case allocate => exact obeys_allocate
  case setup => exact obeys_setup
  case maybeRetry => exact obeys_maybeRetry
  case maybeRetryN => exact obeys_maybeRetryN
  case deallocate => exact obeys_deallocate
  case maybeFail => exact obeys_maybeFail
  case tryElse => exact .bind .get fun _ => obeys_changeCurrent fun _ => rfl
  case tryFinally => exact .bind .get fun _ => obeys_changeCurrent fun _ => rfl
  case jump => exact obeys_jump _
  case proceed => exact obeys_proceed
  case cut => exact obeys_cut
  case fail => exact obeys_failure
  case end_ => exact obeys_endQuery
  case pushValue => exact obeys_pushValue _
  case pushTerm | pushNumber => exact obeys_pushConst _
  case is => exact obeys_assign
  case lt | gt | le | ge | eq | ne => exact obeys_compare i _
  case invalid | unknown => exact .stop nofun
  all_goals
    rw [hop] at hi
    cases hi

/-! ## §7. The ledger. -/

/-- What an action left: the ledger, and no error that a step limit is used up. -/
structure Kept (m : Machine) (r : Except Error α × Machine) : Prop where
  /-- The ledger is what it was. -/
  ledger : r.2.ledger = m.ledger
  /-- No error is one of a step limit. -/
  error : ∀ k, r.1 ≠ .error (.running (.stepLimit k))

/-- The action leaves the ledger alone and reports no step limit, also where it stops with an
    error. -/
def Keeps (x : Exec α) : Prop := ∀ m, Kept m (eval x m)

/-- What keeps the ledger keeps the machine's record of the question. -/
theorem Obeys.keeps {x : Exec α} (h : x.Obeys SameLedger) : x.Keeps :=
  fun m => ⟨(h m).change, (h m).error⟩

theorem keeps_failure : Keeps failure := obeys_failure.keeps

/-- A change of a frame is none of the ledger. -/
theorem sameLedger_changeCurrent (g : Frame → Frame) : Obeys SameLedger (changeCurrent g) :=
  fun _ => .ok rfl

/-- Reading an argument into a variable keeps the ledger. -/
theorem sameLedger_getVar (name : String) : Obeys SameLedger (getVar name) := by
  refine .bind .get fun m => ?_
  split
  · exact (obeys_fresh _).bind fun _ => (sameLedger_changeCurrent _).bind fun _ => obeys_writeArg _
  · exact obeys_nextArg.bind fun _ => sameLedger_changeCurrent _

theorem sameLedger_call (op : Opcode) : Obeys SameLedger (call w op) := by
  refine (obeys_target op).bind fun f => ?_
  intro m
  simp only [eval_bind, eval_get]
  split
  · simp only [eval_bind, eval_set]
    split
    · split
      · exact (obeys_returnTo f _).trans rfl
      · exact (Obeys.throw (by simp) _).trans rfl
    · simp only [eval_bind, eval_modify, eval_get]
      split
      · exact (Obeys.stop (by simp) _).trans rfl
      · split
        · exact (obeys_callNative f _ _ _).trans rfl
        · exact .ok rfl
  · exact Obeys.stop (by simp) m

theorem sameLedger_compute (i : Instruction) (o : ArithOp) :
    Obeys SameLedger (applyOperator i (.value o)) := by
  refine obeys_operands.bind fun p => (obeys_number _).bind fun a => (obeys_number _).bind fun b => ?_
  simp only
  split
  · exact .stop nofun
  · exact .ite _ (.stop nofun) ((obeys_newNumber _).bind fun _ =>
      (sameLedger_changeCurrent _).bind fun _ => obeys_conclude _)

/-- **No instruction takes a question back.** -/
theorem keeps_execute (i : Instruction) : Keeps (execute w i) := by
  cases hi : i.op.overwrites with
  | false => exact (obeys_execute hi).keeps
  | true =>
    refine Obeys.keeps ?_
    cases hop : i.op <;> simp only [execute, hop]
    case getVar | unifVar => exact sameLedger_getVar _
    case putStruct =>
      exact (obeys_target _).bind fun _ => (obeys_newStruct _).bind fun _ => .modify fun _ => rfl
    case putVar =>
      exact (obeys_fresh _).bind fun _ => (sameLedger_changeCurrent _).bind fun _ => obeys_putArg _
    case call | bcall => exact sameLedger_call _
    case prepare => exact (obeys_newStruct _).bind fun _ => sameLedger_changeCurrent _
    case pushVar =>
      exact (obeys_fresh _).bind fun _ => (sameLedger_changeCurrent _).bind fun _ => obeys_push _
    case plus | minus | mult | div | intDiv | mod => exact sameLedger_compute i _
    all_goals
      rw [hop] at hi
      cases hi

end Exec

/-! ## §8. Steps. -/

namespace Machine

variable {w : World} {m : Machine}

/-- An error leaves the question as it was. -/
theorem asked_fault (e : Error) : (m.fault e).asked = m.asked := by
  unfold fault
  split <;> rfl

/-- It leaves the count of steps as it was. -/
theorem steps_fault (e : Error) : (m.fault e).steps = m.steps := by
  unfold fault
  split <;> rfl

/-- The first error is kept. -/
theorem error_fault (hm : m.error = none) (e : Error) : (m.fault e).error = some e := by
  simp only [fault, hm]

/-- What is left of an action that keeps the ledger. -/
structure Undisturbed (m m' : Machine) : Prop where
  /-- No question is taken back. -/
  asked : m'.asked = m.asked
  /-- No step is counted. -/
  steps : m'.steps = m.steps
  /-- No step limit is reported. -/
  error : m.error = none → ∀ k, m'.error ≠ some (.running (.stepLimit k))

/-- An action that keeps the ledger leaves it undisturbed as a step. -/
theorem undisturbed {x : Exec Unit} (hx : x.Keeps) : m.Undisturbed (m.perform x) := by
  have hxm := hx m
  rw [Exec.perform_eq]
  rcases heval : Exec.eval x m with ⟨e | a, m'⟩ <;> rw [heval] at hxm
  all_goals
    obtain ⟨hasked, hsteps, herror⟩ : m'.asked = m.asked ∧ m'.steps = m.steps ∧
        m'.error = m.error := by simpa [ledger] using hxm.ledger
  · refine ⟨(asked_fault e).trans hasked, (steps_fault e).trans hsteps, fun hm k h => ?_⟩
    rw [error_fault (herror.trans hm)] at h
    exact hxm.error k (congrArg Except.error (Option.some.inj h))
  · exact ⟨hasked, hsteps, fun hm k h => by rw [herror, hm] at h; cases h⟩

/-- No step changes the question. -/
theorem asked_advance : (m.advance w).asked = m.asked := by
  unfold advance
  split
  · exact asked_fault _
  · simp only [count]
    split
    · next h =>
      split at h
      · cases h
        exact asked_fault _
      · cases h
    · next h =>
      split at h
      · cases h
      · cases h
        exact (undisturbed (Exec.keeps_execute _)).asked

/-- A step leaves a question asked. -/
theorem asked_step : (m.step w).2.asked = m.asked := by
  unfold step
  split
  · rfl
  split
  · rfl
  split
  · rfl
  · exact asked_advance

/-- So does asking for the next answer. -/
theorem asked_redo : m.redo.2.asked = m.asked := by
  unfold redo
  split
  · rfl
  · exact (undisturbed Exec.keeps_failure).asked

end Machine

end PrologMachine
