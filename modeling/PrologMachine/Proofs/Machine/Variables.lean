/-
  PrologMachine.Proofs.Machine.Variables ── **WHO SETS A VARIABLE.**

  A variable of a clause is an entry in the frame of its call.  Few instructions set one that has a
  value already: those of a first occurrence, those that leave a result in a register, and those that
  build and make the call of the frame itself.  All others leave what is there, also where they fail,
  backtrack or stop with an error.

    * `Instruction.Sets`: what an instruction sets in the frame of its clause.
    * `Machine.value_kept`: what one step leaves.
    * `Machine.Proceeds.value_kept`: what a run leaves in which the clause of the frame runs certain
      instructions only.
    * `Machine.value_made`: after an instruction that names a variable the variable has a value.
-/
import PrologMachine.Proofs.Machine.Bookkeeping
import PrologMachine.Proofs.Machine.Safety

namespace PrologMachine

/-! ## §1. Instructions. -/

/-- The opcode of a first occurrence. -/
def Opcode.introduces : Opcode → Bool
  | .getVar | .unifVar | .putVar | .pushVar => true
  | _ => false

/-- The opcode of an occurrence. -/
def Opcode.takesName : Opcode → Bool
  | .getValue | .unifValue | .putValue | .pushValue => true
  | op => op.introduces

/-- The opcode of an operator with a value. -/
def Opcode.computes : Opcode → Bool
  | .plus | .minus | .mult | .div | .intDiv | .mod => true
  | _ => false

namespace Instruction

variable {x : String} {i : Instruction}

/-- The instruction is an occurrence of the variable. -/
def Names (x : String) (i : Instruction) : Prop := i.op.takesName = true ∧ i.name = x

/-- The instruction is a first occurrence of the variable. -/
def Introduces (x : String) (i : Instruction) : Prop := i.op.introduces = true ∧ i.name = x

/-- The instruction sets the variable or register in the frame of its clause, whatever is there. -/
def Sets (x : String) (i : Instruction) : Prop :=
  i.Introduces x ∨ i.op.computes = true ∧ i.result = x ∨ i.op = .prepare ∧ scratchRegister = x

/-- The instruction builds or makes a call, in the frame under construction. -/
def SetsTarget (i : Instruction) : Prop := i.op = .putStruct ∨ i.calls

instance (x : String) (i : Instruction) : Decidable (i.Names x) :=
  inferInstanceAs (Decidable (_ ∧ _))

instance (x : String) (i : Instruction) : Decidable (i.Introduces x) :=
  inferInstanceAs (Decidable (_ ∧ _))

/-- What an instruction introduces it names. -/
theorem Introduces.names (h : i.Introduces x) : i.Names x := by
  obtain ⟨hop, hname⟩ := h
  refine ⟨?_, hname⟩
  cases hi : i.op <;> simp_all [Opcode.introduces, Opcode.takesName]

end Instruction

namespace Machine

/-- The machine is about to build or to make the call that the frame is for. -/
def CallsFor (f : FrameId) (m : Machine) : Prop :=
  m.target = some f ∧ ∃ i, m.fetch = .ok i ∧ i.SetsTarget

/-- All variables that have a value in a frame keep it. -/
def Retained (m m' : Machine) : Prop :=
  ∀ f x t, (m.frame f).get? x = some t → (m'.frame f).get? x = some t

variable {w : World} {m m' m'' : Machine} {f g : FrameId} {x name : String} {t u : Value}
  {i : Instruction}

/-- The same frames have the same variables. -/
theorem Retained.of_frames (h : m'.frames = m.frames) : Retained m m' := by
  intro f x t hx
  rwa [frame, h]

/-- A frame with a value is one of the table. -/
theorem lt_size_of_get? (h : (m.frame f).get? x = some t) : f < m.frames.size := by
  by_contra hlt
  rw [frame, Array.getElem?_eq_none (Nat.le_of_not_lt hlt)] at h
  cases h

/-- Setting a variable in the frame of the running clause leaves all others. -/
theorem get?_put_current (h : (m.frame f).get? x = some t) (hne : m.current = f → name ≠ x) :
    ((m.changeFrame m.current (·.put name u)).frame f).get? x = some t := by
  by_cases hf : f = m.current
  · subst hf
    rw [frame_changeFrame_self (lt_size_of_get? h), Frame.get?_put_of_ne (hne rfl).symm]
    exact h
  · rwa [frame_changeFrame_of_ne hf]

instance : Lenient Retained where
  refl _ := fun _ _ _ h => h
  trans h h' := fun f x t hx => h' f x t (h f x t hx)
  rest hframes _ := .of_frames hframes
  changeFrame {m f g} hg := by
    intro f' x t hx
    rw [← hx]
    exact frame_changeFrame_field (Frame.get? · x) fun fr => congrArg (List.lookup x) (hg fr)
  put {m name t} hname := by
    intro f x t' hx
    refine get?_put_current hx fun hf hx' => ?_
    subst hf hx'
    rw [hname] at hx
    cases hx
  push {m fr} := by
    intro f x t hx
    have hlt := lt_size_of_get? hx
    rw [← hx, frame, frame, Array.getElem?_push_lt hlt, Array.getElem?_eq_getElem hlt]

end Machine

open Machine (Lenient Retained)

namespace Exec

variable {w : World} {m : Machine} {f : FrameId} {x name : String} {t : Value} {i : Instruction}

/-! ## §2. Instructions that set something. -/

/-- The value that a frame has for a variable after an action. -/
def After (action : Exec Unit) (m : Machine) (f : FrameId) (x : String) : Option Value :=
  ((eval action m).2.frame f).get? x

/-- What an action within the relation leaves. -/
theorem Obeys.after {action : Exec Unit} (h : action.Obeys Retained)
    (hx : (m.frame f).get? x = some t) : After action m f x = some t :=
  (h m).change f x t hx

/-- The next argument is read, or there is none. -/
theorem eval_nextArg_cases (m : Machine) : (∃ e, eval nextArg m = (.error e, m)) ∨
    ∃ t, eval nextArg m = (.ok t, { m with argument := m.argument + 1 }) := by
  simp only [nextArg, eval_bind, eval_get]
  split
  · next t _ => exact .inr ⟨t, rfl⟩
  · exact .inl ⟨_, rfl⟩

/-- A new cell for a variable of the running clause, and what is done with it. -/
theorem introduce_after {k : Value → Exec Unit} (hk : ∀ v, Obeys Retained (k v))
    (hx : (m.frame f).get? x = some t) (hname : m.current = f → name ≠ x) :
    After (do let v ← fresh name; changeCurrent (·.put name v); k v) m f x = some t := by
  have hput := Machine.get?_put_current (m := { m with heap := (m.heap.fresh name).2 })
    (u := .var m.heap.vars.size) hx hname
  have hafter := (hk (.var m.heap.vars.size)).after hput
  unfold After at hafter ⊢
  simpa only [eval_bind, eval_fresh, eval_changeCurrent] using hafter

/-- `getVar` makes a cell, or takes the next argument. -/
theorem eval_getVar_cases (name : String) (m : Machine) :
    eval (getVar name) m =
        eval (do let v ← fresh name; changeCurrent (·.put name v); writeArg v) m ∨
      eval (getVar name) m = eval (do let t ← nextArg; changeCurrent (·.put name t)) m := by
  cases hmode : m.mode with
  | write => exact .inl (by simp only [getVar, eval_bind, eval_get, hmode])
  | read => exact .inr (by simp only [getVar, eval_bind, eval_get, hmode])

/-- Naming another variable leaves this one alone. -/
theorem getVar_after (hx : (m.frame f).get? x = some t) (hname : m.current = f → name ≠ x) :
    After (getVar name) m f x = some t := by
  unfold After
  obtain h | h := eval_getVar_cases name m <;> rw [h]
  · exact introduce_after (fun v => obeys_writeArg v) hx hname
  · rw [eval_bind]
    rcases eval_nextArg_cases m with ⟨e, h⟩ | ⟨u, h⟩ <;> rw [h]
    · exact hx
    · exact Machine.get?_put_current (m := { m with argument := m.argument + 1 }) hx hname

theorem prepare_after (hx : (m.frame f).get? x = some t)
    (hname : m.current = f → scratchRegister ≠ x) : After prepare m f x = some t :=
  Machine.get?_put_current (m := { m with heap := (m.heap.newStruct scratchRegister [] .none).2 })
    hx hname

/-- Operands are only read. -/
theorem scratch_machine (m : Machine) : (eval scratch m).2 = m := by
  simp only [scratch, eval_bind, eval_current]
  split <;> rfl

/-- Finding the operands changes nothing. -/
theorem operands_machine (m : Machine) : (eval operands m).2 = m := by
  have hscratch := scratch_machine m
  unfold operands
  rw [eval_bind]
  rcases heval : eval scratch m with ⟨e | s, m'⟩ <;> rw [heval] at hscratch <;>
    obtain rfl : m' = m := hscratch
  · rfl
  · cases s with
    | none => rfl
    | some s =>
      simp only [eval_bind, eval_get]
      split <;> rfl

theorem number_machine (t : Value) (m : Machine) : (eval (number t) m).2 = m := by
  simp only [number, eval_bind, eval_get]
  split <;> rfl

/-- An action that only reads in front of others. -/
theorem after_bind {α : Type} {action : Exec α} {k : α → Exec Unit}
    (hread : (eval action m).2 = m) (hx : (m.frame f).get? x = some t)
    (hk : ∀ a, After (k a) m f x = some t) : After (action >>= k) m f x = some t := by
  unfold After
  rw [eval_bind]
  rcases heval : eval action m with ⟨e | a, m'⟩ <;> rw [heval] at hread <;>
    obtain rfl : m' = m := hread
  · exact hx
  · exact hk a

/-- Computing a value sets the variable of its result. -/
theorem compute_after {o : ArithOp} (hx : (m.frame f).get? x = some t)
    (hname : m.current = f → i.result ≠ x) :
    After (applyOperator i (.value o)) m f x = some t := by
  unfold applyOperator
  refine after_bind (operands_machine m) hx fun p => ?_
  refine after_bind (number_machine _ m) hx fun a => after_bind (number_machine _ m) hx fun b => ?_
  simp only
  split
  · exact hx
  next y _ =>
  unfold After
  simp only [eval_ite, eval_bind, eval_newNumber, eval_changeCurrent]
  split
  · exact hx
  · have hput := Machine.get?_put_current (m := { m with heap := (m.heap.newConst (.number y)).2 })
      (u := .const ⟨.number y, .heap m.heap.constants⟩) hx hname
    exact (obeys_conclude _).after hput

/-- The target is found, or there is none. -/
theorem target_cases (op : Opcode) (m : Machine) : (∃ e, eval (target op) m = (.error e, m)) ∨
    ∃ g, m.target = some g ∧ eval (target op) m = (.ok g, m) := by
  simp only [target, eval_bind, eval_get]
  cases m.target with
  | none => exact .inl ⟨_, rfl⟩
  | some g => exact .inr ⟨g, rfl, rfl⟩

/-- A structure is built in the frame under construction. -/
theorem putStruct_after (hx : (m.frame f).get? x = some t) (htarget : m.target ≠ some f) :
    After (putStruct i) m f x = some t := by
  unfold After putStruct
  rw [eval_bind]
  rcases target_cases i.op m with ⟨e, h⟩ | ⟨g, hg, h⟩ <;> rw [h]
  · exact hx
  · have hne : f ≠ g := by
      rintro rfl
      exact htarget hg
    simp only [eval_bind, eval_newStruct, eval_modify]
    rw [Machine.frame_changeFrame_of_ne hne]
    exact hx

/-- A call empties the frame that it is made for, and no other. -/
theorem call_after {op : Opcode} (hx : (m.frame f).get? x = some t) (htarget : m.target ≠ some f) :
    After (call w op) m f x = some t := by
  unfold After call
  rw [eval_bind]
  rcases target_cases op m with ⟨e, h⟩ | ⟨g, hg, h⟩ <;> rw [h]
  · exact hx
  have hne : f ≠ g := by
    rintro rfl
    exact htarget hg
  simp only [eval_bind, eval_get]
  split
  · next s _ =>
    simp only [eval_bind, eval_set]
    have hmade : ((m.changeFrame g fun fr =>
        { fr with vars := [("$x0", ((m.frame g).get? "$x0").getD .absent)], alternatives := []
                  cutTo := none }).frame f).get? x = some t := by
      rwa [Machine.frame_changeFrame_of_ne hne]
    -- What follows enters a clause or answers at once.
    refine Obeys.after ?_ hmade
    split
    · exact .ite _ (.bind (.modify fun _ => Lenient.restChange rfl rfl fun _ => rfl) fun _ =>
        obeys_returnTo g) (.throw nofun)
    · refine .bind (.modify fun _ => Lenient.changeFrame fun _ => rfl) fun _ => .bind .get fun _ => ?_
      split
      · exact .stop nofun
      · exact .ite _ (obeys_callNative g _ _) (.modify fun _ => Lenient.rest rfl rfl)
  · exact hx

/-- **What an instruction leaves.**  A variable with a value keeps it unless the instruction sets it in
    the frame of its clause, or builds or makes the call of the frame. -/
theorem execute_after (hx : (m.frame f).get? x = some t)
    (hcalls : m.target = some f → ¬ i.SetsTarget) (hsets : m.current = f → ¬ i.Sets x) :
    After (execute w i) m f x = some t := by
  cases hi : i.op.overwrites with
  | false => exact (obeys_execute hi).after hx
  | true =>
    have hnew : i.op.introduces = true → m.current = f → i.name ≠ x :=
      fun hop hf hname => hsets hf (.inl ⟨hop, hname⟩)
    have hresult : i.op.computes = true → m.current = f → i.result ≠ x :=
      fun hop hf hname => hsets hf (.inr (.inl ⟨hop, hname⟩))
    have htarget : i.SetsTarget → m.target ≠ some f := fun hop hf => hcalls hf hop
    cases hop : i.op <;> rw [hop] at hi hnew hresult <;> simp only [execute, hop]
    case getVar | unifVar => exact getVar_after hx (hnew rfl)
    case putVar => exact introduce_after (fun v => obeys_putArg v) hx (hnew rfl)
    case pushVar => exact introduce_after (fun v => obeys_push v) hx (hnew rfl)
    case putStruct => exact putStruct_after hx (htarget (.inl hop))
    case call => exact call_after hx (htarget (.inr (.inl hop)))
    case bcall => exact call_after hx (htarget (.inr (.inr hop)))
    case prepare => exact prepare_after hx fun hf hname => hsets hf (.inr (.inr ⟨hop, hname⟩))
    case plus | minus | mult | div | intDiv | mod => exact compute_after hx (hresult rfl)
    all_goals cases hi

end Exec

namespace Machine

variable {w : World} {m m' : Machine} {f : FrameId} {x : String} {t : Value} {i : Instruction}
  {is : List Instruction}

/-! ## §3. Steps. -/

/-- An error changes no frame. -/
theorem frame_fault (e : Error) : (m.fault e).frame f = m.frame f := by
  unfold fault
  split <;> rfl

/-- An error leaves the frames. -/
theorem frame_perform (action : Exec Unit) :
    ((m.perform action).frame f).get? x = Exec.After action m f x := by
  rw [Exec.perform_eq, Exec.After]
  rcases Exec.eval action m with ⟨e | ⟨⟩, m'⟩
  · exact congrArg (Frame.get? · x) (frame_fault e)
  · rfl

/-- **What a step leaves.** -/
theorem value_kept (hx : (m.frame f).get? x = some t) (hcalling : ¬ m.CallsFor f)
    (hsets : m.current = f → ∀ i, m.fetch = .ok i → ¬ i.Sets x) :
    ((m.advance w).frame f).get? x = some t := by
  cases hi : m.fetch with
  | error e =>
    simp only [advance, hi, frame_fault]
    exact hx
  | ok i =>
    rw [advance_eq hi]
    split
    · rw [frame_fault]
      exact hx
    · rw [frame_perform]
      exact Exec.execute_after (m := m.counted w i) hx
        (fun hf hop => hcalling ⟨hf, i, hi, hop⟩) fun hf => hsets hf i hi

/-- Asking for the next answer sets no variable. -/
theorem value_kept_redo (hx : (m.frame f).get? x = some t) : (m.redo.2.frame f).get? x = some t := by
  unfold redo
  split
  · exact hx
  · simp only [frame_perform]
    exact Exec.obeys_failure.after hx

/-- A run in which the clause of a frame runs certain instructions, one after the other, and no call is
    made for the frame; what other clauses do between them is open. -/
inductive Proceeds (w : World) (f : FrameId) : List Instruction → Machine → Machine → Prop where
  /-- No step. -/
  | done (m : Machine) : Proceeds w f [] m m
  /-- An instruction of the clause. -/
  | own {m m' : Machine} {i : Instruction} {is : List Instruction} (hf : m.current = f)
      (hi : m.fetch = .ok i) (hcalling : ¬ m.CallsFor f) (h : Proceeds w f is (m.advance w) m') :
      Proceeds w f (i :: is) m m'
  /-- A step of another clause. -/
  | other {m m' : Machine} {is : List Instruction} (hf : m.current ≠ f) (hcalling : ¬ m.CallsFor f)
      (h : Proceeds w f is (m.advance w) m') : Proceeds w f is m m'
  /-- The next answer is asked for. -/
  | redo {m m' : Machine} {is : List Instruction} (h : Proceeds w f is m.redo.2 m') :
      Proceeds w f is m m'

/-- **What a run leaves**: a variable keeps its value as long as its clause runs no instruction that
    sets it. -/
theorem Proceeds.value_kept (h : Proceeds w f is m m') (his : ∀ i ∈ is, ¬ i.Sets x)
    (hx : (m.frame f).get? x = some t) : (m'.frame f).get? x = some t := by
  induction h with
  | done => exact hx
  | own hf hi hcalling _ ih =>
    refine ih (fun i h => his i (List.mem_cons_of_mem _ h)) (Machine.value_kept hx hcalling ?_)
    intro _ i hi'
    obtain rfl := Except.ok.inj (hi.symm.trans hi')
    exact his _ List.mem_cons_self
  | other hf hcalling _ ih => exact ih his (Machine.value_kept hx hcalling fun h => (hf h).elim)
  | redo _ ih => exact ih his (value_kept_redo hx)

end Machine

namespace Exec

variable {w : World} {m : Machine} {x name : String} {u : Value} {i : Instruction}

/-! ## §4. Occurrences. -/

/-- A variable that is set is found. -/
theorem get?_put_self (hf : m.current < m.frames.size) :
    ((m.changeFrame m.current (·.put x u)).frame m.current).get? x = some u := by
  rw [Machine.frame_changeFrame_self hf, Frame.get?_put_self]

/-- A variable that was looked up has a value, and is found again. -/
theorem valueOf_found (hf : m.current < m.frames.size) :
    (m.valueOf x).2.current = m.current ∧
      ((m.valueOf x).2.frame m.current).get? x = some (m.valueOf x).1 := by
  unfold Machine.valueOf
  split
  · next hx => exact ⟨rfl, hx⟩
  · exact ⟨rfl, get?_put_self (m := { m with heap := (m.heap.fresh x).2 }) hf⟩

/-- An action that starts by looking a variable up does what it does where the variable was made
    before. -/
theorem lookup_makes {k : Value → Exec Unit} (h : Obeys Retained (lookup x >>= k))
    (hf : m.current < m.frames.size) : ∃ t, After (lookup x >>= k) m m.current x = some t := by
  obtain ⟨hcurrent, hx⟩ := valueOf_found (x := x) hf
  have hagain : (m.valueOf x).2.valueOf x = m.valueOf x := by
    rw [Machine.valueOf, hcurrent, hx]
  have hafter := h.after hx
  refine ⟨(m.valueOf x).1, ?_⟩
  unfold After at hafter ⊢
  rw [eval_bind, eval_lookup] at hafter ⊢
  rwa [hagain] at hafter

/-- A new cell is the value of its variable. -/
theorem introduce_makes {k : Value → Exec Unit} (hk : ∀ v, Obeys Retained (k v))
    (hf : m.current < m.frames.size) :
    ∃ t, After (do let v ← fresh x; changeCurrent (·.put x v); k v) m m.current x = some t := by
  have hput := get?_put_self (x := x) (u := .var m.heap.vars.size)
    (m := { m with heap := (m.heap.fresh x).2 }) hf
  have hafter := (hk (.var m.heap.vars.size)).after hput
  refine ⟨.var m.heap.vars.size, ?_⟩
  unfold After at hafter ⊢
  simpa only [eval_bind, eval_fresh, eval_changeCurrent] using hafter

/-- The variable has a cell after the instruction that introduces it. -/
theorem getVar_makes (hf : m.current < m.frames.size) (hok : (eval (getVar x) m).1 = .ok ()) :
    ∃ t, After (getVar x) m m.current x = some t := by
  unfold After
  obtain h | h := eval_getVar_cases x m <;> rw [h] at hok ⊢
  · exact introduce_makes (fun v => obeys_writeArg v) hf
  · rw [eval_bind] at hok ⊢
    rcases eval_nextArg_cases m with ⟨e, h⟩ | ⟨u, h⟩ <;> rw [h] at hok ⊢
    · cases hok
    · exact ⟨u, get?_put_self (m := { m with argument := m.argument + 1 }) hf⟩

/-- **After an occurrence the variable has a value.** -/
theorem execute_makes (hnames : i.Names x) (hx : isRegister x = false)
    (hf : m.current < m.frames.size) (hok : (eval (execute w i) m).1 = .ok ()) :
    ∃ t, After (execute w i) m m.current x = some t := by
  obtain ⟨htakes, rfl⟩ := hnames
  cases hop : i.op <;> rw [hop] at htakes <;> simp only [execute, hop] at hok ⊢
  case getVar | unifVar => exact getVar_makes hf hok
  case getValue | unifValue => exact lookup_makes (obeys_getValue _) hf
  case putVar => exact introduce_makes (fun v => obeys_putArg v) hf
  case putValue =>
    rw [putValue, if_neg (by simp [isStructRegister_of_not_isRegister hx])] at hok ⊢
    exact lookup_makes ((obeys_lookup _).bind fun _ => obeys_putArg _) hf
  case pushVar => exact introduce_makes (fun v => obeys_push v) hf
  case pushValue => exact lookup_makes (obeys_pushValue _) hf
  all_goals cases htakes

end Exec

namespace Machine

variable {w : World} {m : Machine} {x : String} {i : Instruction}

/-- A machine with a fault has an error. -/
theorem error_fault_ne (e : Error) : (m.fault e).error ≠ none := by
  unfold fault
  split
  · next h => simp [h]
  · simp

/-- Without an error the action has succeeded. -/
theorem ok_of_perform {action : Exec Unit} (h : (m.perform action).error = none) :
    (Exec.eval action m).1 = .ok () := by
  rw [Exec.perform_eq] at h
  rcases heval : Exec.eval action m with ⟨e | ⟨⟩, m'⟩
  · rw [heval] at h
    exact (error_fault_ne e h).elim
  · rfl

/-- A step that reports no error after an occurrence leaves a value. -/
theorem value_made (hi : m.fetch = .ok i) (hnames : i.Names x) (hx : isRegister x = false)
    (hf : m.current < m.frames.size) (herror : (m.advance w).error = none) :
    ∃ t, ((m.advance w).frame m.current).get? x = some t := by
  rw [advance_eq hi] at herror ⊢
  by_cases hlimit : 0 < w.maxSteps ∧ w.maxSteps < (m.steps + 1 : Nat)
  · rw [if_pos hlimit] at herror
    exact (error_fault_ne _ herror).elim
  · rw [if_neg hlimit] at herror ⊢
    rw [frame_perform]
    exact Exec.execute_makes (m := m.counted w i) hnames hx hf (ok_of_perform herror)

end Machine

end PrologMachine
