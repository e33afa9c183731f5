/-
  PrologMachine.Proofs.Machine.Actions ── **WHAT THE ACTIONS OF THE MACHINE DO.**

  Every action of the machine is evaluated once, here: under the conditions in which compiled code
  runs it, its outcome is a machine given field by field.  Later proofs cite these equations and
  do not open the actions again.

    * `Exec.eval` runs an action on a machine; its equations for the connectives come first.
    * `Machine.valueOf` and `Machine.bindVar` are the two compound actions that recur.
-/
import PrologMachine.Machine.Run
import PrologMachine.Proofs.Heap.Change

namespace PrologMachine

namespace Exec

variable {α β : Type} {m m' : Machine} {f : FrameId} {i : Instruction} {s : StructId} {t : Value}
  {name : String}

/-! ## §1. Running an action. -/

/-- The outcome of an action on a machine, and the machine it leaves. -/
def eval (x : Exec α) (m : Machine) : Except Error α × Machine := x.run.run m

@[simp] theorem eval_pure (a : α) : eval (pure a) m = (.ok a, m) := rfl

@[simp] theorem eval_bind (x : Exec α) (k : α → Exec β) :
    eval (x >>= k) m = match eval x m with
      | (.ok a, m') => eval (k a) m'
      | (.error e, m') => (.error e, m') := by
  show (ExceptT.run (x >>= k)).run m = _
  simp only [ExceptT.run_bind, StateT.run_bind]
  rcases h : StateT.run (ExceptT.run x) m with ⟨_ | a, m'⟩ <;> simp [eval, h] <;> rfl

@[simp] theorem eval_map (x : Exec α) (k : α → β) :
    eval (k <$> x) m = match eval x m with
      | (.ok a, m') => (.ok (k a), m')
      | (.error e, m') => (.error e, m') := by
  rw [map_eq_pure_bind, eval_bind]
  rfl

@[simp] theorem eval_get : eval get m = (.ok m, m) := rfl

@[simp] theorem eval_set : eval (set m') m = (.ok (), m') := rfl

@[simp] theorem eval_modify (g : Machine → Machine) : eval (modify g) m = (.ok (), g m) := rfl

@[simp] theorem eval_throw (e : Error) : eval (throw e : Exec α) m = (.error e, m) := rfl

@[simp] theorem eval_stop (e : RunError) : eval (stop e : Exec α) m = (.error (.running e), m) :=
  rfl

@[simp] theorem eval_ite (c : Prop) [Decidable c] (x y : Exec α) :
    eval (if c then x else y) m = if c then eval x m else eval y m := by
  split <;> rfl

/-- An error stops the machine; otherwise the machine goes on as the action left it. -/
theorem perform_eq (x : Exec Unit) : m.perform x = match eval x m with
    | (.ok (), m') => m'
    | (.error e, m') => m'.fault e := rfl

/-! ## §2. Cells and variables. -/

@[simp] theorem eval_current : eval current m = (.ok (m.frame m.current), m) := rfl

@[simp] theorem eval_changeCurrent (g : Frame → Frame) :
    eval (changeCurrent g) m = (.ok (), m.changeFrame m.current g) := rfl

@[simp] theorem eval_fresh : eval (fresh name) m =
    (.ok (.var m.heap.vars.size), { m with heap := (m.heap.fresh name).2 }) := rfl

@[simp] theorem eval_newStruct : eval (newStruct name) m =
    (.ok m.heap.structs.size, { m with heap := (m.heap.newStruct name [] .none).2 }) := rfl

@[simp] theorem eval_newNumber (x : Float) : eval (newNumber x) m =
    (.ok (.const ⟨.number x, .heap m.heap.constants⟩),
      { m with heap := (m.heap.newConst (.number x)).2 }) := rfl

@[simp] theorem eval_pushArg : eval (pushArg s t) m =
    (.ok (), { m with heap := m.heap.pushArg s t }) := rfl

@[simp] theorem eval_deref : eval (deref t) m = (.ok (m.heap.deref t), m) := rfl

@[simp] theorem eval_unify (a b : Value) :
    eval (unify a b) m = (.ok (m.unify a b).1, (m.unify a b).2) := rfl

end Exec

namespace Machine

/-- The value of a variable of the running clause, which is made on first use, and the machine
    that then has it. -/
def valueOf (m : Machine) (name : String) : Value × Machine :=
  match (m.frame m.current).get? name with
  | some t => (t, m)
  | none =>
    (.var m.heap.vars.size,
      { m with heap := (m.heap.fresh name).2 }.changeFrame m.current
        (·.put name (.var m.heap.vars.size)))

/-- The machine with a variable bound and recorded. -/
def bindVar (m : Machine) (v : VarId) (t : Value) : Machine :=
  { (m.trail v) with heap := m.heap.set v t }

end Machine

namespace Exec

variable {m m' : Machine} {f : FrameId} {i : Instruction} {s : StructId} {t : Value}
  {name : String} {c : Constant} {v : VarId}

@[simp] theorem eval_lookup :
    eval (lookup name) m = (.ok (m.valueOf name).1, (m.valueOf name).2) := by
  cases h : (m.frame m.current).get? name <;> simp [lookup, Machine.valueOf, h]

/-- Binding an unbound variable records it. -/
theorem eval_bind_free (hv : m.heap.binding? v = none) (ht : t ≠ .absent) (hne : t ≠ .var v) :
    eval (bind v t) m = (.ok (), m.bindVar v t) := by
  have hheap : (m.trail v).heap = m.heap := by
    simp only [Machine.trail]; split <;> rfl
  have hfault : m.heap.bindFault? v t = none := by
    cases t with
    | var w => simpa [Heap.bindFault?, hv] using hne
    | absent => exact absurd rfl ht
    | const c => simp [Heap.bindFault?, hv]
    | struct s => simp [Heap.bindFault?, hv]
  simp [bind, Heap.isBound, hv, hheap, hfault, Machine.bindVar]

/-! ## §3. Heads. -/

/-- Instruction `get_struct` on a structure: its functor is compared, and then its arguments are read. -/
theorem eval_getStruct_read {cell : StructCell}
    (hreg : m.decoding = none ∨ m.register ≠ i.register)
    (hget : (m.frame m.current).get? i.register = some t) (hd : m.heap.deref t = .struct s)
    (hcell : m.heap.structCell s = cell) :
    eval (getStruct i) m =
      if cell.name ≠ i.functor ∨ (cell.args.length : Int) ≠ i.arity then eval headFail m
      else (.ok (), { m with mode := .read, decoding := some s, argument := 0,
                             register := i.register }) := by
  have hc : ¬ (m.decoding.isSome = true ∧ m.register = i.register) := by
    rcases hreg with h | h <;> simp [h]
  simp [getStruct, hc, hget, hd, hcell]

/-- Instruction `get_struct` on an unbound variable: it is bound to a new structure, whose arguments are
    written. -/
theorem eval_getStruct_write (hreg : m.decoding = none ∨ m.register ≠ i.register)
    (hget : (m.frame m.current).get? i.register = some t) (hd : m.heap.deref t = .var v)
    (hv : m.heap.binding? v = none) :
    eval (getStruct i) m =
      (.ok (), { ({ m with heap := (m.heap.newStruct i.functor [] .none).2 }.bindVar v
          (.struct m.heap.structs.size)) with
        mode := .write, decoding := some m.heap.structs.size, argument := 0
        register := i.register }) := by
  have hc : ¬ (m.decoding.isSome = true ∧ m.register = i.register) := by
    rcases hreg with h | h <;> simp [h]
  have hbind := eval_bind_free (m := { m with heap := (m.heap.newStruct i.functor [] .none).2 })
    (v := v) (t := .struct m.heap.structs.size) (by simpa using hv) (by simp) (by simp)
  simp [getStruct, hc, hget, hd, hbind]

/-- Instruction `get_struct` on a constant: it stands for a structure without arguments. -/
theorem eval_getStruct_const (hreg : m.decoding = none ∨ m.register ≠ i.register)
    (hget : (m.frame m.current).get? i.register = some t) (hd : m.heap.deref t = .const c) :
    eval (getStruct i) m =
      if i.arity ≠ 0 ∨ c.isAtom i.functor = false then eval headFail m
      else (.ok (), { m with
        heap := (m.heap.newStruct i.functor [] .none).2
        mode := .read, decoding := some m.heap.structs.size, argument := 0
        register := i.register }) := by
  have hc : ¬ (m.decoding.isSome = true ∧ m.register = i.register) := by
    rcases hreg with h | h <;> simp [h]
  simp [getStruct, hc, hget, hd]

/-- The next argument is read. -/
theorem eval_nextArg (hs : m.decoding = some s)
    (ht : (m.heap.structCell s).args[m.argument]? = some t) :
    eval nextArg m = (.ok t, { m with argument := m.argument + 1 }) := by
  simp [nextArg, hs, ht]

/-- An argument is written behind the others. -/
theorem eval_writeArg (hs : m.decoding = some s) :
    eval (writeArg t) m = (.ok (), { m with heap := m.heap.pushArg s t }) := by
  simp [writeArg, hs]

/-- Instruction `get_var` in a new structure makes a variable. -/
theorem eval_getVar_write (hm : m.mode = .write) (hs : m.decoding = some s) :
    eval (getVar name) m =
      (.ok (), { (m.changeFrame m.current (·.put name (.var m.heap.vars.size))) with
        heap := (m.heap.fresh name).2.pushArg s (.var m.heap.vars.size) }) := by
  simp [getVar, hm, writeArg, Machine.changeFrame, hs]

/-- Instruction `get_var` in an old structure names the argument. -/
theorem eval_getVar_read (hm : m.mode = .read) (hs : m.decoding = some s)
    (ht : (m.heap.structCell s).args[m.argument]? = some t) :
    eval (getVar name) m =
      (.ok (), { (m.changeFrame m.current (·.put name t)) with argument := m.argument + 1 }) := by
  simp [getVar, hm, eval_nextArg hs ht, Machine.changeFrame]

@[simp] theorem valueOf_mode : (m.valueOf name).2.mode = m.mode := by
  cases h : (m.frame m.current).get? name <;> simp [Machine.valueOf, h, Machine.changeFrame]

@[simp] theorem valueOf_decoding : (m.valueOf name).2.decoding = m.decoding := by
  cases h : (m.frame m.current).get? name <;> simp [Machine.valueOf, h, Machine.changeFrame]

@[simp] theorem valueOf_argument : (m.valueOf name).2.argument = m.argument := by
  cases h : (m.frame m.current).get? name <;> simp [Machine.valueOf, h, Machine.changeFrame]

@[simp] theorem valueOf_building : (m.valueOf name).2.building = m.building := by
  cases h : (m.frame m.current).get? name <;> simp [Machine.valueOf, h, Machine.changeFrame]

@[simp] theorem valueOf_structCell :
    (m.valueOf name).2.heap.structCell s = m.heap.structCell s := by
  cases h : (m.frame m.current).get? name <;> simp [Machine.valueOf, h, Machine.changeFrame]

/-- Instruction `get_value` in a new structure passes the variable on. -/
theorem eval_getValue_write (hm : m.mode = .write) (hs : m.decoding = some s) :
    eval (getValue name) m =
      (.ok (), { (m.valueOf name).2 with
        heap := (m.valueOf name).2.heap.pushArg s (m.valueOf name).1 }) := by
  have hs' : (m.valueOf name).2.decoding = some s := by simpa using hs
  simp [getValue, hm, eval_writeArg hs']

/-- Instruction `get_value` in an old structure unifies the variable with the argument. -/
theorem eval_getValue_read (hm : m.mode = .read) (hs : m.decoding = some s)
    (ht : (m.heap.structCell s).args[m.argument]? = some t) :
    eval (getValue name) m =
      (let m₁ := { (m.valueOf name).2 with argument := m.argument + 1 }
       if (m₁.unify (m.valueOf name).1 t).1 then (.ok (), (m₁.unify (m.valueOf name).1 t).2)
       else eval headFail (m₁.unify (m.valueOf name).1 t).2) := by
  have hs' : (m.valueOf name).2.decoding = some s := by simpa using hs
  have ht' : ((m.valueOf name).2.heap.structCell s).args[(m.valueOf name).2.argument]? = some t := by
    simpa using ht
  simp [getValue, hm, eval_nextArg hs' ht']

/-- A variable without a name gets a cell in a new structure. -/
theorem eval_unifVoid_write (hm : m.mode = .write) (hs : m.decoding = some s) :
    eval unifVoid m =
      (.ok (), { m with heap := (m.heap.fresh "_").2.pushArg s (.var m.heap.vars.size) }) := by
  simp [unifVoid, hm, writeArg, hs]

/-- In an old structure it skips the argument. -/
theorem eval_unifVoid_read (hm : m.mode = .read) (hs : m.decoding = some s)
    (ht : (m.heap.structCell s).args[m.argument]? = some t) :
    eval unifVoid m = (.ok (), { m with argument := m.argument + 1 }) := by
  simp [unifVoid, hm, eval_nextArg hs ht]

/-- A constant is written into a new structure. -/
theorem eval_getConst_write (hc : i.constant = some c) (hm : m.mode = .write)
    (hs : m.decoding = some s) :
    eval (getConst i) m = (.ok (), { m with heap := m.heap.pushArg s (.const c) }) := by
  simp [getConst, hc, hm, writeArg, hs]

/-- An unbound argument is bound to the constant. -/
theorem eval_getConst_free (hc : i.constant = some c) (hm : m.mode = .read)
    (hs : m.decoding = some s) (ht : (m.heap.structCell s).args[m.argument]? = some t)
    (hd : m.heap.deref t = .var v) (hv : m.heap.binding? v = none) :
    eval (getConst i) m =
      (.ok (), { m with argument := m.argument + 1 }.bindVar v (.const c)) := by
  have hbind := eval_bind_free (m := { m with argument := m.argument + 1 })
    (v := v) (t := .const c) hv (by simp) (by simp)
  simp only [hm] at hbind
  simp [getConst, hc, hm, eval_nextArg hs ht, hd, hbind]

theorem eval_getConst_read (hc : i.constant = some c) (hm : m.mode = .read)
    (hs : m.decoding = some s) (ht : (m.heap.structCell s).args[m.argument]? = some t)
    (hd : ∀ v, m.heap.deref t ≠ .var v) :
    eval (getConst i) m =
      (let m₁ := { m with
        argument := m.argument + 1, heap := (m.heap.unify t (.const c)).2.heap }
       if (m.heap.unify t (.const c)).1 then (.ok (), m₁) else eval headFail m₁) := by
  cases h : m.heap.deref t with
  | var v => exact absurd h (hd v)
  | const d => simp [getConst, hc, hm, eval_nextArg hs ht, h]
  | struct s => simp [getConst, hc, hm, eval_nextArg hs ht, h]
  | absent => simp [getConst, hc, hm, eval_nextArg hs ht, h]

/-! ## §4. Goals. -/

/-- Instruction `put_struct` starts a structure in a register of the frame to be called. -/
theorem eval_putStruct (hf : m.target = some f) :
    eval (putStruct i) m =
      (.ok (), { (m.changeFrame f (·.put i.register (.struct m.heap.structs.size))) with
        heap := (m.heap.newStruct i.functor [] .none).2
        building := some m.heap.structs.size }) := by
  simp [putStruct, target, hf, Machine.changeFrame]

/-- An argument goes to the structure under construction. -/
theorem eval_putArg (hs : m.building = some s) :
    eval (putArg t) m = (.ok (), { m with heap := m.heap.pushArg s t }) := by
  simp [putArg, hs]

/-- Instruction `put_var` makes a variable and names it in the caller. -/
theorem eval_putVar (hs : m.building = some s) :
    eval (putVar name) m =
      (.ok (), { (m.changeFrame m.current (·.put name (.var m.heap.vars.size))) with
        heap := (m.heap.fresh name).2.pushArg s (.var m.heap.vars.size) }) := by
  simp [putVar, Machine.changeFrame, putArg, hs]

/-- A variable without a name is made and passed. -/
theorem eval_putVoid (hs : m.building = some s) :
    eval putVoid m =
      (.ok (), { m with heap := (m.heap.fresh "_").2.pushArg s (.var m.heap.vars.size) }) := by
  simp [putVoid, putArg, hs]

/-- Instruction `put_value` of a register passes a structure that was built before. -/
theorem eval_putValue_register (hr : isStructRegister i.name = true) (hs : m.building = some s)
    (hf : m.target = some f) (ht : (m.frame f).get? i.name = some t) :
    eval (putValue i) m = (.ok (), { m with heap := m.heap.pushArg s t }) := by
  simp [putValue, hr, target, hf, ht, eval_putArg hs]

/-- Instruction `put_value` of a variable passes the variable of the caller. -/
theorem eval_putValue_variable (hr : isStructRegister i.name = false)
    (hs : m.building = some s) :
    eval (putValue i) m =
      (.ok (), { (m.valueOf i.name).2 with
        heap := (m.valueOf i.name).2.heap.pushArg s (m.valueOf i.name).1 }) := by
  have hs' : (m.valueOf i.name).2.building = some s := by simpa using hs
  simp [putValue, hr, eval_putArg hs']

theorem eval_putConst (hc : i.constant = some c) (hs : m.building = some s) :
    eval (putConst i) m = (.ok (), { m with heap := m.heap.pushArg s (.const c) }) := by
  simp [putConst, hc, eval_putArg hs]

/-! ## §5. Operands. -/

/-- Instruction `prepare` makes an empty structure for the operands. -/
theorem eval_prepare : eval prepare m =
    (.ok (), { (m.changeFrame m.current
        (·.put scratchRegister (.struct m.heap.structs.size))) with
      heap := (m.heap.newStruct scratchRegister [] .none).2 }) := by
  simp [prepare, Machine.changeFrame]

theorem eval_scratch (hs : (m.frame m.current).get? scratchRegister = some (.struct s)) :
    eval scratch m = (.ok (some s), m) := by
  simp [scratch, hs]

/-- A value is pushed behind the other operands. -/
theorem eval_push (hs : (m.frame m.current).get? scratchRegister = some (.struct s)) :
    eval (push t) m = (.ok (), { m with heap := m.heap.pushArg s t }) := by
  simp [push, eval_scratch hs]

theorem eval_pushConst (hc : i.constant = some c)
    (hs : (m.frame m.current).get? scratchRegister = some (.struct s)) :
    eval (pushConst i.constant) m = (.ok (), { m with heap := m.heap.pushArg s (.const c) }) := by
  simp [pushConst, hc, eval_push hs]

end Exec

end PrologMachine
