/-
  PrologMachine.Proofs.Machine.Scanning ── **A HEAD, INSTRUCTION BY INSTRUCTION.**

  While the code of a head runs, cells and the frame of the clause change, and nothing else does that
  anyone else could see.  Each instruction is described once, by what it makes of both.

    * `Machine.Spot`: where in the goal the machine is.
    * `Machine.Scanning`: the machine in the middle of a head.
    * `Scanning.getStruct_read` and the lemmas after it: one instruction each.
-/
import PrologMachine.Proofs.Machine.Calls

namespace PrologMachine

namespace Frame

variable (fr : Frame) (vs : List VarId)

/-- The frame with more variables on its trail. -/
def recorded : Frame := { fr with trail := vs ++ fr.trail }

@[simp] theorem get?_recorded (x : String) : (fr.recorded vs).get? x = fr.get? x := rfl

@[simp] theorem recorded_trail : (fr.recorded vs).trail = vs ++ fr.trail := rfl

@[simp] theorem recorded_position : (fr.recorded vs).position = fr.position := rfl

@[simp] theorem recorded_returnPoint : (fr.recorded vs).returnPoint = fr.returnPoint := rfl

@[simp] theorem recorded_clause : (fr.recorded vs).clause = fr.clause := rfl

@[simp] theorem recorded_clauses : (fr.recorded vs).clauses = fr.clauses := rfl

@[simp] theorem recorded_cutTo : (fr.recorded vs).cutTo = fr.cutTo := rfl

@[simp] theorem recorded_committed : (fr.recorded vs).committed = fr.committed := rfl

@[simp] theorem recorded_alternatives : (fr.recorded vs).alternatives = fr.alternatives := rfl

end Frame

namespace Machine

open Exec

variable {w : World} {c cl : Clause} {label l : String} {i j : Nat} {block : Code}
  {f g : FrameId} {fr fr' : Frame} {s : StructId} {v : VarId} {t a : Value} {h h' : Heap}
  {m₀ m m' : Machine} {instr : Instruction} {name : String} {k : Constant}

/-! ## §1. The middle of a head. -/

/-- Where in a structure the machine is. -/
structure Spot where
  /-- The register of the structure. -/
  register : String
  /-- How its arguments are treated. -/
  mode : Mode
  /-- The structure. -/
  structure_ : StructId
  /-- The next argument. -/
  argument : Nat

/-- The machine is there; before the first structure it is nowhere. -/
def Scans (m : Machine) : Option Spot → Prop
  | none => m.decoding = none
  | some p => m.register = p.register ∧ m.mode = p.mode ∧ m.decoding = some p.structure_ ∧
      m.argument = p.argument

/-- The machine runs the head of a clause in frame `f`, which is on top.  The head was entered with
    the machine `m₀`; the cells are now `h` and the frame is `fr`. -/
structure Scanning (cl : Clause) (f : FrameId) (i : Nat) (h : Heap) (fr : Frame) (p : Option Spot)
    (m₀ m : Machine) : Prop where
  /-- The instruction. -/
  place : At cl headLabel i m
  /-- The search goes on. -/
  active : m.Active
  /-- The frame of the clause. -/
  current : m.current = f
  /-- Nothing has failed. -/
  success : m.success = true
  /-- The stack. -/
  stack : m.stack = m₀.stack
  /-- The cells. -/
  heap : m.heap = h
  /-- The frame. -/
  updates : Updates f fr m₀ m
  /-- Where in the goal it is. -/
  spot : Scans m p

namespace Scanning

variable {p p' : Option Spot}

/-- What an instruction of a head leaves alone. -/
structure Moves (m m' : Machine) : Prop where
  /-- The flags of the search. -/
  flags : Flags m m'
  /-- The clause. -/
  code : m'.code = m.code
  /-- The block. -/
  label : m'.label = m.label
  /-- Control goes to the next instruction. -/
  index : m'.index = m.index + 1
  /-- The frame of the clause. -/
  current : m'.current = m.current
  /-- Nothing has failed. -/
  success : m'.success = m.success
  /-- The stack. -/
  stack : m'.stack = m.stack

/-- An instruction of a head that leaves the frames alone. -/
theorem step (p' : Option Spot) (hs : Scanning cl f i h fr p m₀ m) (hw : w.maxSteps ≤ 0)
    (hblock : cl.block? headLabel = some block) (hi : block[i]? = some instr)
    (heval : eval (execute w instr) (m.counted w instr) = (.ok (), m')) (hmoves : Moves m m')
    (hframes : m'.frames = m.frames) (hspot : Scans m' p') :
    Step w m m' ∧ Scanning cl f (i + 1) m'.heap fr p' m₀ m' := by
  have hstep := hs.place.step hblock hi (room_of_unlimited hw) hs.active heval hmoves.flags
  exact ⟨hstep, ⟨hmoves.code.trans hs.place.code, hmoves.label.trans hs.place.label,
    hmoves.index.trans (congrArg (· + 1) hs.place.index)⟩, hstep.goes,
    hmoves.current.trans hs.current, hmoves.success.trans hs.success, hmoves.stack.trans hs.stack,
    rfl, hs.updates.frames hframes, hspot⟩

/-- One that changes the frame of the clause. -/
theorem step_frame (p' : Option Spot) (change : Frame → Frame) (hs : Scanning cl f i h fr p m₀ m)
    (hf : f < m₀.frames.size) (hw : w.maxSteps ≤ 0)
    (hblock : cl.block? headLabel = some block) (hi : block[i]? = some instr)
    (heval : eval (execute w instr) (m.counted w instr) = (.ok (), m')) (hmoves : Moves m m')
    (hframes : m'.frames = m.frames.modify f change) (hspot : Scans m' p') :
    Step w m m' ∧ Scanning cl f (i + 1) m'.heap (change fr) p' m₀ m' := by
  have hstep := hs.place.step hblock hi (room_of_unlimited hw) hs.active heval hmoves.flags
  have hupdates := Updates.of_modify change (hs.updates.size.symm ▸ hf) hframes
  rw [hs.updates.self] at hupdates
  exact ⟨hstep, ⟨hmoves.code.trans hs.place.code, hmoves.label.trans hs.place.label,
    hmoves.index.trans (congrArg (· + 1) hs.place.index)⟩, hstep.goes,
    hmoves.current.trans hs.current, hmoves.success.trans hs.success, hmoves.stack.trans hs.stack,
    rfl, hs.updates.trans hupdates, hspot⟩

/-- The frame of the clause, where an instruction looks a variable up. -/
theorem frame_eq (hs : Scanning cl f i h fr p m₀ m) : m.frame m.current = fr := by
  rw [hs.current]
  exact hs.updates.self

/-- The structure in this register is not being taken apart already. -/
theorem register_ne (hs : Scanning cl f i h fr p m₀ m) {r : String}
    (hr : ∀ q ∈ p, q.register ≠ r) : m.decoding = none ∨ m.register ≠ r := by
  cases p with
  | none => exact .inl hs.spot
  | some q => exact .inr (hs.spot.1 ▸ hr q rfl)

/-! ## §2. Structures. -/

/-- **A structure that is there is read.** -/
theorem getStruct_read {cell : StructCell} {r : Nat} (hs : Scanning cl f i h fr p m₀ m)
    (hw : w.maxSteps ≤ 0) (hblock : cl.block? headLabel = some block)
    (hi : block[i]? = some (PrologMachine.getStruct cell.name cell.args.length r))
    (hr : ∀ q ∈ p, q.register ≠ structRegister r)
    (hget : fr.get? (structRegister r) = some (.struct s)) (hcell : h.structCell s = cell) :
    ∃ m', Step w m m' ∧
      Scanning cl f (i + 1) h fr (some ⟨structRegister r, .read, s, 0⟩) m₀ m' := by
  let instr := PrologMachine.getStruct cell.name cell.args.length r
  obtain rfl := hs.heap
  have heval := eval_getStruct_read (m := m.counted w instr) (i := instr) (hs.register_ne hr)
    ((congrArg (Frame.get? · (structRegister r)) hs.frame_eq).trans hget) rfl hcell
  rw [if_neg (by simp [instr, PrologMachine.getStruct])] at heval
  have hnext := hs.step (some ⟨structRegister r, .read, s, 0⟩) hw hblock hi heval
    ⟨⟨rfl, rfl, rfl, rfl⟩, rfl, rfl, rfl, rfl, rfl, rfl⟩ rfl ⟨rfl, rfl, rfl, rfl⟩
  exact ⟨_, hnext⟩

/-- Bound variables are recorded on the trail of the top frame. -/
theorem trailAll_top {vs : List VarId} (htop : m.top? = some f) :
    m.trailAll vs = m.changeFrame f (fun fr => { fr with trail := vs ++ fr.trail }) := by
  simp only [trailAll, htop]

/-- The machine with a variable bound, given field by field. -/
theorem bindVar_top (htop : m.top? = some f) : m.bindVar v t =
    { m.changeFrame f (fun fr => { fr with trail := v :: fr.trail }) with
      heap := m.heap.set v t } := by
  simp only [bindVar, trail, htop]

/-- The frame of the clause is on top for an instruction, too. -/
theorem top (hs : Scanning cl f i h fr p m₀ m) (htop : m₀.top? = some f) {m' : Machine}
    (hstack : m'.stack = m.stack) : m'.top? = some f := by
  rw [top?, hstack, hs.stack]
  exact htop

/-- **An unbound variable is bound to a new structure, which is then written.** -/
theorem getStruct_write {n r : Nat} (hs : Scanning cl f i h fr p m₀ m) (hw : w.maxSteps ≤ 0)
    (hf : f < m₀.frames.size) (htop : m₀.top? = some f)
    (hblock : cl.block? headLabel = some block)
    (hi : block[i]? = some (PrologMachine.getStruct name n r))
    (hr : ∀ q ∈ p, q.register ≠ structRegister r)
    (hget : fr.get? (structRegister r) = some (.var v)) (hv : h.binding? v = none) :
    ∃ m', Step w m m' ∧ Scanning cl f (i + 1)
      ((h.newStruct name [] .none).2.set v (.struct h.structs.size))
      (fr.recorded [v]) (some ⟨structRegister r, .write, h.structs.size, 0⟩) m₀
      m' := by
  let instr := PrologMachine.getStruct name n r
  obtain rfl := hs.heap
  -- The variable is bound to the new structure, on the trail of the frame on top.
  have heval := eval_getStruct_write (m := m.counted w instr) (i := instr) (hs.register_ne hr)
    ((congrArg (Frame.get? · (structRegister r)) hs.frame_eq).trans hget) (Heap.deref_free hv) hv
  rw [show instr.functor = name from rfl, bindVar_top (f := f)] at heval
  swap
  · exact hs.top htop rfl
  have hnext := hs.step_frame (some ⟨structRegister r, .write, m.heap.structs.size, 0⟩)
    (·.recorded [v]) hf hw hblock hi heval ⟨⟨rfl, rfl, rfl, rfl⟩, rfl, rfl, rfl, rfl, rfl, rfl⟩ rfl
    ⟨rfl, rfl, rfl, rfl⟩
  exact ⟨_, hnext⟩

/-- **A constant is no structure with arguments**: the call of the clause is resumed. -/
theorem getStruct_const {n r : Nat} (hs : Scanning cl f i h fr p m₀ m) (hw : w.maxSteps ≤ 0)
    (hblock : cl.block? headLabel = some block)
    (hi : block[i]? = some (PrologMachine.getStruct name (n + 1) r))
    (hr : ∀ q ∈ p, q.register ≠ structRegister r)
    (hget : fr.get? (structRegister r) = some (.const k)) (hcall : Underway c label j g f m) :
    ∃ m', Step w m m' ∧ Matches m m' ∧ Failing c label j g f m' := by
  let instr := PrologMachine.getStruct name (n + 1) r
  have hcounted : Matches m (m.counted w instr) := ⟨rfl, rfl, rfl⟩
  have hcall' : Underway c label j g f (m.counted w instr) := hcall.of_matches hcounted
  have heval := eval_getStruct_const (m := m.counted w instr) (i := instr) (hs.register_ne hr)
    ((congrArg (Frame.get? · (structRegister r)) hs.frame_eq).trans hget) rfl
  -- A constant stands for a structure without arguments, so that this one does not match.
  have harity : instr.arity ≠ 0 ∨ k.isAtom instr.functor = false := by
    left
    show ((n + 1 : Nat) : Int) ≠ 0
    omega
  rw [if_pos harity, hcall'.choicePoint.eval_headFail] at heval
  have hmatches : Matches m ((m.counted w instr).resumed f (pastCall c label j g)) :=
    hcounted.trans hcall'.choicePoint.matches_resumed
  have hflags : Flags m ((m.counted w instr).resumed f (pastCall c label j g)) := by
    rw [hcall'.choicePoint.resumed_eq]
    exact ⟨rfl, rfl, rfl, rfl⟩
  exact ⟨_, hs.place.step hblock hi (room_of_unlimited hw) hs.active heval hflags, hmatches,
    hcall'.resumes hs.active⟩

/-! ## §3. Variables. -/

/-- The next argument is given a name. -/
theorem getVar_read {r : String} {q : Nat} (hs : Scanning cl f i h fr (some ⟨r, .read, s, q⟩) m₀ m)
    (hw : w.maxSteps ≤ 0) (hf : f < m₀.frames.size) (hblock : cl.block? headLabel = some block)
    (hi : block[i]? = some instr) (hop : instr.op = .getVar ∨ instr.op = .unifVar)
    (harg : (h.structCell s).args[q]? = some t) :
    ∃ m', Step w m m' ∧
      Scanning cl f (i + 1) h (fr.put instr.name t) (some ⟨r, .read, s, q + 1⟩) m₀ m' := by
  obtain rfl := hs.heap
  obtain rfl := hs.current
  obtain ⟨hregister, hmode, hdecoding, rfl⟩ := hs.spot
  have hexecute : execute w instr = Exec.getVar instr.name := by
    rcases hop with hop | hop <;> simp only [execute, hop]
  have heval := (congrArg (eval · (m.counted w instr)) hexecute).trans
    (eval_getVar_read hmode hdecoding harg)
  have hnext := hs.step_frame (some ⟨r, .read, s, m.argument + 1⟩) (·.put instr.name t) hf hw hblock
    hi heval ⟨⟨rfl, rfl, rfl, rfl⟩, rfl, rfl, rfl, rfl, rfl, rfl⟩ rfl
    ⟨hregister, hmode, hdecoding, rfl⟩
  exact ⟨_, hnext⟩

/-- A new variable is written and given a name. -/
theorem getVar_write {r : String} {q : Nat}
    (hs : Scanning cl f i h fr (some ⟨r, .write, s, q⟩) m₀ m)
    (hw : w.maxSteps ≤ 0) (hf : f < m₀.frames.size) (hblock : cl.block? headLabel = some block)
    (hi : block[i]? = some instr) (hop : instr.op = .getVar ∨ instr.op = .unifVar) :
    ∃ m', Step w m m' ∧ Scanning cl f (i + 1)
      ((h.fresh instr.name).2.pushArg s (.var h.vars.size))
      (fr.put instr.name (.var h.vars.size)) (some ⟨r, .write, s, q⟩) m₀ m' := by
  obtain rfl := hs.heap
  obtain rfl := hs.current
  obtain ⟨hregister, hmode, hdecoding, rfl⟩ := hs.spot
  have hexecute : execute w instr = Exec.getVar instr.name := by
    rcases hop with hop | hop <;> simp only [execute, hop]
  have heval := (congrArg (eval · (m.counted w instr)) hexecute).trans
    (eval_getVar_write hmode hdecoding)
  have hnext := hs.step_frame (some ⟨r, .write, s, m.argument⟩)
    (·.put instr.name (.var m.heap.vars.size)) hf hw hblock hi heval
    ⟨⟨rfl, rfl, rfl, rfl⟩, rfl, rfl, rfl, rfl, rfl, rfl⟩ rfl ⟨hregister, hmode, hdecoding, rfl⟩
  exact ⟨_, hnext⟩

/-- **The next argument is unified with a known value.** -/
theorem getValue_read {r : String} {q : Nat} {u : Unifier}
    (hs : Scanning cl f i h fr (some ⟨r, .read, s, q⟩) m₀ m) (hw : w.maxSteps ≤ 0)
    (hf : f < m₀.frames.size) (htop : m₀.top? = some f) (hblock : cl.block? headLabel = some block)
    (hi : block[i]? = some instr) (hop : instr.op = .getValue ∨ instr.op = .unifValue)
    (hget : fr.get? instr.name = some a) (harg : (h.structCell s).args[q]? = some t)
    (hunify : h.unify a t = (true, u)) :
    ∃ m', Step w m m' ∧ Scanning cl f (i + 1) u.heap (fr.recorded u.bound)
      (some ⟨r, .read, s, q + 1⟩) m₀ m' := by
  obtain rfl := hs.heap
  obtain ⟨hregister, hmode, hdecoding, rfl⟩ := hs.spot
  have hexecute : execute w instr = Exec.getValue instr.name := by
    rcases hop with hop | hop <;> simp only [execute, hop]
  -- The variable has a value, which is unified with the argument.
  have hvalue : (m.counted w instr).valueOf instr.name = (a, m.counted w instr) :=
    valueOf_some ((congrArg (Frame.get? · instr.name) hs.frame_eq).trans hget)
  have heval := (congrArg (eval · (m.counted w instr)) hexecute).trans
    (eval_getValue_read hmode hdecoding harg)
  have hunify' : ({ m.counted w instr with argument := m.argument + 1 } : Machine).unify a t =
      (true, ({ m.counted w instr with argument := m.argument + 1, heap := u.heap } : Machine).trailAll
        u.bound) := by
    have hheap : ({ m.counted w instr with argument := m.argument + 1 } : Machine).heap.unify a t =
        (true, u) := hunify
    simp only [unify, hheap]
  simp only [hvalue] at heval
  rw [show (m.counted w instr).argument = m.argument from rfl, hunify', if_pos rfl,
    trailAll_top (f := f)] at heval
  -- The bindings are recorded in the frame on top, which is the current one.
  swap
  · exact hs.top htop rfl
  have hnext := hs.step_frame (some ⟨r, .read, s, m.argument + 1⟩) (·.recorded u.bound) hf hw hblock
    hi heval ⟨⟨rfl, rfl, rfl, rfl⟩, rfl, rfl, rfl, rfl, rfl, rfl⟩ rfl
    ⟨hregister, hmode, hdecoding, rfl⟩
  exact ⟨_, hnext⟩

/-! ## §4. Constants. -/

/-- **An unbound variable is bound to a constant.** -/
theorem getConst_free {r : String} {q : Nat} (hs : Scanning cl f i h fr (some ⟨r, .read, s, q⟩) m₀ m)
    (hw : w.maxSteps ≤ 0) (hf : f < m₀.frames.size) (htop : m₀.top? = some f)
    (hblock : cl.block? headLabel = some block) (hi : block[i]? = some instr)
    (hexecute : execute w instr = Exec.getConst instr) (hconst : instr.constant = some k)
    (harg : (h.structCell s).args[q]? = some (.var v)) (hv : h.binding? v = none) :
    ∃ m', Step w m m' ∧ Scanning cl f (i + 1) (h.set v (.const k))
      (fr.recorded [v]) (some ⟨r, .read, s, q + 1⟩) m₀ m' := by
  obtain rfl := hs.heap
  obtain ⟨hregister, hmode, hdecoding, rfl⟩ := hs.spot
  have heval := eval_getConst_free (m := m.counted w instr) hconst hmode hdecoding harg
    (Heap.deref_free hv) hv
  rw [← hexecute, bindVar_top (f := f)] at heval
  swap
  · exact hs.top htop rfl
  have hnext := hs.step_frame (some ⟨r, .read, s, m.argument + 1⟩) (·.recorded [v]) hf hw hblock hi
    heval ⟨⟨rfl, rfl, rfl, rfl⟩, rfl, rfl, rfl, rfl, rfl, rfl⟩ rfl
    ⟨hregister, hmode, hdecoding, rfl⟩
  exact ⟨_, hnext⟩

/-! ## §5. The end of a head. -/

/-- The body of the clause is entered. -/
theorem jump (hs : Scanning cl f i h fr p m₀ m) (hw : w.maxSteps ≤ 0)
    (hblock : cl.block? headLabel = some block)
    (hi : block[i]? = some { op := .jump, label := l }) :
    ∃ m', Step w m m' ∧ At cl l 0 m' ∧ m'.success = true ∧ Matches m m' ∧ m'.current = f := by
  have heval : eval (execute w { op := .jump, label := l })
      (m.counted w { op := .jump, label := l }) =
      (.ok (), { m.counted w { op := .jump, label := l } with label := l, index := 0 }) :=
    eval_jump l
  exact ⟨_, hs.place.step hblock hi (room_of_unlimited hw) hs.active heval ⟨rfl, rfl, rfl, rfl⟩,
    ⟨hs.place.code, rfl, rfl⟩, hs.success, ⟨rfl, rfl, rfl⟩, hs.current⟩

end Scanning

/-- **A call begins with the head of the clause.** -/
theorem Selecting.scans {cell : StructCell} {cs : List Clause} (h : Selecting c label i g f j s m)
    (hw : w.maxSteps ≤ 0) (hsite : CallSite c label i) (hcell : m.heap.structCell s = cell)
    (hcs : w.base.get ⟨cell.name, cell.args.length⟩ = .ok cs) (hcl : cs[j]? = some cl)
    (hnative : cl.native = false) :
    ∃ m', Step w m m' ∧ Scanning cl f 0 m.heap { m.frame f with
      vars := [("$x0", .struct s)], alternatives := [], cutTo := none, clauses := cs.length } none
      m m' := by
  obtain ⟨m', hstep, hentered, hheap, hstack, hupdates⟩ := h.enters hw hsite hcell hcs hcl hnative
  exact ⟨m', hstep, hentered.place, hentered.active, hentered.current, hentered.success, hstack, hheap,
    hupdates, hentered.decoding⟩

end Machine

end PrologMachine
