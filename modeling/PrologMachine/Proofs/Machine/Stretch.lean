/-
  PrologMachine.Proofs.Machine.Stretch ── **STRETCHES OF CODE.**

  Code without jumps, calls and failures is run from one instruction to the next.  The machine
  passes it: control stays in the block, the stack and the frame of the clause stay what they are,
  and every instruction counts as one step.

    * `Segment`: code as a part of a block.
    * `Machine.Passes`: the machine runs a stretch of code through; stretches follow each other.
-/
import PrologMachine.Proofs.Machine.Safety

namespace PrologMachine

namespace Machine

open Exec

variable {w : World} {c : Clause} {label : String} {i n n' : Nat} {block code : Code}
  {instr : Instruction} {m m' m'' : Machine}

/-! ## §1. Code in a block. -/

/-- The code stands at instruction `i` of the block. -/
def Segment (block : Code) (i : Nat) (code : Code) : Prop := ∃ rest, block.drop i = code ++ rest

/-- The first instruction of a segment. -/
theorem Segment.head (h : Segment block i (instr :: code)) : block[i]? = some instr := by
  obtain ⟨rest, hdrop⟩ := h
  rw [← List.head?_drop, hdrop]
  rfl

/-- The instructions behind it. -/
theorem Segment.tail (h : Segment block i (instr :: code)) : Segment block (i + 1) code := by
  obtain ⟨rest, hdrop⟩ := h
  exact ⟨rest, by rw [← List.tail_drop, hdrop]; rfl⟩

/-- The first part of a segment. -/
theorem Segment.left {code' : Code} (h : Segment block i (code ++ code')) : Segment block i code := by
  obtain ⟨rest, hdrop⟩ := h
  exact ⟨code' ++ rest, by rw [hdrop, List.append_assoc]⟩

/-- The second part of a segment. -/
theorem Segment.right {code' : Code} (h : Segment block i (code ++ code')) :
    Segment block (i + code.length) code' := by
  obtain ⟨rest, hdrop⟩ := h
  exact ⟨rest, by rw [← List.drop_drop, hdrop, List.append_assoc, List.drop_left]⟩

theorem Segment.get {k : Nat} (h : Segment block i code) (hk : code[k]? = some instr) :
    block[i + k]? = some instr := by
  obtain ⟨rest, hdrop⟩ := h
  rw [← List.getElem?_drop, hdrop]
  exact (List.getElem?_append_left (List.getElem?_eq_some_iff.1 hk).1).trans hk

/-- There is time for `n` more instructions. -/
def Room (w : World) (n : Nat) (m : Machine) : Prop :=
  0 < w.maxSteps → ((m.steps + n : Nat) : Int) ≤ w.maxSteps

theorem Room.mono (h : Room w n m) (hle : m'.steps + n' ≤ m.steps + n) : Room w n' m' := by
  intro hpos
  have := h hpos
  omega

/-! ## §2. One instruction. -/

/-- The machine is about to run instruction `i` of a block. -/
structure At (c : Clause) (label : String) (i : Nat) (m : Machine) : Prop where
  /-- The clause. -/
  code : m.code = some c
  /-- The block. -/
  label : m.label = label
  /-- The instruction. -/
  index : m.index = i

/-- Counting an instruction moves one place on. -/
theorem At.counted (h : At c label i m) : At c label (i + 1) (m.counted w instr) :=
  ⟨h.code, h.label, congrArg (· + 1) h.index⟩

/-- A step runs the instruction that stands there. -/
theorem At.advance_eq (h : At c label i m) (hblock : c.block? label = some block)
    (hi : block[i]? = some instr) (hroom : Room w 1 m) :
    m.advance w = (m.counted w instr).perform (execute w instr) := by
  have hfetch : m.fetch = .ok instr := by
    simp only [fetch, h.code, h.label, hblock, h.index, hi]
  rw [Machine.advance_eq hfetch, if_neg]
  rintro ⟨hpos, hlimit⟩
  have := hroom hpos
  omega

/-- Control stays where it is. -/
structure Remains (m m' : Machine) : Prop where
  /-- The clause. -/
  code : m'.code = m.code
  /-- The block. -/
  label : m'.label = m.label
  /-- The next instruction. -/
  index : m'.index = m.index
  /-- The frame of the clause. -/
  current : m'.current = m.current
  /-- The stack. -/
  stack : m'.stack = m.stack
  /-- The frames. -/
  frames : m'.frames.size = m.frames.size
  /-- The steps taken. -/
  steps : m'.steps = m.steps

/-- What remains in place is at its place. -/
theorem At.remains (h : At c label i m) (hr : Remains m m') : At c label i m' :=
  ⟨hr.code.trans h.code, hr.label.trans h.label, hr.index.trans h.index⟩

/-! ## §3. Stretches. -/

/-- From instruction `i` on the machine `m` runs `n` instructions, one after the other, and is then
    the machine `m'`. -/
structure Passes (w : World) (c : Clause) (label : String) (i n : Nat) (m m' : Machine) : Prop where
  /-- What it comes to. -/
  result : (advance w)^[n] m = m'
  /-- Control goes from each instruction to the next. -/
  stands : ∀ k ≤ n, At c label (i + k) ((advance w)^[k] m)
  /-- The frame of the clause. -/
  current : m'.current = m.current
  /-- The stack. -/
  stack : m'.stack = m.stack
  /-- The frames. -/
  frames : m'.frames.size = m.frames.size
  /-- The steps taken. -/
  steps : m'.steps = m.steps + n

theorem Passes.zero (h : At c label i m) : Passes w c label i 0 m m where
  result := rfl
  stands k hk := by
    obtain rfl := Nat.le_zero.1 hk
    exact h
  current := rfl
  stack := rfl
  frames := rfl
  steps := rfl

/-- The machine stands behind the stretch. -/
theorem Passes.behind (h : Passes w c label i n m m') : At c label (i + n) m' :=
  h.result ▸ h.stands n le_rfl

/-- **One stretch after the other.** -/
theorem Passes.trans (h : Passes w c label i n m m') (h' : Passes w c label (i + n) n' m' m'') :
    Passes w c label i (n + n') m m'' where
  result := by rw [Nat.add_comm, Function.iterate_add_apply, h.result, h'.result]
  stands k hk := by
    by_cases hle : k ≤ n
    · exact h.stands k hle
    · obtain ⟨d, rfl⟩ := Nat.exists_eq_add_of_le (Nat.le_of_not_le hle)
      have hd := h'.stands d (by omega)
      rw [← h.result, ← Function.iterate_add_apply, Nat.add_comm d n, Nat.add_assoc] at hd
      exact hd
  current := h'.current.trans h.current
  stack := h'.stack.trans h.stack
  frames := h'.frames.trans h.frames
  steps := by rw [h'.steps, h.steps, Nat.add_assoc]

/-- **One instruction.** -/
theorem Passes.one (h : At c label i m) (hblock : c.block? label = some block)
    (hi : block[i]? = some instr) (hroom : Room w 1 m)
    (heval : eval (execute w instr) (m.counted w instr) = (.ok (), m'))
    (hr : Remains (m.counted w instr) m') : Passes w c label i 1 m m' where
  result := by
    show m.advance w = m'
    rw [h.advance_eq hblock hi hroom, perform_eq, heval]
  stands k hk := by
    rcases Nat.le_one_iff_eq_zero_or_eq_one.1 hk with rfl | rfl
    · exact h
    · show At c label (i + 1) (m.advance w)
      rw [h.advance_eq hblock hi hroom, perform_eq, heval]
      exact h.counted.remains hr
  current := hr.current
  stack := hr.stack
  frames := hr.frames
  steps := hr.steps

/-! ## §4. Variables of the clause. -/

variable {x : String} {t : Value}

/-- The value of a variable of the running clause, if it has one. -/
def value? (m : Machine) (x : String) : Option Value := (m.frame m.current).get? x

/-- A variable with a value gives it. -/
theorem valueOf_some (hx : m.value? x = some t) : m.valueOf x = (t, m) := by
  rw [Machine.valueOf, show (m.frame m.current).get? x = some t from hx]

/-- A variable without one gets a new cell. -/
theorem valueOf_none (hx : m.value? x = none) : m.valueOf x =
    (.var m.heap.vars.size, { m with heap := (m.heap.fresh x).2 }.changeFrame m.current
      (·.put x (.var m.heap.vars.size))) := by
  rw [Machine.valueOf, show (m.frame m.current).get? x = none from hx]

/-- Setting a variable changes nothing else in the frame. -/
theorem vars_put (fr : Frame) (x : String) (t : Value) :
    { fr.put x t with vars := [] } = { fr with vars := [] } := by
  unfold Frame.put
  split <;> rfl

/-- Setting a variable of a frame, seen from another frame or in another field. -/
theorem fields_put (g f' : FrameId) (x : String) (t : Value) :
    { (m.changeFrame g (·.put x t)).frame f' with vars := [] } = { m.frame f' with vars := [] } :=
  frame_changeFrame_field (fun fr => ({ fr with vars := [] } : Frame)) fun fr => vars_put fr x t

end Machine

end PrologMachine
