/-
  PrologMachine.Proofs.Head.Decoding ── **RUNNING THE CODE OF A HEAD.**

  The instructions of a head solve its equations one after the other.  An equation whose register holds
  a structure is solved by comparing the arguments of the structure, one whose register holds an unbound
  variable by writing a structure for it.  While a structure is written it lacks arguments, so what
  it stands for is only said when it is complete.

    * `Machine.RunsHead`, `Machine.FailsHead`: a stretch of head code runs through, or ends in a mismatch.
    * `Machine.Confined`: meanwhile only variables and the trail of the frame of the clause change.
    * `Machine.Decides`: the code runs through with the solutions that satisfy a condition, or fails
      because there are none.
    * `Machine.reads_decides` and `Machine.writes_runs`: the arguments of a structure that is there, and
      of one that is not.
    * `Machine.equations_decide`: the code of a system of equations.
-/
import PrologMachine.Proofs.Head.Answers
import PrologMachine.Proofs.Head.Equations
import PrologMachine.Proofs.Machine.Progress

namespace PrologMachine

/-! ## §1. Heaps with an incomplete structure. -/

namespace Heap

variable {h : Heap} {v : VarId} {g x : String} {ts : List Value} {t : Value}

/-- The variable `v` is bound to a new structure. -/
def written (h : Heap) (v : VarId) (g : String) (ts : List Value) : Heap :=
  (h.newStruct g ts .none).2.set v (.struct h.structs.size)

@[simp] theorem vars_size_written : (h.written v g ts).vars.size = h.vars.size := by
  simp [written]

/-- A new variable does not depend on the structure. -/
theorem fresh_written (hv : v < h.vars.size) :
    ((h.written v g ts).fresh x).2 = (h.fresh x).2.written v g ts := by
  have hvars : ∀ cell : VarCell,
      (h.vars.modify v fun c => { c with binding := some (.struct h.structs.size) }).push cell =
        (h.vars.push cell).modify v fun c => { c with binding := some (.struct h.structs.size) } := by
    intro cell
    refine Array.ext_getElem? fun k => ?_
    rw [Array.getElem?_modify, Array.getElem?_push, Array.getElem?_push, Array.getElem?_modify,
      Array.size_modify]
    by_cases hk : k = h.vars.size
    · have hne : v ≠ k := hk ▸ Nat.ne_of_lt hv
      rw [if_pos hk, if_pos hk, if_neg hne]
    · rw [if_neg hk, if_neg hk]
  simp only [written, fresh, newVar, newStruct, set, hvars]

/-- One more argument. -/
theorem pushArg_written :
    (h.written v g ts).pushArg h.structs.size t = h.written v g (ts ++ [t]) := by
  have hstructs : (h.structs.push ⟨g, ts, .none⟩).modify h.structs.size
      (fun c => { c with args := c.args ++ [t] }) = h.structs.push ⟨g, ts ++ [t], .none⟩ := by
    refine Array.ext_getElem? fun k => ?_
    rw [Array.getElem?_modify, Array.getElem?_push, Array.getElem?_push]
    by_cases hk : k = h.structs.size
    · rw [if_pos hk, if_pos hk, if_pos hk.symm]
      rfl
    · rw [if_neg hk, if_neg hk, if_neg (Ne.symm hk)]
  simp only [written, pushArg, newStruct, set, hstructs]

end Heap

namespace Machine

open Exec Pattern

variable {w : World} {c : Clause} {f : FrameId} {i j n n' : Nat} {block code : Code}
  {instr : Instruction} {m m' m₁ : Machine} {K : Set Constant} {P : Value → Prop}
  {Γ Γ' Γ'' : Assignment → Prop} {Q Q' : Machine → Prop} {t u : Value} {x : String}
  {vs : List VarId} {keys keys' : Set String}

/-! ## §2. Variables and trails. -/

/-- The variables of the running clause on the heap. -/
def scope (m : Machine) : Scope := ⟨(m.frame m.current).get?, m.heap⟩

/-- Setting a variable of the running clause. -/
theorem scope_put (hf : m.current < m.frames.size) (h : Heap) (x : String) (t : Value) :
    ({ m.changeFrame m.current (·.put x t) with heap := h } : Machine).scope =
      (m.scope.withHeap h).put x t := by
  have henv : ((m.changeFrame m.current (·.put x t)).frame m.current).get? =
      fun y => if y = x then some t else (m.frame m.current).get? y := by
    rw [frame_changeFrame_self hf]
    exact funext fun y => Frame.get?_put
  exact congrArg (Scope.mk · h) henv

/-- Recording bindings changes nothing that the scope says. -/
theorem scope_trailAll : (m.trailAll vs).scope = m.scope := by
  unfold trailAll
  split
  · have henv : ∀ f', ((m.changeFrame f' fun fr => { fr with trail := vs ++ fr.trail }).frame
        m.current).get? = (m.frame m.current).get? := fun f' =>
      frame_changeFrame_field Frame.get? (by intro; rfl)
    exact congrArg (Scope.mk · m.heap) (henv _)
  · rfl

/-- The bindings come in front of the trail. -/
theorem trail_trailAll (ht : m.top? = some f) (hf : f < m.frames.size) :
    ((m.trailAll vs).frame f).trail = vs ++ (m.frame f).trail := by
  unfold trailAll
  rw [ht]
  exact congrArg Frame.trail (frame_changeFrame_self hf)

/-- Every binding made is on the trail of the frame `f`. -/
structure Trailed (f : FrameId) (m m' : Machine) : Prop where
  /-- What was on the trail stays there. -/
  keeps : ∀ v ∈ (m.frame f).trail, v ∈ (m'.frame f).trail
  /-- What is bound now and was not before is there. -/
  bound : ∀ v, m.heap.binding? v = none → m'.heap.binding? v ≠ none → v ∈ (m'.frame f).trail

protected theorem Trailed.trans {m'' : Machine} (h : Trailed f m m') (h' : Trailed f m' m'') :
    Trailed f m m'' where
  keeps v hv := h'.keeps v (h.keeps v hv)
  bound v hfree hbound := by
    by_cases hmid : m'.heap.binding? v = none
    · exact h'.bound v hmid hbound
    · exact h'.keeps v (h.bound v hfree hmid)

/-- Without bindings there is nothing to record. -/
theorem Trailed.of_same (htrail : (m'.frame f).trail = (m.frame f).trail)
    (hsame : ∀ v, m'.heap.binding? v = m.heap.binding? v) : Trailed f m m' where
  keeps v hv := by rw [htrail]; exact hv
  bound v hfree hbound := absurd ((hsame v).trans hfree) hbound

/-- Bindings that are recorded on the top trail. -/
theorem Trailed.record {h : Heap} (ht : m.top? = some f) (hf : f < m.frames.size)
    (hb : m.heap.Binds h vs) : Trailed f m ({ m with heap := h }.trailAll vs) := by
  have htrail : (({ m with heap := h }.trailAll vs).frame f).trail = vs ++ (m.frame f).trail :=
    trail_trailAll (m := { m with heap := h }) ht hf
  have hheap : ({ m with heap := h }.trailAll vs).heap = h := by rw [trailAll_eq]
  refine ⟨fun v hv => ?_, fun v hfree hbound => ?_⟩
  · rw [htrail]
    exact List.mem_append_right _ hv
  · rw [htrail]
    rw [hheap] at hbound
    by_contra hnot
    rw [List.mem_append, not_or] at hnot
    rw [hb.others v hnot.1] at hbound
    exact hbound hfree

/-! ## §3. Stretches of head code. -/

/-- The machine is about to run instruction `i` of the head of `c` for the call of frame `f`, which is on
    top of the stack. -/
structure InHead (c : Clause) (f : FrameId) (i : Nat) (m : Machine) : Prop where
  /-- The clause. -/
  code : m.code = some c
  /-- The block. -/
  label : m.label = headLabel
  /-- The instruction. -/
  index : m.index = i
  /-- The frame of the clause. -/
  current : m.current = f
  /-- It is on top. -/
  top : m.top? = some f
  /-- It exists. -/
  frame : f < m.frames.size
  /-- Nothing has failed. -/
  success : m.success = true

/-- The machine `m` runs `n` instructions of the head from instruction `i` on, one after the other. -/
def RunsHead (w : World) (c : Clause) (f : FrameId) (i n : Nat) (m : Machine) : Prop :=
  ∀ k ≤ n, InHead c f (i + k) ((advance w)^[k] m)

/-- One of the next `n` instructions of the head finds a mismatch. -/
def FailsHead (w : World) (c : Clause) (f : FrameId) (i n : Nat) (m : Machine) : Prop :=
  ∃ k < n, RunsHead w c f i k m ∧
    ∃ m₁, InHead c f (i + k + 1) m₁ ∧ (advance w)^[k + 1] m = m₁.perform headFail

/-- Of all frames only that of the clause changes, in its variables and its trail. -/
structure Confined (m m' : Machine) : Prop where
  /-- The search goes on. -/
  flags : Flags m m'
  /-- The frame of the clause. -/
  current : m'.current = m.current
  /-- The stack. -/
  stack : m'.stack = m.stack
  /-- No frame was made. -/
  size : m'.frames.size = m.frames.size
  /-- The other frames. -/
  others : ∀ f', f' ≠ m.current → m'.frame f' = m.frame f'
  /-- The other fields. -/
  fields : { m'.frame m.current with vars := [], trail := [] } =
    { m.frame m.current with vars := [], trail := [] }

namespace Confined

protected theorem refl (m : Machine) : Confined m m :=
  ⟨⟨rfl, rfl, rfl, rfl⟩, rfl, rfl, rfl, fun _ _ => rfl, rfl⟩

protected theorem trans {m'' : Machine} (h : Confined m m') (h' : Confined m' m'') : Confined m m'' where
  flags := ⟨h'.flags.asked.trans h.flags.asked, h'.flags.error.trans h.flags.error,
    h'.flags.ended.trans h.flags.ended, h'.flags.exhausted.trans h.flags.exhausted⟩
  current := h'.current.trans h.current
  stack := h'.stack.trans h.stack
  size := h'.size.trans h.size
  others f' hne := (h'.others f' (by rwa [h.current])).trans (h.others f' hne)
  fields := (h.current ▸ h'.fields).trans h.fields

end Confined

/-- Such a run, during which the other frames are what they were. -/
structure TreadsHead (w : World) (c : Clause) (f : FrameId) (i n : Nat) (m : Machine) : Prop where
  /-- The instructions run. -/
  runs : RunsHead w c f i n m
  /-- Nothing else changes. -/
  confined : ∀ k ≤ n, Confined m ((advance w)^[k] m)

/-- Such a mismatch, before which nothing but the frame of the clause has changed; the heap has grown. -/
structure MissesHead (w : World) (c : Clause) (f : FrameId) (i n : Nat) (m : Machine) : Prop where
  /-- The instructions before it run, and what it finds leads to the failure. -/
  exists_fail : ∃ k < n, TreadsHead w c f i k m ∧ ∃ m₁, InHead c f (i + k + 1) m₁ ∧
    (advance w)^[k + 1] m = m₁.perform headFail ∧ Confined m m₁ ∧ m.scope.Grows m₁.scope

/-- Code that misses fails. -/
theorem MissesHead.fails (h : MissesHead w c f i n m) : FailsHead w c f i n m := by
  obtain ⟨k, hk, hruns, m₁, hm₁, heq, -⟩ := h.exists_fail
  exact ⟨k, hk, hruns.runs, m₁, hm₁, heq⟩

theorem RunsHead.zero (h : InHead c f i m) : RunsHead w c f i 0 m := by
  intro k hk
  obtain rfl := Nat.le_zero.1 hk
  exact h

theorem RunsHead.one (h : InHead c f i m) (h' : InHead c f (i + 1) (m.advance w)) :
    RunsHead w c f i 1 m := by
  intro k hk
  rcases Nat.le_one_iff_eq_zero_or_eq_one.1 hk with rfl | rfl
  · exact h
  · exact h'

/-- One stretch of instructions after another. -/
theorem RunsHead.append (h : RunsHead w c f i n m)
    (h' : RunsHead w c f (i + n) n' ((advance w)^[n] m)) : RunsHead w c f i (n + n') m := by
  intro k hk
  by_cases hle : k ≤ n
  · exact h k hle
  · obtain ⟨d, rfl⟩ := Nat.exists_eq_add_of_le (Nat.le_of_not_le hle)
    have hd := h' d (by omega)
    rw [← Function.iterate_add_apply, Nat.add_comm d n, Nat.add_assoc] at hd
    exact hd

/-- No instruction at all, which changes nothing. -/
theorem TreadsHead.zero (h : InHead c f i m) : TreadsHead w c f i 0 m where
  runs := .zero h
  confined k hk := by
    obtain rfl := Nat.le_zero.1 hk
    exact .refl m

/-- A single instruction that stays confined. -/
theorem TreadsHead.one (h : InHead c f i m) (h' : InHead c f (i + 1) (m.advance w))
    (hconfined : Confined m (m.advance w)) : TreadsHead w c f i 1 m where
  runs := .one h h'
  confined k hk := by
    rcases Nat.le_one_iff_eq_zero_or_eq_one.1 hk with rfl | rfl
    · exact .refl m
    · exact hconfined

/-- One stretch of instructions after another. -/
theorem TreadsHead.append (h : TreadsHead w c f i n m)
    (h' : TreadsHead w c f (i + n) n' ((advance w)^[n] m)) : TreadsHead w c f i (n + n') m where
  runs := h.runs.append h'.runs
  confined k hk := by
    by_cases hle : k ≤ n
    · exact h.confined k hle
    · obtain ⟨d, rfl⟩ := Nat.exists_eq_add_of_le (Nat.le_of_not_le hle)
      have hd := h'.confined d (by omega)
      rw [← Function.iterate_add_apply, Nat.add_comm d n] at hd
      exact (h.confined n le_rfl).trans hd

/-- Code that misses does so whatever follows it. -/
theorem MissesHead.append_left (h : MissesHead w c f i n m) (n' : Nat) :
    MissesHead w c f i (n + n') m := by
  obtain ⟨k, hk, hfails⟩ := h.exists_fail
  exact ⟨k, by omega, hfails⟩

/-- Code that is run through may be followed by code that misses. -/
theorem MissesHead.append_right (h : TreadsHead w c f i n m)
    (hgrows : m.scope.Grows ((advance w)^[n] m).scope)
    (h' : MissesHead w c f (i + n) n' ((advance w)^[n] m)) : MissesHead w c f i (n + n') m := by
  obtain ⟨k, hk, hruns, m₁, hm₁, heq, hconfined, hgrows'⟩ := h'.exists_fail
  refine ⟨n + k, by omega, h.append hruns, m₁, ?_, ?_, (h.confined n le_rfl).trans hconfined,
    hgrows.trans hgrows'⟩
  · rwa [Nat.add_assoc i n k] at hm₁
  · rw [← heq, ← Function.iterate_add_apply]
    congr 1
    omega

/-- The instruction pointer moves on by one. -/
theorem InHead.counted (h : InHead c f i m) : InHead c f (i + 1) (m.counted w instr) :=
  ⟨h.code, h.label, congrArg (· + 1) h.index, h.current, h.top, h.frame, h.success⟩

/-- A step in a head runs the instruction that stands there. -/
theorem InHead.advance_eq (h : InHead c f i m) (hblock : c.block? headLabel = some block)
    (hi : block[i]? = some instr) (hroom : Room w 1 m) :
    m.advance w = (m.counted w instr).perform (execute w instr) :=
  At.advance_eq ⟨h.code, h.label, h.index⟩ hblock hi hroom

/-- Control stays where it is, and nothing fails. -/
structure Stays (m m' : Machine) : Prop extends Remains m m' where
  /-- The success of the last goal. -/
  success : m'.success = m.success
  /-- Nothing changes but the frame of the clause. -/
  confined : Confined m m'

/-- Frames have nothing to do with what is being decoded. -/
theorem Stays.of_frames (hr : Remains m m') (hs : m'.success = m.success) (hflags : Flags m m')
    (hframes : m'.frames = m.frames) : Stays m m' where
  toRemains := hr
  success := hs
  confined :=
    { flags := hflags
      current := hr.current
      stack := hr.stack
      size := hr.frames
      others := fun f' _ => by simp only [frame, hframes]
      fields := by simp only [frame, hframes] }

/-- A variable of the clause is set. -/
theorem Stays.of_put (hr : Remains m m') (hs : m'.success = m.success) (hflags : Flags m m')
    (hframes : m'.frames = (m.changeFrame m.current (·.put x t)).frames) : Stays m m' where
  toRemains := hr
  success := hs
  confined :=
    { flags := hflags
      current := hr.current
      stack := hr.stack
      size := hr.frames
      others := fun f' hne => by
        simp only [frame, hframes]
        exact frame_changeFrame_of_ne hne
      fields := by
        simp only [frame, hframes]
        exact frame_changeFrame_field (fun fr => ({ fr with vars := [], trail := [] } : Frame))
          fun fr => congrArg (fun fr : Frame => { fr with trail := [] }) (vars_put fr x t) }

/-- Counting an instruction stays confined. -/
theorem confined_counted : Confined m (m.counted w instr) :=
  ⟨⟨rfl, rfl, rfl, rfl⟩, rfl, rfl, rfl, fun _ _ => rfl, rfl⟩

/-- What stays in the head is in the head. -/
theorem InHead.stays (h : InHead c f i m) (hs : Stays m m') : InHead c f i m' where
  code := hs.code.trans h.code
  label := hs.label.trans h.label
  index := hs.index.trans h.index
  current := hs.current.trans h.current
  top := by rw [top?, hs.stack]; exact h.top
  frame := hs.frames.symm ▸ h.frame
  success := hs.success.trans h.success

/-- A stretch of `n` instructions of the head, from instruction `i` on, either runs through, with the
    solutions that satisfy `Γ`, or finds a mismatch, because there are no such solutions. -/
inductive Decides (w : World) (K : Set Constant) (P : Value → Prop) (c : Clause) (f : FrameId) (i n : Nat)
    (Γ : Assignment → Prop) (Q : Machine → Prop) (m : Machine) : Prop where
  /-- It runs through. -/
  | runs (hruns : TreadsHead w c f i n m)
    (hanswers : Scope.Answers K P Γ m.scope ((advance w)^[n] m).scope)
    (htrailed : Trailed f m ((advance w)^[n] m)) (hsteps : ((advance w)^[n] m).steps = m.steps + n)
    (hQ : Q ((advance w)^[n] m))
  /-- It finds a mismatch. -/
  | fails (hfails : MissesHead w c f i n m) (hrefutes : m.scope.Refutes K Γ)

/-- **One stretch after the other.** -/
theorem Decides.trans (Γ' : Assignment → Prop) (h : Decides w K P c f i n Γ Q m)
    (hs : m.scope.Sound K P)
    (hnext : ∀ m', TreadsHead w c f i n m → m' = (advance w)^[n] m → InHead c f (i + n) m' →
      Scope.Answers K P Γ m.scope m'.scope → m'.steps = m.steps + n → Q m' →
      Decides w K P c f (i + n) n' Γ' Q' m')
    (hboth : ∀ ρ θ, m.scope.Models K ρ θ → (Γ'' θ ↔ Γ θ ∧ Γ' θ)) :
    Decides w K P c f i (n + n') Γ'' Q' m := by
  cases h with
  | fails hfails hrefutes =>
    exact .fails (hfails.append_left n') fun ρ θ hm hΓ => hrefutes ρ θ hm ((hboth ρ θ hm).1 hΓ).1
  | runs hruns hanswers htrailed hsteps hQ =>
    have hiter : (advance w)^[n + n'] m = (advance w)^[n'] ((advance w)^[n] m) := by
      rw [Nat.add_comm, Function.iterate_add_apply]
    -- The second part starts where the first one has arrived.
    cases hnext _ hruns rfl (hruns.runs n le_rfl) hanswers hsteps hQ with
    | fails hfails hrefutes =>
      exact .fails (.append_right hruns hanswers.grows hfails) (hanswers.refutes hrefutes hboth)
    | runs hruns' hanswers' htrailed' hsteps' hQ' =>
      refine .runs (hruns.append hruns') ?_ ?_ ?_ ?_ <;> rw [hiter]
      · exact hanswers.trans hanswers' hs hboth
      · exact htrailed.trans htrailed'
      · rw [hsteps', hsteps, Nat.add_assoc]
      · exact hQ'

/-- No instructions. -/
theorem Decides.zero (h : InHead c f i m) (hs : m.scope.Sound K P)
    (hΓ : ∀ ρ θ, m.scope.Models K ρ θ → Γ θ) (hQ : Q m) : Decides w K P c f i 0 Γ Q m :=
  .runs (.zero h) (.refl hs hΓ) (.of_same rfl fun _ => rfl) rfl hQ

/-- How an instruction of a head can end. -/
inductive Performed (K : Set Constant) (P : Value → Prop) (f : FrameId) (Γ : Assignment → Prop)
    (Q : Machine → Prop) (m : Machine) : Except Error Unit × Machine → Prop where
  /-- With the solutions that satisfy the condition. -/
  | ok {m' : Machine} (hstays : Stays m m') (hanswers : Scope.Answers K P Γ m.scope m'.scope)
    (htrailed : Trailed f m m') (hQ : Q m') : Performed K P f Γ Q m (.ok (), m')
  /-- With a mismatch. -/
  | mismatch {m' : Machine} (hstays : Stays m m') (hgrows : m.scope.Grows m'.scope)
    (hrefutes : m.scope.Refutes K Γ) : Performed K P f Γ Q m (eval headFail m')

/-- One instruction. -/
theorem Decides.one (h : InHead c f i m) (hblock : c.block? headLabel = some block)
    (hi : block[i]? = some instr) (hroom : Room w 1 m)
    (hperformed : Performed K P f Γ Q (m.counted w instr)
      (eval (execute w instr) (m.counted w instr))) : Decides w K P c f i 1 Γ Q m := by
  have hadvance := h.advance_eq hblock hi hroom
  rw [perform_eq] at hadvance
  generalize heval : eval (execute w instr) (m.counted w instr) = out at hperformed hadvance
  cases hperformed with
  -- The instruction was performed, and the head goes on behind it.
  | @ok m' hstays hanswers htrailed hQ =>
    have hiter : (advance w)^[1] m = m' := hadvance
    have hruns : TreadsHead w c f i 1 m := by
      refine .one h ?_ ?_ <;> rw [show m.advance w = m' from hadvance]
      · exact h.counted.stays hstays
      · exact confined_counted.trans hstays.confined
    refine .runs hruns ?_ ?_ ?_ ?_ <;> rw [hiter]
    · exact hanswers
    · exact ⟨htrailed.keeps, htrailed.bound⟩
    · exact hstays.steps
    · exact hQ
  -- It was a mismatch, and the head has failed at its first instruction.
  | @mismatch m' hstays hgrows hrefutes =>
    exact .fails ⟨0, Nat.one_pos, .zero h, m', h.counted.stays hstays, by
      rw [perform_eq]; exact hadvance, confined_counted.trans hstays.confined, hgrows⟩ hrefutes

/-! ## §4. The arguments of a structure that is there. -/

/-- Argument `a` of the structure `s`, which is in register `r`, is read next. -/
structure Reading (s : StructId) (a : Nat) (r : String) (m : Machine) : Prop where
  /-- Arguments are read. -/
  mode : m.mode = .read
  /-- The structure. -/
  decoding : m.decoding = some s
  /-- The argument. -/
  argument : m.argument = a
  /-- The register. -/
  register : m.register = r

/-- The variables of the running clause that have values. -/
def Known (keys : Set String) (m : Machine) : Prop := ∀ x, (m.scope.env x).isSome ↔ x ∈ keys

/-- One more name is known. -/
theorem Known.put {m' : Machine} {h : Heap} (hk : Known keys m)
    (hscope : m'.scope = (m.scope.withHeap h).put x t) : Known (insert x keys) m' := by
  intro y
  rw [hscope, Set.mem_insert_iff, ← hk y]
  by_cases hy : y = x <;> simp [Scope.put, Scope.withHeap, hy]

/-- Known names depend on the variables of the frame only. -/
theorem Known.of_env (hk : Known keys m) (henv : m'.scope.env = m.scope.env) : Known keys m' := by
  intro y
  rw [henv]
  exact hk y

section Reads

variable {s : StructId} {a : Nat} {r : String} {b : Value} {k : Constant}

/-- The next argument, for the machine that reads it. -/
structure Reads (K : Set Constant) (P : Value → Prop) (c : Clause) (f : FrameId) (j : Nat)
    (keys : Set String) (s : StructId) (a : Nat) (r : String) (u : Value) (m : Machine) : Prop where
  /-- The head is run. -/
  head : InHead c f j m
  /-- All is in the part. -/
  sound : m.scope.Sound K P
  /-- What is known. -/
  known : Known keys m
  /-- Arguments are read. -/
  reading : Reading s a r m
  /-- There is one. -/
  arg : (m.heap.structCell s).args[a]? = some u
  /-- It is in the part. -/
  inside : m.heap.Inside P u

/-- The argument that is read next. -/
theorem Reads.arg' (h : Reads K P c f j keys s a r u m) :
    (m.heap.structCell s).args[m.argument]? = some u := h.reading.argument ▸ h.arg

/-- The machine has read an argument, and `keys` are known. -/
def HasRead (s : StructId) (a : Nat) (r : String) (keys : Set String) (m : Machine) : Prop :=
  Reading s (a + 1) r m ∧ Known keys m

/-- A first occurrence. -/
theorem getVar_reads (h : Reads K P c f j keys s a r u m) (hx : x ∉ keys)
    (hΓ : ∀ ρ θ, m.scope.Models K ρ θ → (Γ θ ↔ m.heap.tree K ρ u = θ x)) :
    Performed K P f Γ (HasRead s a r (insert x keys)) m (eval (getVar x) m) := by
  have hf : m.current < m.frames.size := h.head.current ▸ h.head.frame
  have hfree : m.scope.env x = none := by
    rw [← Option.not_isSome_iff_eq_none, h.known x]
    exact hx
  rw [eval_getVar_read h.reading.mode h.reading.decoding h.arg']
  have hscope := scope_put hf m.heap x u
  have htrail : ((m.changeFrame m.current (·.put x u)).frame f).trail = (m.frame f).trail :=
    frame_changeFrame_field Frame.trail (by intro; simp)
  refine .ok (.of_put (x := x) (t := u) ⟨rfl, rfl, rfl, rfl, rfl, frames_size_changeFrame, rfl⟩ rfl
      ⟨rfl, rfl, rfl, rfl⟩ rfl) ?_ (.of_same htrail fun _ => rfl)
    ⟨⟨h.reading.mode, h.reading.decoding, congrArg (· + 1) h.reading.argument, h.reading.register⟩,
      h.known.put hscope⟩
  have hanswers := h.sound.named hfree h.inside hΓ
  exact hscope ▸ hanswers

/-- An anonymous variable. -/
theorem unifVoid_reads (h : Reads K P c f j keys s a r u m) (hΓ : ∀ ρ θ, m.scope.Models K ρ θ → Γ θ) :
    Performed K P f Γ (HasRead s a r keys) m (eval unifVoid m) := by
  rw [eval_unifVoid_read h.reading.mode h.reading.decoding h.arg']
  exact .ok (.of_frames ⟨rfl, rfl, rfl, rfl, rfl, rfl, rfl⟩ rfl ⟨rfl, rfl, rfl, rfl⟩ rfl)
    (.refl h.sound hΓ) (.of_same rfl fun _ => rfl)
    ⟨⟨h.reading.mode, h.reading.decoding, congrArg (· + 1) h.reading.argument, h.reading.register⟩,
      h.known⟩

/-- Recording bindings leaves control where it is. -/
theorem record_stays (ht : m.top? = some m.current) (h : Heap) (vs : List VarId) :
    Stays m ({ m with heap := h }.trailAll vs) := by
  have hfields := @trailAll_eq { m with heap := h } vs
  have htrail : ({ m with heap := h }.trailAll vs) = { m.changeFrame m.current
      (fun fr => { fr with trail := vs ++ fr.trail }) with heap := h } := by
    rw [trailAll, show ({ m with heap := h } : Machine).top? = some m.current from ht]
    rfl
  have hframes : ({ m with heap := h }.trailAll vs).frames.size = m.frames.size := by
    rw [htrail]
    exact frames_size_changeFrame
  refine ⟨⟨?_, ?_, ?_, ?_, ?_, hframes, ?_⟩, ?_,
    ⟨⟨?_, ?_, ?_, ?_⟩, ?_, ?_, hframes, fun f' hne => ?_, ?_⟩⟩
  on_goal 14 =>
    rw [htrail]
    exact frame_changeFrame_of_ne hne
  on_goal 14 =>
    rw [htrail]
    exact frame_changeFrame_field (fun fr => ({ fr with vars := [], trail := [] } : Frame)) fun _ => rfl
  all_goals rw [hfields]

/-- Unification changes the heap of a scope only. -/
theorem scope_unify (t₁ t₂ : Value) :
    (m.unify t₁ t₂).2.scope = m.scope.withHeap (m.heap.unify t₁ t₂).2.heap := by
  show ({ m with heap := _ }.trailAll _).scope = _
  rw [scope_trailAll]
  rfl

/-- An argument that is unified with a value. -/
theorem Reads.unified (h : Reads K P c f j keys s a r u m) (hK : Heap.EqualOn K) {t₁ t₂ : Value}
    (ht₁ : m.heap.Inside P t₁) (ht₂ : m.heap.Inside P t₂)
    (hΓ : ∀ ρ θ, m.scope.Models K ρ θ → (Γ θ ↔ m.heap.tree K ρ t₁ = m.heap.tree K ρ t₂))
    (hm₁ : m₁ = { m with argument := m.argument + 1 }) :
    Performed K P f Γ (HasRead s a r keys) m
      (if (m₁.unify t₁ t₂).1 then (.ok (), (m₁.unify t₁ t₂).2)
       else eval headFail (m₁.unify t₁ t₂).2) := by
  have hok : (m₁.unify t₁ t₂).1 = (m.heap.unify t₁ t₂).1 := by rw [hm₁]; rfl
  -- Unification writes to the heap and to the trail, so the machine stays where it is in the code.
  have hstays : Stays m (m₁.unify t₁ t₂).2 := by
    subst hm₁
    have htop : m.top? = some m.current := h.head.current.symm ▸ h.head.top
    have hrecord := record_stays (m := { m with argument := m.argument + 1 }) htop
      (m.heap.unify t₁ t₂).2.heap (m.heap.unify t₁ t₂).2.bound
    exact ⟨⟨hrecord.code, hrecord.label, hrecord.index, hrecord.current, hrecord.stack, hrecord.frames,
      hrecord.steps⟩, hrecord.success, ⟨hrecord.confined.flags.asked, hrecord.confined.flags.error,
      hrecord.confined.flags.ended, hrecord.confined.flags.exhausted⟩, hrecord.confined.current,
      hrecord.confined.stack, hrecord.confined.size, hrecord.confined.others, hrecord.confined.fields⟩
  have hbinds := Heap.unify_binds h.sound.plain.good ht₁.1 ht₂.1
  -- Whether it succeeds is what the assignments of the scope say about the two trees.
  have hscope : (m₁.unify t₁ t₂).2.scope = m.scope.withHeap (m.heap.unify t₁ t₂).2.heap := by
    rw [scope_unify, hm₁]
    rfl
  split
  · next hsuccess =>
    rw [hok] at hsuccess
    have htrailed : Trailed f m (m₁.unify t₁ t₂).2 := by
      subst hm₁
      have hrecord := Trailed.record (m := { m with argument := m.argument + 1 }) h.head.top
        h.head.frame hbinds
      exact ⟨hrecord.keeps, hrecord.bound⟩
    have hfields := unify_fields (m := m₁) t₁ t₂
    refine .ok hstays (hscope ▸ h.sound.unified hK ht₁ ht₂ hΓ hsuccess) htrailed
      ⟨⟨?_, ?_, ?_, ?_⟩, h.known.of_env (by rw [hscope]; rfl)⟩ <;> rw [hfields, hm₁]
    · exact h.reading.mode
    · exact h.reading.decoding
    · exact congrArg (· + 1) h.reading.argument
    · exact h.reading.register
  · next hfail =>
    rw [hok, Bool.not_eq_true] at hfail
    exact .mismatch hstays (hscope ▸ .later hbinds.later) (h.sound.ununified hK ht₁ ht₂ hΓ hfail)

/-- A later occurrence. -/
theorem getValue_reads (h : Reads K P c f j keys s a r u m) (hK : Heap.EqualOn K) (hx : x ∈ keys)
    (hΓ : ∀ ρ θ, m.scope.Models K ρ θ → (Γ θ ↔ m.heap.tree K ρ u = θ x)) :
    Performed K P f Γ (HasRead s a r keys) m (eval (getValue x) m) := by
  obtain ⟨t, ht⟩ := Option.isSome_iff_exists.1 ((h.known x).2 hx)
  have hvalue : m.valueOf x = (t, m) := by
    rw [valueOf, show (m.frame m.current).get? x = some t from ht]
  rw [eval_getValue_read h.reading.mode h.reading.decoding h.arg', hvalue]
  refine h.unified hK (h.sound.env x t ht) h.inside (fun ρ θ hm => ?_) rfl
  rw [hΓ ρ θ hm, show m.heap.tree K ρ t = θ x from hm.names x t ht]
  exact eq_comm

/-- A constant. -/
theorem getConst_reads (h : Reads K P c f j keys s a r u m) (hK : Heap.EqualOn K)
    (hc : instr.constant = some k) (hk : k ∈ K)
    (hΓ : ∀ ρ θ, m.scope.Models K ρ θ → (Γ θ ↔ m.heap.tree K ρ u = Heap.leaf K k)) :
    Performed K P f Γ (HasRead s a r keys) m (eval (getConst instr) m) := by
  have hin : m.heap.Inside P (.const k) := ⟨trivial, h.sound.constants k hk⟩
  have hΓ' : ∀ ρ θ, m.scope.Models K ρ θ →
      (Γ θ ↔ m.heap.tree K ρ u = m.heap.tree K ρ (.const k)) := by
    intro ρ θ hm
    rw [hΓ ρ θ hm, Heap.tree_const]
  -- An unbound argument is bound by hand, which comes to the same as unifying it with the constant.
  by_cases hvar : ∃ v, m.heap.deref u = .var v
  · obtain ⟨v, hd⟩ := hvar
    have hfree := h.sound.plain.good.binding?_of_deref hd
    have hunify : m.heap.unify u (.const k) = (true, ⟨m.heap.set v (.const k), [v], []⟩) :=
      Heap.unify_const_free hd hfree
    have hperformed := h.unified hK h.inside hin hΓ'
      (Eq.refl ({ m with argument := m.argument + 1 } : Machine))
    have heq : ({ m with argument := m.argument + 1 } : Machine).unify u (.const k) =
        (true, { m with argument := m.argument + 1, heap := m.heap.set v (.const k) }.trailAll [v]) := by
      simp only [unify, hunify]
    rw [heq] at hperformed
    rw [eval_getConst_free hc h.reading.mode h.reading.decoding h.arg' hd hfree,
      bindVar_eq (m := { m with argument := m.argument + 1 }) h.head.top]
    exact hperformed
  · have hne : ∀ v, m.heap.deref u ≠ .var v := fun v hd => hvar ⟨v, hd⟩
    have hheap := Heap.unify_const_heap (c := k) hne
    rw [eval_getConst_read hc h.reading.mode h.reading.decoding h.arg' hne]
    simp only [hheap]
    -- Any other argument is compared with the constant, and no cell changes.
    split
    · next hok =>
      have hanswers := h.sound.unified hK h.inside hin hΓ' hok
      rw [show m.scope.heap = m.heap from rfl, hheap] at hanswers
      exact .ok (.of_frames ⟨rfl, rfl, rfl, rfl, rfl, rfl, rfl⟩ rfl ⟨rfl, rfl, rfl, rfl⟩ rfl) hanswers
        (.of_same rfl fun _ => rfl)
        ⟨⟨h.reading.mode, h.reading.decoding, congrArg (· + 1) h.reading.argument,
          h.reading.register⟩, h.known⟩
    · next hfail =>
      exact .mismatch (.of_frames ⟨rfl, rfl, rfl, rfl, rfl, rfl, rfl⟩ rfl ⟨rfl, rfl, rfl, rfl⟩ rfl)
        (.refl m.scope) (h.sound.ununified hK h.inside hin hΓ' (Bool.not_eq_true _ ▸ hfail))

/-- The arguments `us` of the structure `s` are still to be read. -/
structure ReadsAll (K : Set Constant) (P : Value → Prop) (c : Clause) (f : FrameId) (i : Nat)
    (keys : Set String) (s : StructId) (a : Nat) (r : String) (us : List Value) (m : Machine) : Prop where
  /-- The head is run. -/
  head : InHead c f i m
  /-- All is in the part. -/
  sound : m.scope.Sound K P
  /-- What is known. -/
  known : Known keys m
  /-- Arguments are read. -/
  reading : Reading s a r m
  /-- The structure is in the part. -/
  inside : m.heap.Inside P (.struct s)
  /-- The arguments. -/
  args : (m.heap.structCell s).args.drop a = us

namespace ReadsAll

variable {us : List Value} {keys₁ : Set String} {ps : List Pattern} {p : Pattern}
  {χ : Assignment → List Tree}

/-- All arguments that are left are values of the scope. -/
theorem insideAll (h : ReadsAll K P c f i keys s a r us m) : ∀ t ∈ us, m.heap.Inside P t := by
  intro t ht
  rw [← h.args] at ht
  exact h.sound.plain.inside_args h.inside.2 t (List.mem_of_mem_drop ht)

/-- The next argument. -/
theorem first (h : ReadsAll K P c f i keys s a r (u :: us) m) :
    Reads K P c f (i + 1) keys s a r u (m.counted w instr) where
  head := h.head.counted
  sound := h.sound
  known := h.known
  reading := ⟨h.reading.mode, h.reading.decoding, h.reading.argument, h.reading.register⟩
  arg := by
    show (m.heap.structCell s).args[a]? = some u
    rw [← List.head?_drop, h.args]
    rfl
  inside := h.insideAll u (List.mem_cons_self ..)

/-- Behind it. -/
theorem next (h : ReadsAll K P c f i keys s a r (u :: us) m) (hhead : InHead c f (i + 1) m')
    (hanswers : Scope.Answers K P Γ m.scope m'.scope) (hread : HasRead s a r keys₁ m') :
    ReadsAll K P c f (i + 1) keys₁ s (a + 1) r us m' where
  head := hhead
  sound := hanswers.sound
  known := hread.2
  reading := hread.1
  inside := hanswers.grows.heap.inside h.inside
  args := by
    have hcell : m'.heap.structCell s = m.heap.structCell s := hanswers.grows.heap.cells s h.inside.1
    rw [hcell, ← List.tail_drop, h.args]
    rfl

/-- **One argument and the ones behind it.** -/
theorem decides (h : ReadsAll K P c f i keys s a r (u :: us) m)
    (hblock : c.block? headLabel = some block) (hi : block[i]? = some instr)
    (hroom : Room w (n + 1) m)
    (hχ : ∀ ρ θ, m.scope.Models K ρ θ → (u :: us).map (m.heap.tree K ρ) = χ θ)
    (hfirst : ∀ Γ : Assignment → Prop,
      (∀ ρ θ, m.scope.Models K ρ θ → (Γ θ ↔ Describes K θ p (m.heap.tree K ρ u))) →
      Performed K P f Γ (HasRead s a r keys₁) (m.counted w instr)
        (eval (execute w instr) (m.counted w instr)))
    (hrest : ∀ m' (χ' : Assignment → List Tree), ReadsAll K P c f (i + 1) keys₁ s (a + 1) r us m' →
      Room w n m' → (∀ ρ θ, m'.scope.Models K ρ θ → us.map (m'.heap.tree K ρ) = χ' θ) →
      Decides w K P c f (i + 1) n (fun θ => DescribesAll K θ ps (χ' θ)) Q m') :
    Decides w K P c f i (n + 1) (fun θ => DescribesAll K θ (p :: ps) (χ θ)) Q m := by
  have hroom₁ : Room w 1 m := fun hpos => by
    have := hroom hpos
    omega
  -- The first argument decides for itself; the others are decided at the machine behind it.
  have hone := Decides.one h.head hblock hi hroom₁ (hfirst
    (fun θ => ∃ T Us, χ θ = T :: Us ∧ Describes K θ p T) fun ρ θ hm => by
      rw [← hχ ρ θ hm]
      constructor
      · rintro ⟨T, Us, heq, hT⟩
        obtain ⟨rfl, -⟩ := List.cons.inj heq
        exact hT
      · exact fun hT => ⟨_, _, rfl, hT⟩)
  rw [Nat.add_comm n 1]
  refine Decides.trans (fun θ => DescribesAll K θ ps (χ θ).tail) hone h.sound
    (fun m' _ _ hhead hanswers hsteps hread => ?_) fun ρ θ hm => ?_
  · refine hrest m' (fun θ => (χ θ).tail) (h.next hhead hanswers hread) (fun hpos => ?_) fun ρ θ hm => ?_
    · have := hroom hpos
      rw [hsteps]
      omega
    · rw [← hχ ρ θ (hanswers.grows.models h.sound hm), List.map_cons, List.tail_cons]
      -- The first instruction leaves the trees of the other arguments as they are.
      refine List.map_congr_left fun t ht => ?_
      exact hanswers.grows.heap.tree h.sound.plain.good
        (h.insideAll t (List.mem_cons_of_mem _ ht)).1 fun _ _ => rfl
  · rw [← hχ ρ θ hm]
    constructor
    · rintro ⟨T, Us, heq, hT, hUs⟩
      exact ⟨⟨T, Us, heq, hT⟩, by rw [heq]; exact hUs⟩
    · rintro ⟨⟨T, Us, heq, hT⟩, hUs⟩
      rw [heq] at hUs
      exact ⟨T, Us, heq, hT, hUs⟩

end ReadsAll

/-- **The code of parts of a structure that is there compares its arguments.** -/
theorem reads_decides {ps : List Pattern} (hK : Heap.EqualOn K)
    (hblock : c.block? headLabel = some block) (hcodes : Codes keys ps code keys') :
    ∀ {m : Machine} {i a : Nat} {us : List Value} {χ : Assignment → List Tree},
      ReadsAll K P c f i keys s a r us m → us.length = ps.length → FullAll K ps →
      (∀ ρ θ, m.scope.Models K ρ θ → us.map (m.heap.tree K ρ) = χ θ) → Segment block i code →
      Room w code.length m →
      Decides w K P c f i code.length (fun θ => DescribesAll K θ ps (χ θ))
        (fun m' => Known keys' m' ∧ m'.register = r) m := by
  induction hcodes with
  -- No argument is left, and none is described.
  | nil =>
    intro m i a us χ h hlength _ hχ _ _
    obtain rfl := List.length_eq_zero_iff.1 hlength
    exact .zero h.head h.sound (fun ρ θ hm => (hχ ρ θ hm).symm) ⟨h.known, h.reading.register⟩
  | first hop hx _ ih =>
    -- Each kind of argument has its instruction; what it leads to is the hypothesis for the others.
    intro m i a us χ h hlength hfull hχ hseg hroom
    obtain ⟨u, us, rfl⟩ := List.exists_cons_of_length_eq_add_one hlength
    refine h.decides hblock hseg.head hroom hχ (fun Γ hΓ => ?_) fun m' χ' h' hroom' hχ' =>
      ih h' (Nat.succ.inj hlength) hfull.2 hχ' hseg.tail hroom'
    rw [hop]
    exact getVar_reads h.first hx hΓ
  | again hop hx _ ih =>
    intro m i a us χ h hlength hfull hχ hseg hroom
    obtain ⟨u, us, rfl⟩ := List.exists_cons_of_length_eq_add_one hlength
    refine h.decides hblock hseg.head hroom hχ (fun Γ hΓ => ?_) fun m' χ' h' hroom' hχ' =>
      ih h' (Nat.succ.inj hlength) hfull.2 hχ' hseg.tail hroom'
    rw [hop]
    exact getValue_reads h.first hK hx hΓ
  | void hop _ ih =>
    intro m i a us χ h hlength hfull hχ hseg hroom
    obtain ⟨u, us, rfl⟩ := List.exists_cons_of_length_eq_add_one hlength
    refine h.decides hblock hseg.head hroom hχ (fun Γ hΓ => ?_) fun m' χ' h' hroom' hχ' =>
      ih h' (Nat.succ.inj hlength) hfull.2 hχ' hseg.tail hroom'
    rw [hop]
    exact unifVoid_reads h.first fun ρ θ hm => (hΓ ρ θ hm).2 trivial
  | const hop hc _ ih =>
    intro m i a us χ h hlength hfull hχ hseg hroom
    obtain ⟨u, us, rfl⟩ := List.exists_cons_of_length_eq_add_one hlength
    refine h.decides hblock hseg.head hroom hχ (fun Γ hΓ => ?_) fun m' χ' h' hroom' hχ' =>
      ih h' (Nat.succ.inj hlength) hfull.2 hχ' hseg.tail hroom'
    rw [hop]
    exact getConst_reads h.first hK hc hfull.1 hΓ

end Reads

/-! ## §5. The arguments of a structure that is not there. -/

section Writes

variable {s : StructId} {a : Nat} {r g : String} {k : Constant} {d d' : Scope} {v : VarId}
  {ts : List Value} {ps : List Pattern} {p : Pattern} {keys₁ : Set String}

/-- A structure `g` over the values `ts` so far is written for the variable `v`, which is in register `r`;
    `d` is the scope without the structure. -/
structure Writing (d : Scope) (v : VarId) (g : String) (ts : List Value) (r : String) (m : Machine) :
    Prop where
  /-- Arguments are written. -/
  mode : m.mode = .write
  /-- The structure. -/
  decoding : m.decoding = some d.heap.structs.size
  /-- The register. -/
  register : m.register = r
  /-- The names and the heap. -/
  scope : m.scope = d.withHeap (d.heap.written v g ts)
  /-- The variable exists. -/
  lt : v < d.heap.vars.size

namespace Writing

/-- The heap of a machine that writes. -/
theorem heap (h : Writing d v g ts r m) : m.heap = d.heap.written v g ts := congrArg Scope.heap h.scope

/-- The variables of the frame are those of the description. -/
theorem env (h : Writing d v g ts r m) : (m.frame m.current).get? = d.env := congrArg Scope.env h.scope

/-- Counting an instruction writes nothing. -/
theorem counted (h : Writing d v g ts r m) : Writing d v g ts r (m.counted w instr) :=
  ⟨h.mode, h.decoding, h.register, h.scope, h.lt⟩

end Writing

/-- An action adds one argument, a copy of the pattern `p`. -/
structure Adds (p : Pattern) (d : Scope) (v : VarId) (g : String) (ts : List Value) (r : String)
    (f : FrameId) (m m' : Machine) : Prop where
  /-- Control stays. -/
  stays : Stays m m'
  /-- The copy is written. -/
  writing : Writing (p.load d).2 v g (ts ++ [(p.load d).1]) r m'
  /-- Nothing is recorded. -/
  trail : (m'.frame f).trail = (m.frame f).trail

/-- A first occurrence. -/
theorem getVar_writes (h : Writing d v g ts r m) (hf : m.current < m.frames.size) (hx : d.env x = none) :
    ∃ m', eval (getVar x) m = (.ok (), m') ∧ Adds (.var x) d v g ts r f m m' := by
  have hsize : m.heap.vars.size = d.heap.vars.size := by rw [h.heap, Heap.vars_size_written]
  have hload : (Pattern.var x).load d = (.var d.heap.vars.size,
      (d.withHeap (d.heap.fresh x).2).put x (.var d.heap.vars.size)) := by rw [load, hx]
  have hheap : (m.heap.fresh x).2.pushArg d.heap.structs.size (.var d.heap.vars.size) =
      (d.heap.fresh x).2.written v g (ts ++ [.var d.heap.vars.size]) := by
    rw [h.heap, Heap.fresh_written h.lt]
    exact Heap.pushArg_written
  refine ⟨_, eval_getVar_write h.mode h.decoding,
    .of_put ⟨rfl, rfl, rfl, rfl, rfl, frames_size_changeFrame, rfl⟩ rfl ⟨rfl, rfl, rfl, rfl⟩ rfl, ?_,
    frame_changeFrame_field Frame.trail (by intro; simp)⟩
  rw [hload, hsize, hheap]
  refine ⟨h.mode, h.decoding, h.register, ?_, ?_⟩
  · rw [scope_put hf, h.scope]
    rfl
  · exact h.lt.trans_le (Heap.later_fresh x).vars

/-- A later occurrence. -/
theorem getValue_writes (h : Writing d v g ts r m) (hx : d.env x = some t) :
    ∃ m', eval (getValue x) m = (.ok (), m') ∧ Adds (.var x) d v g ts r f m m' := by
  have hload : (Pattern.var x).load d = (t, d) := by rw [load, hx]
  have hvalue : m.valueOf x = (t, m) := by rw [valueOf, h.env, hx]
  refine ⟨_, eval_getValue_write h.mode h.decoding, ?_⟩
  rw [hvalue]
  refine ⟨.of_frames ⟨rfl, rfl, rfl, rfl, rfl, rfl, rfl⟩ rfl ⟨rfl, rfl, rfl, rfl⟩ rfl, ?_, rfl⟩
  rw [hload]
  refine ⟨h.mode, h.decoding, h.register, ?_, h.lt⟩
  show m.scope.withHeap (m.heap.pushArg d.heap.structs.size t) = _
  rw [h.scope, h.heap, Heap.pushArg_written]
  rfl

/-- An anonymous variable. -/
theorem unifVoid_writes (h : Writing d v g ts r m) :
    ∃ m', eval unifVoid m = (.ok (), m') ∧ Adds .void d v g ts r f m m' := by
  have hsize : m.heap.vars.size = d.heap.vars.size := by rw [h.heap, Heap.vars_size_written]
  refine ⟨_, eval_unifVoid_write h.mode h.decoding,
    .of_frames ⟨rfl, rfl, rfl, rfl, rfl, rfl, rfl⟩ rfl ⟨rfl, rfl, rfl, rfl⟩ rfl, ?_, rfl⟩
  rw [hsize]
  refine ⟨h.mode, h.decoding, h.register, ?_, h.lt.trans_le (Heap.later_fresh "_").vars⟩
  show m.scope.withHeap ((m.heap.fresh "_").2.pushArg d.heap.structs.size (.var d.heap.vars.size)) = _
  rw [h.scope, h.heap, Heap.fresh_written h.lt]
  exact congrArg (Scope.mk d.env) Heap.pushArg_written

/-- A constant. -/
theorem getConst_writes (h : Writing d v g ts r m) (hc : instr.constant = some k) :
    ∃ m', eval (getConst instr) m = (.ok (), m') ∧ Adds (.const k) d v g ts r f m m' := by
  refine ⟨_, eval_getConst_write hc h.mode h.decoding,
    .of_frames ⟨rfl, rfl, rfl, rfl, rfl, rfl, rfl⟩ rfl ⟨rfl, rfl, rfl, rfl⟩ rfl, ?_, rfl⟩
  refine ⟨h.mode, h.decoding, h.register, ?_, h.lt⟩
  show m.scope.withHeap (m.heap.pushArg d.heap.structs.size (.const k)) = _
  rw [h.scope, h.heap, Heap.pushArg_written]
  rfl

/-- The machine `m'` is reached from `m` through `n` instructions of the head, which write copies of the
    patterns `ps`. -/
structure Writes (w : World) (c : Clause) (f : FrameId) (i n : Nat) (ps : List Pattern) (d : Scope)
    (v : VarId) (g : String) (ts : List Value) (r : String) (keys : Set String) (m m' : Machine) : Prop where
  /-- The instructions run through. -/
  runs : TreadsHead w c f i n m
  /-- They lead there. -/
  iterate : (advance w)^[n] m = m'
  /-- They are counted. -/
  steps : m'.steps = m.steps + n
  /-- The copies are written. -/
  writing : Writing (loadAll ps d).2 v g (ts ++ (loadAll ps d).1) r m'
  /-- What is known. -/
  known : Known keys m'
  /-- Nothing is recorded. -/
  trail : (m'.frame f).trail = (m.frame f).trail

/-- One pattern and the ones behind it. -/
theorem Writes.cons (keys₁ : Set String) (hhead : InHead c f i m) (hblock : c.block? headLabel = some block)
    (hi : block[i]? = some instr) (hroom : Room w (n + 1) m)
    (hfirst : ∃ m', eval (execute w instr) (m.counted w instr) = (.ok (), m') ∧
      Adds p d v g ts r f (m.counted w instr) m')
    (hknown : ∀ m', Writing (p.load d).2 v g (ts ++ [(p.load d).1]) r m' → Known keys₁ m')
    (hrest : ∀ m', InHead c f (i + 1) m' → Writing (p.load d).2 v g (ts ++ [(p.load d).1]) r m' →
      Known keys₁ m' → Room w n m' →
      ∃ m'', Writes w c f (i + 1) n ps (p.load d).2 v g (ts ++ [(p.load d).1]) r keys' m' m'') :
    ∃ m'', Writes w c f i (n + 1) (p :: ps) d v g ts r keys' m m'' := by
  have hroom₁ : Room w 1 m := fun hpos => by
    have := hroom hpos
    omega
  -- The first argument is written; the others are written behind it.
  obtain ⟨m₁, heval, hadds⟩ := hfirst
  have hadvance : m.advance w = m₁ := by
    rw [hhead.advance_eq hblock hi hroom₁, perform_eq, heval]
  have hhead₁ : InHead c f (i + 1) m₁ := hhead.counted.stays hadds.stays
  have hsteps₁ : m₁.steps = m.steps + 1 := hadds.stays.steps
  obtain ⟨m'', hm''⟩ := hrest m₁ hhead₁ hadds.writing (hknown m₁ hadds.writing) fun hpos => by
    have := hroom hpos
    rw [hsteps₁]
    omega
  refine ⟨m'', ?_, ?_, ?_, ?_, hm''.known, hm''.trail.trans hadds.trail⟩
  · have hiter : (advance w)^[1] m = m₁ := hadvance
    rw [Nat.add_comm n 1]
    refine TreadsHead.append (.one hhead ?_ ?_) ?_
    · rw [hadvance]
      exact hhead₁
    · rw [hadvance]
      exact confined_counted.trans hadds.stays.confined
    · rw [hiter]
      exact hm''.runs
  · rw [Function.iterate_succ_apply, hadvance, hm''.iterate]
  · rw [hm''.steps, hsteps₁, Nat.add_assoc, Nat.add_comm 1 n]
  · have hwriting := hm''.writing
    rw [List.append_assoc] at hwriting
    exact hwriting

/-- **The code of parts of a structure that is not there writes copies of them.** -/
theorem writes_runs (hblock : c.block? headLabel = some block) (hcodes : Codes keys ps code keys') :
    ∀ {m : Machine} {i : Nat} {d : Scope} {ts : List Value}, InHead c f i m →
      Writing d v g ts r m → Known keys m → Segment block i code → Room w code.length m →
      ∃ m', Writes w c f i code.length ps d v g ts r keys' m m' := by
  -- The names that have values are those of the scope without the structure.
  have henv : ∀ {m : Machine} {d : Scope} {ts : List Value} {keys : Set String},
      Writing d v g ts r m → (Known keys m ↔ ∀ x, (d.env x).isSome ↔ x ∈ keys) := by
    intro m d ts keys h
    rw [Known, h.scope]
    exact Iff.rfl
  induction hcodes with
  | nil =>
    intro m i d ts hhead hwriting hknown _ _
    exact ⟨m, .zero hhead, rfl, rfl, by simpa [loadAll] using hwriting, hknown, rfl⟩
  | @first keys keys' ps instr code hop hx _ ih =>
    intro m i d ts hhead hwriting hknown hseg hroom
    have hf : m.current < m.frames.size := hhead.current ▸ hhead.frame
    have hkeys := (henv hwriting).1 hknown
    have hfree : d.env instr.name = none := by
      rw [← Option.not_isSome_iff_eq_none, hkeys]
      exact hx
    refine Writes.cons (insert instr.name keys) hhead hblock hseg.head hroom ?_
      (fun m' h' => (henv h').2 fun y => ?_)
      fun m' hhead' hwriting' hknown' hroom' => ih hhead' hwriting' hknown' hseg.tail hroom'
    · rw [hop]
      exact getVar_writes hwriting.counted hf hfree
    · rw [load, hfree, Set.mem_insert_iff, ← hkeys y]
      by_cases hy : y = instr.name <;> simp [Scope.put, Scope.withHeap, hy]
  | @again keys keys' ps instr code hop hx _ ih =>
    intro m i d ts hhead hwriting hknown hseg hroom
    have hkeys := (henv hwriting).1 hknown
    obtain ⟨t, ht⟩ := Option.isSome_iff_exists.1 ((hkeys _).2 hx)
    refine Writes.cons keys hhead hblock hseg.head hroom ?_ (fun m' h' => (henv h').2 fun y => ?_)
      fun m' hhead' hwriting' hknown' hroom' => ih hhead' hwriting' hknown' hseg.tail hroom'
    · rw [hop]
      exact getValue_writes hwriting.counted ht
    · rw [load, ht]
      exact hkeys y
  | @void keys keys' ps instr code hop _ ih =>
    intro m i d ts hhead hwriting hknown hseg hroom
    refine Writes.cons keys hhead hblock hseg.head hroom ?_
      (fun m' h' => (henv h').2 ((henv hwriting).1 hknown))
      fun m' hhead' hwriting' hknown' hroom' => ih hhead' hwriting' hknown' hseg.tail hroom'
    rw [hop]
    exact unifVoid_writes hwriting.counted
  | @const keys keys' ps instr code k hop hc _ ih =>
    intro m i d ts hhead hwriting hknown hseg hroom
    refine Writes.cons keys hhead hblock hseg.head hroom ?_
      (fun m' h' => (henv h').2 ((henv hwriting).1 hknown))
      fun m' hhead' hwriting' hknown' hroom' => ih hhead' hwriting' hknown' hseg.tail hroom'
    rw [hop]
    exact getConst_writes hwriting.counted hc

end Writes

/-! ## §6. Equations. -/

section Equations

variable {q : Equation} {own : Code} {v : VarId} {s : StructId} {k : Constant}

/-- As many trees are described as there are patterns. -/
theorem describesAll_length {θ : Assignment} {ps : List Pattern} {Ts : List Tree}
    (h : DescribesAll K θ ps Ts) : Ts.length = ps.length := by
  induction ps generalizing Ts with
  | nil =>
    obtain rfl : Ts = [] := h
    rfl
  | cons p ps ih =>
    obtain ⟨T, Us, rfl, -, hUs⟩ := h
    exact congrArg Nat.succ (ih hUs)

/-- An equation, for the machine that is about to solve it. -/
structure Solves (K : Set Constant) (P : Value → Prop) (c : Clause) (f : FrameId) (i : Nat)
    (keys : Set String) (q : Equation) (t : Value) (m : Machine) : Prop where
  /-- The head is run. -/
  head : InHead c f i m
  /-- All is in the part. -/
  sound : m.scope.Sound K P
  /-- What is known. -/
  known : Known keys m
  /-- The value in the register. -/
  value : m.scope.env (structRegister q.register) = some t
  /-- The structure was not decoded just before. -/
  other : m.register ≠ structRegister q.register
  /-- It has arguments. -/
  nonempty : q.args ≠ []
  /-- Its constants are known. -/
  full : FullAll K q.args

/-- The value is a structure. -/
theorem Solves.reads (h : Solves K P c f i keys q t m) (hK : Heap.EqualOn K)
    (hblock : c.block? headLabel = some block) (hcodes : Codes keys q.args own keys')
    (hseg : Segment block i (getStruct q.functor q.args.length q.register :: own))
    (hroom : Room w (1 + own.length) m) (hd : m.heap.deref t = .struct s) :
    Decides w K P c f i (1 + own.length) (q.Holds K)
      (fun m' => Known keys' m' ∧ m'.register = structRegister q.register) m := by
  have hin : m.heap.Inside P (.struct s) := hd ▸ h.sound.plain.inside_deref (h.sound.env _ t h.value)
  -- The tree in the register is that of the structure.
  have htree : ∀ ρ θ, m.scope.Models K ρ θ → θ (structRegister q.register) =
      .node (m.heap.structCell s).name ((m.heap.structCell s).args.map (m.heap.tree K ρ)) := by
    intro ρ θ hm
    rw [← hm.names _ t h.value, ← Heap.tree_deref h.sound.plain.good hm.respects t,
      show m.scope.heap.deref t = .struct s from hd, Heap.tree_struct]
    rfl
  have hroom₁ : Room w 1 m := fun hpos => by
    have := hroom hpos
    omega
  let Γ : Assignment → Prop := fun θ => ∃ Ts : List Tree,
    θ (structRegister q.register) = .node q.functor Ts ∧ Ts.length = q.args.length
  let m₀ := m.counted w (getStruct q.functor q.args.length q.register)
  have hone : Decides w K P c f i 1 Γ (fun m' => Reading s 0 (structRegister q.register) m' ∧
      Known keys m' ∧ (m'.heap.structCell s).args.length = q.args.length) m := by
    refine .one h.head hblock hseg.head hroom₁ ?_
    show Performed K P f Γ _ m₀ (eval (Exec.getStruct _) m₀)
    rw [eval_getStruct_read (m := m₀) (i := getStruct q.functor q.args.length q.register)
      (.inr h.other) h.value hd rfl]
    split
    · next hdiffers =>
      refine .mismatch (.of_frames ⟨rfl, rfl, rfl, rfl, rfl, rfl, rfl⟩ rfl ⟨rfl, rfl, rfl, rfl⟩ rfl)
        (.refl m.scope) fun ρ θ hm hΓ => ?_
      obtain ⟨Ts, hnode, hlength⟩ := hΓ
      rw [htree ρ θ hm] at hnode
      obtain ⟨hname, rfl⟩ := Tree.node_inj hnode
      rw [List.length_map] at hlength
      exact hdiffers.elim (· hname) (· (congrArg Int.ofNat hlength))
    · next hmatch =>
      rw [not_or, not_not, not_not] at hmatch
      have hlength : (m.heap.structCell s).args.length = q.args.length := Int.ofNat.inj hmatch.2
      refine .ok (.of_frames ⟨rfl, rfl, rfl, rfl, rfl, rfl, rfl⟩ rfl ⟨rfl, rfl, rfl, rfl⟩ rfl)
        (.refl h.sound fun ρ θ hm => ?_)
        (.of_same rfl fun _ => rfl) ⟨⟨rfl, rfl, rfl, rfl⟩, h.known, hlength⟩
      refine ⟨(m.heap.structCell s).args.map (m.heap.tree K ρ), (htree ρ θ hm).trans ?_, ?_⟩
      · exact congrArg (fun g => Tree.node g _) hmatch.1
      · rw [List.length_map, hlength]
  refine Decides.trans (fun θ => DescribesAll K θ q.args (θ (structRegister q.register)).parts) hone
    h.sound (fun m' _ _ hhead hanswers hsteps hQ => ?_) fun ρ θ hm => ?_
  · have hcell : m'.heap.structCell s = m.heap.structCell s := hanswers.grows.heap.cells s hin.1
    have h' : ReadsAll K P c f (i + 1) keys s 0 (structRegister q.register)
        (m'.heap.structCell s).args m' :=
      ⟨hhead, hanswers.sound, hQ.2.1, hQ.1, hanswers.grows.heap.inside hin, List.drop_zero⟩
    refine reads_decides hK hblock hcodes h' hQ.2.2 h.full (fun ρ θ hm => ?_) hseg.tail fun hpos => ?_
    · rw [htree ρ θ (hanswers.grows.models h.sound hm), Tree.parts_node, hcell]
      refine List.map_congr_left fun a ha => ?_
      exact hanswers.grows.heap.tree h.sound.plain.good (h.sound.plain.good.args s a ha) fun _ _ => rfl
    · have := hroom hpos
      rw [hsteps]
      omega
  · constructor
    · rintro ⟨Ts, hnode, hTs⟩
      refine ⟨⟨Ts, hnode, describesAll_length hTs⟩, ?_⟩
      simp only [hnode, Tree.parts_node]
      exact hTs
    · rintro ⟨⟨Ts, hnode, -⟩, hTs⟩
      rw [hnode, Tree.parts_node] at hTs
      exact ⟨Ts, hnode, hTs⟩

/-- The structure for an unbound variable is begun. -/
theorem getStruct_writes (instr : Instruction) (hhead : InHead c f i m) (hs : m.scope.Sound K P)
    (hother : m.register ≠ instr.register) (ht : m.scope.env instr.register = some t)
    (hd : m.heap.deref t = .var v) :
    ∃ m', eval (Exec.getStruct instr) m = (.ok (), m') ∧ Stays m m' ∧
      Writing m.scope v instr.functor [] instr.register m' ∧
      (m'.frame f).trail = v :: (m.frame f).trail := by
  have hfree := hs.plain.good.binding?_of_deref hd
  have hlt : v < m.heap.vars.size := by
    have hheld := hs.plain.good.holds_deref (hs.env _ t ht).1
    rwa [show m.scope.heap.deref t = .var v from hd] at hheld
  have heval := eval_getStruct_write (.inr hother) ht hd hfree
  rw [bindVar_eq (m := { m with heap := (m.heap.newStruct instr.functor [] .none).2 }) hhead.top] at heval
  have hstays := record_stays (hhead.current.symm ▸ hhead.top) (m.heap.written v instr.functor []) [v]
  refine ⟨_, heval, ⟨⟨hstays.code, hstays.label, hstays.index, hstays.current, hstays.stack, hstays.frames,
    hstays.steps⟩, hstays.success, ⟨hstays.confined.flags.asked, hstays.confined.flags.error,
    hstays.confined.flags.ended, hstays.confined.flags.exhausted⟩, hstays.confined.current,
    hstays.confined.stack, hstays.confined.size, hstays.confined.others, hstays.confined.fields⟩,
    ⟨rfl, rfl, rfl, ?_, hlt⟩, ?_⟩
  · exact scope_trailAll (m := { m with heap := m.heap.written v instr.functor [] })
  · exact trail_trailAll (m := { m with heap := m.heap.written v instr.functor [] }) hhead.top hhead.frame

/-- The value is an unbound variable. -/
theorem Solves.writes (h : Solves K P c f i keys q t m) (hblock : c.block? headLabel = some block)
    (hcodes : Codes keys q.args own keys')
    (hseg : Segment block i (getStruct q.functor q.args.length q.register :: own))
    (hroom : Room w (1 + own.length) m) (hd : m.heap.deref t = .var v) :
    Decides w K P c f i (1 + own.length) (q.Holds K)
      (fun m' => Known keys' m' ∧ m'.register = structRegister q.register) m := by
  have hroom₁ : Room w 1 m := fun hpos => by
    have := hroom hpos
    omega
  obtain ⟨m₁, heval, hstays, hwriting, htrail⟩ := getStruct_writes
    (m := m.counted w (getStruct q.functor q.args.length q.register))
    (getStruct q.functor q.args.length q.register) h.head.counted h.sound h.other h.value hd
  have hadvance : m.advance w = m₁ := by
    rw [h.head.advance_eq hblock hseg.head hroom₁, perform_eq]
    have heval' : eval (execute w (getStruct q.functor q.args.length q.register))
        (m.counted w (getStruct q.functor q.args.length q.register)) = (.ok (), m₁) := heval
    rw [heval']
  have hhead₁ : InHead c f (i + 1) m₁ := h.head.counted.stays hstays
  have hsteps₁ : m₁.steps = m.steps + 1 := hstays.steps
  have hwriting : Writing m.scope v q.functor [] (structRegister q.register) m₁ := hwriting
  obtain ⟨m', hm'⟩ := writes_runs hblock hcodes hhead₁ hwriting
    (h.known.of_env hwriting.env) hseg.tail fun hpos => by
      have := hroom hpos
      rw [hsteps₁]
      omega
  have hiter : (advance w)^[1 + own.length] m = m' := by
    rw [Nat.add_comm, Function.iterate_succ_apply, hadvance, hm'.iterate]
  have hruns : TreadsHead w c f i (1 + own.length) m := by
    refine TreadsHead.append (.one h.head ?_ ?_) ?_
    · rw [hadvance]
      exact hhead₁
    · rw [hadvance]
      exact confined_counted.trans hstays.confined
    · rw [show (advance w)^[1] m = m₁ from hadvance]
      exact hm'.runs
  -- The structure is complete: it is a copy of the right side of the equation.
  have hload := load_loads (.struct q.functor q.args) (c := m.scope) ⟨h.nonempty, h.full⟩ h.sound
  have hanswers := h.sound.written h.value hd hload nofun rfl
  have hscope : m'.scope = (((Pattern.struct q.functor q.args).load m.scope).2.withHeap
      (((Pattern.struct q.functor q.args).load m.scope).2.heap.set v
        ((Pattern.struct q.functor q.args).load m.scope).1)) := hm'.writing.scope
  refine .runs hruns ?_ ?_ ?_ ?_ <;> rw [hiter]
  · rw [hscope]
    exact hanswers
  · have htrail' : (m'.frame f).trail = v :: (m.frame f).trail := hm'.trail.trans htrail
    refine ⟨fun u hu => by rw [htrail']; exact List.mem_cons_of_mem _ hu, fun u hu hbound => ?_⟩
    have huv : u = v := by
      by_contra hne
      have hlt : v < ((Pattern.struct q.functor q.args).load m.scope).2.heap.vars.size :=
        hwriting.lt.trans_le hload.grows.heap.vars
      have hother : m'.heap.binding? u = m.heap.binding? u := by
        rw [show m'.heap = _ from congrArg Scope.heap hscope]
        simp only [Scope.withHeap, Heap.binding?_set hlt, if_neg hne]
        exact hload.free u
      exact hbound (hother.trans hu)
    rw [htrail', huv]
    exact List.mem_cons_self ..
  · rw [hm'.steps, hsteps₁, Nat.add_assoc]
  · exact ⟨hm'.known, hm'.writing.register⟩

/-- The value is a constant: no structure with arguments. -/
theorem Solves.fails (h : Solves K P c f i keys q t m) (hblock : c.block? headLabel = some block)
    (hseg : Segment block i (getStruct q.functor q.args.length q.register :: own))
    (hroom : Room w (1 + own.length) m) (hd : m.heap.deref t = .const k) {Q : Machine → Prop} :
    Decides w K P c f i (1 + own.length) (q.Holds K) Q m := by
  have hroom₁ : Room w 1 m := fun hpos => by
    have := hroom hpos
    omega
  have harity : (q.args.length : Int) ≠ 0 := by
    simpa using h.nonempty
  -- A structure with arguments is no constant, so no assignment solves the equation.
  have hrefutes : m.scope.Refutes K (q.Holds K) := by
    rintro ρ θ hm ⟨Ts, hnode, -⟩
    rw [← hm.names _ t h.value, ← Heap.tree_deref h.sound.plain.good hm.respects t,
      show m.scope.heap.deref t = .const k from hd, Heap.tree_const] at hnode
    exact Heap.leaf_ne_node hnode
  have hone : Decides w K P c f i 1 (q.Holds K) (fun _ => False) m := by
    refine .one h.head hblock hseg.head hroom₁ ?_
    let m₀ := m.counted w (getStruct q.functor q.args.length q.register)
    show Performed K P f _ _ m₀ (eval (Exec.getStruct _) m₀)
    rw [eval_getStruct_const (m := m₀) (i := getStruct q.functor q.args.length q.register)
      (.inr h.other) h.value hd, if_pos (.inl harity)]
    exact .mismatch (.of_frames ⟨rfl, rfl, rfl, rfl, rfl, rfl, rfl⟩ rfl ⟨rfl, rfl, rfl, rfl⟩ rfl)
      (.refl m.scope) hrefutes
  cases hone with
  | runs _ _ _ _ hQ => exact hQ.elim
  | fails hfails _ => exact .fails (hfails.append_left own.length) hrefutes

/-- **The code of an equation decides it.** -/
theorem Solves.decides (h : Solves K P c f i keys q t m) (hK : Heap.EqualOn K)
    (hblock : c.block? headLabel = some block) (hcodes : Codes keys q.args own keys')
    (hseg : Segment block i (getStruct q.functor q.args.length q.register :: own))
    (hroom : Room w (1 + own.length) m) :
    Decides w K P c f i (1 + own.length) (q.Holds K)
      (fun m' => Known keys' m' ∧ m'.register = structRegister q.register) m := by
  cases hd : m.heap.deref t with
  | var v => exact h.writes hblock hcodes hseg hroom hd
  | struct s => exact h.reads hK hblock hcodes hseg hroom hd
  | const k => exact h.fails hblock hseg hroom hd
  | absent =>
    have hheld := h.sound.plain.good.holds_deref (h.sound.env _ t h.value).1
    rw [show m.scope.heap.deref t = .absent from hd] at hheld
    exact hheld.elim

/-- **The code of a system of equations decides it.** -/
theorem equations_decide {qs : List Equation} (hK : Heap.EqualOn K)
    (hblock : c.block? headLabel = some block) (hcode : Equation.Code keys qs code keys') :
    ∀ {m : Machine} {i : Nat}, InHead c f i m → m.scope.Sound K P → Known keys m →
      (∀ q ∈ qs, m.register ≠ structRegister q.register) → (qs.map Equation.register).Nodup →
      (∀ q ∈ qs, q.args ≠ [] ∧ FullAll K q.args) → Segment block i code → Room w code.length m →
      Decides w K P c f i code.length (fun θ => ∀ q ∈ qs, q.Holds K θ) (Known keys') m := by
  induction hcode with
  | nil =>
    intro m i hhead hs hknown _ _ _ _ _
    -- No equation is left.
    exact .zero hhead hs (fun _ _ _ => by simp) hknown
  | @cons keys keys₁ keys' q qs own code hr hcodes _ ih =>
    intro m i hhead hs hknown hother hnodup hfull hseg hroom
    -- The first equation belongs to a register of its own, so the others still find theirs as they were.
    obtain ⟨hfresh, hnodup⟩ := List.nodup_cons.1 (show (q.register :: _).Nodup from hnodup)
    obtain ⟨hne, hargs⟩ := hfull q (List.mem_cons_self ..)
    obtain ⟨t, ht⟩ := Option.isSome_iff_exists.1 ((hknown _).2 hr)
    have hsolves : Solves K P c f i keys q t m :=
      ⟨hhead, hs, hknown, ht, hother q (List.mem_cons_self ..), hne, hargs⟩
    have hlength : (getStruct q.functor q.args.length q.register :: (own ++ code)).length =
        1 + own.length + code.length := by
      simp only [List.length_cons, List.length_append]
      omega
    rw [hlength] at hroom ⊢
    have hseg' : Segment block i ((getStruct q.functor q.args.length q.register :: own) ++ code) := hseg
    -- The first equation is decided; where it holds the others are decided behind it.
    have hfirst := hsolves.decides (w := w) hK hblock hcodes hseg'.left fun hpos => by
      have := hroom hpos
      omega
    refine Decides.trans (fun θ => ∀ q ∈ qs, q.Holds K θ) hfirst hs
      (fun m' _ _ hhead' hanswers hsteps hQ => ?_) fun ρ θ _ => by simp
    have hseg'' := hseg'.right
    rw [List.length_cons, Nat.add_comm own.length 1] at hseg''
    refine ih hhead' hanswers.sound hQ.1 (fun q' hq' heq => ?_) hnodup
      (fun q' hq' => hfull q' (List.mem_cons_of_mem _ hq')) hseg'' fun hpos => ?_
    · rw [hQ.2, structRegister_inj] at heq
      exact hfresh (List.mem_map.2 ⟨q', hq', heq.symm⟩)
    · have := hroom hpos
      rw [hsteps]
      omega

end Equations

end Machine

end PrologMachine
