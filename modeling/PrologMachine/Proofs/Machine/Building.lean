/-
  PrologMachine.Proofs.Machine.Building ── **BUILDING A GOAL.**

  Between the instruction that pushes the frame of a call and the one that sets the call up, the goal is
  built.

    * `CallCode`: code that builds a goal and calls it; `Clause.At.exists_callCode`: in sound code a goal
      under construction is called.
    * `Furnishing.execute`: the instructions that build it touch cells and variables only.
-/
import PrologMachine.Proofs.Machine.Stretch

namespace PrologMachine

variable {admits : Signature → Bool} {i : Instruction} {p : Phase} {s : Signature}

/-! ## §1. The code that calls a goal. -/

/-- The instruction asks whether a call has succeeded. -/
def Opcode.asks : Opcode → Bool
  | .maybeRetry | .maybeRetryN => true
  | _ => false

/-- Instructions that build do not ask. -/
theorem Opcode.asks_of_puts {op : Opcode} (h : op.puts = true) : op.asks = false := by
  cases op <;> first | rfl | cases h

theorem Phase.of_build {regs : List String} {begun : Option (String × Signature)} {left : Nat}
    (h : (Phase.build regs begun left).next admits i = some p) :
    (i.op.puts = true ∧ ∃ regs' begun' left', p = .build regs' begun' left') ∨
      (i.op = .setup ∧ ∃ s, p = .ready s) := by
  -- Passing an argument leads to the same kind of phase.
  have hpassed : ∀ {ok : Bool}, Phase.passed regs begun left ok = some p →
      ∃ regs' begun' left', p = .build regs' begun' left' := fun hp => by
    obtain ⟨-, n, -, rfl⟩ := Phase.passed_eq_some hp
    exact ⟨regs, begun, n, rfl⟩
  simp only [Phase.next, Phase.nextBuild] at h
  split at h
  · next hop =>
    split at h
    · exact .inl ⟨by rw [hop]; rfl, _, _, _, (Option.some.inj h).symm⟩
    · cases h
  · next hop => exact .inl ⟨by rw [hop]; rfl, hpassed h⟩
  · next hop => exact .inl ⟨by rw [hop]; rfl, hpassed h⟩
  · next hop => exact .inl ⟨by rw [hop]; rfl, hpassed h⟩
  · next hop => exact .inl ⟨by rw [hop]; rfl, hpassed h⟩
  · next hop => exact .inl ⟨by rw [hop]; rfl, hpassed h⟩
  · next hop => exact .inl ⟨by rw [hop]; rfl, hpassed h⟩
  · next hop =>
    split at h
    · split at h
      · exact .inr ⟨hop, _, (Option.some.inj h).symm⟩
      · cases h
    · cases h
  · cases h

/-- A ready goal is called next. -/
theorem Phase.of_ready (h : (Phase.ready s).next admits i = some p) :
    i.calls ∧ p = .returned s := by
  simp only [Phase.next] at h
  split at h
  · next hcalls => exact ⟨hcalls, (Option.some.inj h).symm⟩
  · cases h

/-- A call is followed by an instruction that asks for its outcome. -/
theorem Phase.asks_of_returned (h : (Phase.returned s).next admits i = some p) :
    i.op.asks = true := by
  simp only [Phase.next] at h
  split at h
  · next hop =>
    rcases hop with hop | hop
    · rw [hop]
      rfl
    · rw [hop]
      rfl
  · cases h

/-- From instruction `j` on the block builds a goal with `n` instructions, sets up its call, makes it and asks
    with `o` for the outcome. -/
structure CallCode (block : Code) (j n : Nat) (o : Instruction) : Prop where
  /-- The goal is built. -/
  puts : ∀ k, k < n → ∃ i : Instruction, block[j + k]? = some i ∧ i.op.puts = true
  /-- The call is set up. -/
  setup : ∃ i : Instruction, block[j + n]? = some i ∧ i.op = .setup
  /-- It is made. -/
  call : ∃ i : Instruction, block[j + n + 1]? = some i ∧ i.calls
  /-- The outcome. -/
  outcome : block[j + n + 2]? = some o
  /-- It is asked for. -/
  asks : o.op.asks = true

variable {c : Clause} {block : Code} {label : String} {j n : Nat} {o : Instruction}

/-- The next instruction that asks does not depend on one that does not. -/
theorem find?_asks_drop (hi : block[j]? = some i) (h : i.op.asks = false) :
    (block.drop j).find? (·.op.asks) = (block.drop (j + 1)).find? (·.op.asks) := by
  obtain ⟨hj, rfl⟩ := List.getElem?_eq_some_iff.1 hi
  rw [List.drop_eq_getElem_cons hj, List.find?_cons, h]

namespace CallCode

/-- One more instruction builds the goal. -/
theorem cons (h : CallCode block (j + 1) n o) (hi : block[j]? = some i) (hputs : i.op.puts = true) :
    CallCode block j (n + 1) o := by
  have hshift : ∀ k, j + 1 + k = j + (k + 1) := fun k => by omega
  exact {
    puts := fun k hk => by
      cases k with
      | zero => exact ⟨i, hi, hputs⟩
      | succ k => exact hshift k ▸ h.puts k (Nat.lt_of_succ_lt_succ hk)
    setup := hshift n ▸ h.setup
    call := hshift n ▸ h.call
    outcome := hshift n ▸ h.outcome
    asks := h.asks }

/-- No other outcome is asked for before. -/
theorem find?_eq (h : CallCode block j n o) : (block.drop j).find? (·.op.asks) = some o := by
  induction n generalizing j with
  -- Behind the last argument come `setup` and the call, which do not ask either.
  | zero =>
    obtain ⟨i, hi, hsetup⟩ := h.setup
    obtain ⟨i', hi', hcalls⟩ := h.call
    have hasks : i.op.asks = false := by
      rw [hsetup]
      rfl
    have hasks' : i'.op.asks = false := by
      rcases hcalls with hop | hop
      · rw [hop]
        rfl
      · rw [hop]
        rfl
    obtain ⟨hj, ho⟩ := List.getElem?_eq_some_iff.1 h.outcome
    rw [find?_asks_drop (j := j) hi hasks, find?_asks_drop (j := j + 1) hi' hasks',
      List.drop_eq_getElem_cons hj, ho]
    exact List.find?_cons_of_pos h.asks
  | succ n ih =>
    -- The first instruction builds and does not ask, so the search may begin behind it.
    obtain ⟨i, hi, hputs⟩ := h.puts 0 (Nat.succ_pos n)
    have hshift : ∀ k, j + (k + 1) = j + 1 + k := fun k => by omega
    rw [find?_asks_drop (j := j) hi (Opcode.asks_of_puts hputs)]
    exact ih {
      puts := fun k hk => hshift k ▸ h.puts (k + 1) (Nat.succ_lt_succ hk)
      setup := hshift n ▸ h.setup
      call := hshift n ▸ h.call
      outcome := hshift n ▸ h.outcome
      asks := h.asks }

end CallCode

/-- **A goal under construction is called.** -/
theorem Clause.At.exists_callCode {regs : List String} {begun : Option (String × Signature)} {left : Nat}
    (h : c.At admits label j (.build regs begun left)) (hsound : c.Sound admits)
    (hfound : c.block? label = some block) : ∃ n o, CallCode block j n o := by
  have hnext : ∀ {j : Nat} {p : Phase}, c.At admits label j p → ¬ p.Final →
      ∃ i p', block[j]? = some i ∧ p.next admits i = some p' ∧ c.At admits label (j + 1) p' := by
    intro j p hat hp
    obtain ⟨code, i, p', hcode, hi, hstep, hat'⟩ := hat.next hsound hp
    obtain rfl := Option.some.inj (hfound.symm.trans hcode)
    exact ⟨i, p', hi, hstep, hat'⟩
  -- The rest of the block gets shorter.
  induction hlen : block.length - j generalizing j regs begun left with
  | zero =>
    obtain ⟨i, -, hi, -, -⟩ := hnext h (by simp [Phase.Final])
    have hj := (List.getElem?_eq_some_iff.1 hi).1
    omega
  | succ len ih =>
    obtain ⟨i, p', hi, hstep, hat⟩ := hnext h (by simp [Phase.Final])
    rcases Phase.of_build hstep with ⟨hputs, regs', begun', left', rfl⟩ | ⟨hsetup, s, rfl⟩
    · obtain ⟨n, o, hrest⟩ := ih hat (by omega)
      exact ⟨n + 1, o, hrest.cons hi hputs⟩
    · obtain ⟨i₁, p₁, hi₁, hstep₁, hat₁⟩ := hnext hat (by simp [Phase.Final])
      obtain ⟨hcalls, rfl⟩ := Phase.of_ready hstep₁
      obtain ⟨o, p₂, ho, hstep₂, -⟩ := hnext hat₁ (by simp [Phase.Final])
      exact ⟨0, o, fun k hk => (Nat.not_lt_zero k hk).elim, ⟨i, hi, hsetup⟩, ⟨i₁, hi₁, hcalls⟩, ho,
        Phase.asks_of_returned hstep₂⟩

/-- The code of a goal is such code. -/
theorem exists_callCode_of_segment {isNative : Signature → Bool} {g : Goal} {negated : Bool} {e : Emitter}
    (h : Machine.Segment block j ((callGoal isNative g negated).eval e).1) :
    block[j]? = some { op := .allocate } ∧
      ∃ n, CallCode block (j + 1) n { op := if negated then .maybeRetryN else .maybeRetry } := by
  -- A native predicate is called by another instruction; the rest of the code is one and the same.
  obtain ⟨enter, henter, heq⟩ : ∃ enter : Opcode, (enter = .call ∨ enter = .bcall) ∧
      ((callGoal isNative g negated).eval e).1 = ({ op := .allocate } : Instruction) ::
        (((buildGoal g).eval e).1 ++ [{ op := .setup }, { op := enter },
          { op := if negated then .maybeRetryN else .maybeRetry }, { op := .deallocate }]) := by
    refine ⟨if g.attrs.has .builtin || isNative g.signature then .bcall else .call, ?_, by simp [callGoal]⟩
    split
    · exact .inr rfl
    · exact .inl rfl
  rw [heq] at h
  have hrest := h.tail
  have hbehind := hrest.right
  refine ⟨h.head, ((buildGoal g).eval e).1.length, fun k hk => ?_, ⟨_, hbehind.head, rfl⟩,
    ⟨{ op := enter }, hbehind.tail.head, henter⟩, hbehind.tail.tail.head, ?_⟩
  · exact ⟨_, hrest.left.get (List.getElem?_eq_getElem hk), buildGoal_puts g e _ (List.getElem_mem hk)⟩
  · cases negated
    · rfl
    · rfl

namespace Machine

open Exec

variable {w : World} {m m' m'' : Machine}

/-! ## §2. What building touches. -/

/-- Only cells, variables and what is under construction change. -/
structure Furnishes (m m' : Machine) : Prop where
  /-- Other fields stay. -/
  fields : m' = { m with heap := m'.heap, frames := m'.frames, building := m'.building }
  /-- No frame is made. -/
  size : m'.frames.size = m.frames.size
  /-- Frames change in their variables only. -/
  frames : ∀ f, { m'.frame f with vars := [] } = { m.frame f with vars := [] }

namespace Furnishes

protected theorem refl (m : Machine) : Furnishes m m := ⟨rfl, rfl, fun _ => rfl⟩

protected theorem trans (h : Furnishes m m') (h' : Furnishes m' m'') : Furnishes m m'' where
  fields := by
    rw [h'.fields, h.fields]
  size := h'.size.trans h.size
  frames f := (h'.frames f).trans (h.frames f)

theorem heap (m : Machine) (h' : Heap) : Furnishes m { m with heap := h' } := ⟨rfl, rfl, fun _ => rfl⟩

theorem put (m : Machine) (f : FrameId) (x : String) (t : Value) :
    Furnishes m (m.changeFrame f (·.put x t)) where
  fields := rfl
  size := frames_size_changeFrame
  frames _ := frame_changeFrame_field (fun fr => { fr with vars := [] }) fun fr => vars_put fr x t

end Furnishes

/-- The action does no more, even where it stops with an error. -/
def Furnishing {α : Type} (x : Exec α) : Prop := ∀ m, Furnishes m (eval x m).2

namespace Furnishing

variable {α β : Type} {x : Exec α} {y : α → Exec β} {name : String} {t : Value}

theorem pure (a : α) : Furnishing (Pure.pure a : Exec α) := fun m => .refl m

/-- An error builds nothing. -/
theorem stop (e : RunError) : Furnishing (Exec.stop e : Exec α) := fun m => .refl m

theorem bind (hx : Furnishing x) (hy : ∀ a, Furnishing (y a)) : Furnishing (x >>= y) := by
  intro m
  have h := hx m
  rw [eval_bind]
  rcases heval : eval x m with ⟨e | a, m'⟩
  · rw [heval] at h
    exact h
  · rw [heval] at h
    exact h.trans (hy a m')

theorem get : Furnishing (MonadState.get : Exec Machine) := fun m => .refl m

theorem fresh (name : String) : Furnishing (Exec.fresh name) := fun m => .heap m _

theorem newStruct (name : String) : Furnishing (Exec.newStruct name) := fun m => .heap m _

/-- Giving a structure an argument. -/
theorem pushArg (s : StructId) (t : Value) : Furnishing (Exec.pushArg s t) := fun m => .heap m _

/-- Naming a value in the current frame. -/
theorem changeCurrent (x : String) (t : Value) : Furnishing (Exec.changeCurrent (·.put x t)) :=
  fun m => .put m m.current x t

theorem target (op : Opcode) : Furnishing (Exec.target op) := by
  refine get.bind fun m => ?_
  split
  · exact pure _
  · exact stop _

theorem putArg (t : Value) : Furnishing (Exec.putArg t) := by
  refine get.bind fun m => ?_
  split
  · exact pushArg _ t
  · exact stop _

theorem putStruct (i : Instruction) : Furnishing (Exec.putStruct i) := by
  refine (target i.op).bind fun f => (newStruct i.functor).bind fun s => ?_
  intro m
  have hbuilding : Furnishes m { m with building := some s } := ⟨rfl, rfl, fun _ => rfl⟩
  exact hbuilding.trans (.put _ f i.register (.struct s))

/-- Passing a new variable. -/
theorem putVar (name : String) : Furnishing (Exec.putVar name) :=
  (fresh name).bind fun v => (changeCurrent name v).bind fun _ => putArg v

/-- Passing a variable without a name. -/
theorem putVoid : Furnishing Exec.putVoid := (fresh "_").bind putArg

/-- Reading or making a variable. -/
theorem lookup (name : String) : Furnishing (Exec.lookup name) := by
  have hcurrent : Furnishing Exec.current := get.bind fun m => pure _
  refine hcurrent.bind fun fr => ?_
  split
  · exact pure _
  · exact (fresh name).bind fun v => (changeCurrent name v).bind fun _ => pure v

/-- Passing a structure or the value of a variable. -/
theorem putValue (i : Instruction) : Furnishing (Exec.putValue i) := by
  unfold Exec.putValue
  split
  · refine (target i.op).bind fun f => get.bind fun m => ?_
    split
    · exact putArg _
    · exact stop _
  · exact (lookup i.name).bind putArg

theorem putConst (i : Instruction) : Furnishing (Exec.putConst i) := by
  unfold Exec.putConst
  split
  · exact putArg _
  · exact stop _

/-- **Building a goal touches cells and variables only.** -/
theorem execute (w : World) (hputs : i.op.puts = true) : Furnishing (Exec.execute w i) := by
  have hop : i.op = .putStruct ∨ i.op = .putVar ∨ i.op = .putVoid ∨ i.op = .putValue ∨ i.op = .putTerm ∨
      i.op = .putNumber ∨ i.op = .putNil := by
    revert hputs
    cases i.op <;> simp [Opcode.puts]
  rcases hop with hop | hop | hop | hop | hop | hop | hop
  · simp only [Exec.execute, hop]
    exact putStruct i
  · simp only [Exec.execute, hop]
    exact putVar i.name
  · simp only [Exec.execute, hop]
    exact putVoid
  · simp only [Exec.execute, hop]
    exact putValue i
  · simp only [Exec.execute, hop]
    exact putConst i
  · simp only [Exec.execute, hop]
    exact putConst i
  · simp only [Exec.execute, hop]
    exact putConst i

end Furnishing

/-- An action without an error leaves its machine. -/
theorem perform_eq_ok {m : Machine} {x : Exec Unit} (h : eval x m = (.ok (), m')) : m.perform x = m' := by
  rw [perform_eq, h]

/-- What is left after building goes on, when there is no error. -/
theorem Furnishing.perform {x : Exec Unit} (hx : Furnishing x) (hm : m.error = none)
    (herror : (m.perform x).error = none) : Furnishes m (m.perform x) := by
  have h := hx m
  rcases heval : eval x m with ⟨e | ⟨⟩, m'⟩
  · rw [heval] at h
    rw [perform_eq, heval] at herror
    have hfields : m' = _ := h.fields
    have hnone : m'.error = none := by
      rw [hfields]
      exact hm
    have hfault : (m'.fault e).error = none := herror
    rw [fault_eq hnone] at hfault
    cases hfault
  · rw [heval] at h
    rwa [perform_eq_ok heval]

end Machine

end PrologMachine
