/-
  PrologMachine.Proofs.Machine.Instructions ── **INSTRUCTIONS THAT STAY IN THEIR CLAUSE.**

  Decoding a head, building a goal and evaluating an expression change variables, cells and the top
  trail.  In the phase in which the discipline of code allows them they find what they need, and
  leave what the next phase promises, unless the head does not match or an operand is no number.

    * `Performs` lists the ways in which such an instruction can end.
    * `head_performs`, `build_performs`, `operands_performs`: one theorem for each phase.
-/
import PrologMachine.Proofs.Machine.Discipline

namespace PrologMachine

/-- The codes of errors that a program may cause: an unknown predicate, an evaluation into what is
    no variable, an operand that is no number, a division by zero, and too many steps. -/
def permittedCodes : List String := ["D0101", "M0104", "M0107", "M0108", "M0110"]

/-- The error may be caused by a program, or comes from a native predicate. -/
def Error.Permitted (e : Error) : Prop :=
  (∃ code ∈ permittedCodes, e.code? = some code) ∨
    ∃ (s : Signature) (text : String), Registry.core.contains s = true ∧
      e = .within ("builtin " ++ s.text) (.external text)

namespace Machine

open Exec

variable {admits : Signature → Bool} {kb : KnowledgeBase} {q : Clause} {w : World}
  {m m' : Machine} {i : Instruction} {f : FrameId} {s : StructId} {t : Value} {p : Phase}
  {pending regs : List String} {last name : String} {left n j : Nat}
  {begun : Option (String × Signature)}

/-- How an instruction that stays in its clause can end when the phase behind it is `p`. -/
inductive Performs (admits : Signature → Bool) (kb : KnowledgeBase) (q : Clause) (m : Machine)
    (p : Phase) : Except Error Unit × Machine → Prop where
  /-- The next instruction follows. -/
  | go {m' : Machine} (n : Nat) (ht : Tame n m m') (hindex : m'.index = m.index)
    (hfit : ∀ i, Fits admits kb q m' i p) : Performs admits kb q m p (.ok (), m')
  /-- The head does not match. -/
  | mismatch {m' : Machine} (hc : Control admits kb q m m.depth) (ht : Tame m.depth m m') :
    Performs admits kb q m p (eval headFail m')
  /-- The goal fails. -/
  | failure {m' : Machine} (hc : Control admits kb q m m.depth) (ht : Tame m.depth m m') :
    Performs admits kb q m p (eval Exec.failure m')
  /-- The program is at fault. -/
  | stop {e : Error} {m' : Machine} (he : e.Permitted) (herror : m'.error = m.error)
    (hgood : m'.heap.Good) : Performs admits kb q m p (.error e, m')

/-! ## §1. Heads. -/

/-- While code runs the stack is not empty. -/
theorem Control.exists_top (hc : Control admits kb q m n) : ∃ f, m.top? = some f := by
  have hne : m.stack.size ≠ 0 := by
    intro h
    have := hc.bottom
    rw [Array.getElem?_eq_none (by omega)] at this
    cases this
  cases h : m.top? with
  | none => exact absurd (by simpa [top?] using h) hne
  | some f => exact ⟨f, rfl⟩

/-- The current frame is one of those that were made. -/
theorem Control.current_lt (hm : m.Memory) (hc : Control admits kb q m n) :
    m.current < m.frames.size := by
  obtain ⟨j, -, hj⟩ := hc.current
  apply hm.stackBounded
  rw [← Array.getElem?_toList] at hj
  exact List.mem_of_getElem? hj

/-- What is decoded next, in a phase that decodes arguments. -/
theorem Decodes.cases (h : Decodes m last (n + 1)) :
    m.register = last ∧ ∃ s, m.decoding = some s ∧
      ((m.mode = .write ∧ s + 1 = m.heap.structs.size ∧ Sealed m m.depth s) ∨
        (m.mode = .read ∧ m.argument + n + 1 = (m.heap.structCell s).args.length ∧
          ∃ t, (m.heap.structCell s).args[m.argument]? = some t)) := by
  rcases h with ⟨-, h⟩ | ⟨hreg, s, hs, hmode⟩
  · omega
  · refine ⟨hreg, s, hs, ?_⟩
    cases hm : m.mode with
    | write =>
      simp only [hm] at hmode
      exact .inl ⟨rfl, hmode⟩
    | read =>
      simp only [hm] at hmode
      have hlt : m.argument < (m.heap.structCell s).args.length := by omega
      exact .inr ⟨rfl, by omega, _, List.getElem?_eq_getElem hlt⟩

/-- The arguments that code decodes exist. -/
theorem Memory.holds_arg (hm : m.Memory) {a : Nat}
    (ht : (m.heap.structCell s).args[a]? = some t) : m.heap.Holds t :=
  hm.good.args s t (List.mem_of_getElem? ht)

/-- One more argument written. -/
theorem Decodes.written (hs : m'.decoding = some s) (hreg : m'.register = last)
    (hmode : m'.mode = .write) (hsize : s + 1 = m'.heap.structs.size)
    (hseal : Sealed m' m'.depth s) (left : Nat) : Decodes m' last left := by
  refine .inr ⟨hreg, s, hs, ?_⟩
  rw [hmode]
  exact ⟨hsize, hseal⟩

/-- One more argument read. -/
theorem Decodes.taken (hs : m'.decoding = some s) (hreg : m'.register = last)
    (hmode : m'.mode = .read)
    (hleft : m'.argument + left = (m'.heap.structCell s).args.length) : Decodes m' last left := by
  refine .inr ⟨hreg, s, hs, ?_⟩
  rw [hmode]
  exact hleft

/-- The head goes on after a tame change that keeps what is decoded. -/
theorem Performs.head (hfit : Fits admits kb q m j (.head pending last left))
    {pending' : List String} {last' : String} {left' : Nat} (ht : Tame m.depth m m')
    (hindex : m'.index = m.index) (hsuccess : m'.success = m.success)
    (hpending : ∀ x ∈ pending', x ∈ pending ∨ ((m'.frame m'.current).get? x).isSome)
    (hd : Decodes m' last' left') :
    Performs admits kb q m (.head pending' last' left') (.ok (), m') := by
  obtain ⟨hs, hc, hp, -⟩ := hfit
  refine .go m.depth ht hindex fun _ => ⟨hsuccess.trans hs, ?_, fun x hx => ?_, hd⟩
  · rw [ht.quiet.depth]
    exact ht.quiet.control hc
  · rcases hpending x hx with hx | hx
    · rw [ht.quiet.current]
      exact ht.quiet.vars _ _ (hp x hx)
    · exact hx

theorem getStruct_performs (hm : m.Memory) (hfit : Fits admits kb q m j (.head pending last 0))
    (hmem : i.register ∈ pending) (hlast : i.register ≠ last) :
    Performs admits kb q m (.head (pending.filter (· ≠ i.register)) i.register i.arity.toNat)
      (eval (Exec.getStruct i) m) := by
  obtain ⟨f, htop⟩ := hfit.2.1.exists_top
  obtain ⟨t, hget⟩ := Option.isSome_iff_exists.1 (hfit.2.2.1 _ hmem)
  -- The structure is not the one that is being decoded, so its arguments are read from the start.
  have hreg : m.decoding = none ∨ m.register ≠ i.register := by
    rcases hfit.2.2.2 with ⟨h, -⟩ | ⟨h, -⟩
    · exact .inl h
    · exact .inr (h ▸ hlast.symm)
  have hheld := hm.good.holds_deref (hm.holds_get hget)
  have hsub : ∀ x ∈ pending.filter (· ≠ i.register), x ∈ pending := fun x hx =>
    List.mem_of_mem_filter hx
  cases hd : m.heap.deref t with
  | struct s =>
    rw [eval_getStruct_read hreg hget hd rfl]
    split
    · exact .mismatch hfit.2.1 (.fields hm _ ⟨rfl, rfl, rfl⟩)
    · next hmatch =>
      rw [not_or, not_not, not_not] at hmatch
      refine .head hfit (.fields hm _ ⟨rfl, rfl, rfl⟩) rfl rfl
        (fun x hx => .inl (hsub x hx)) (.taken rfl rfl rfl ?_)
      have := hmatch.2
      show 0 + i.arity.toNat = (m.heap.structCell s).args.length
      omega
  | var v =>
    have hfree := hm.good.binding?_of_deref hd
    rw [hd] at hheld
    rw [eval_getStruct_write hreg hget hd hfree]
    -- A new structure is made and the variable is bound to it; the arguments will be written.
    let m₁ : Machine := { m with heap := (m.heap.newStruct i.functor [] .none).2 }
    have h₁ : Tame m.depth m m₁ := .newStruct hm _ _
    have h₂ : Tame m.depth m₁ (m₁.bindVar v (.struct m.heap.structs.size)) :=
      .bindVar h₁.memory htop hfree hheld (by simp [m₁]) (by simp) rfl _
    have h₃ : Tame m.depth m { (m₁.bindVar v (.struct m.heap.structs.size)) with
        mode := .write, decoding := some m.heap.structs.size, argument := 0
        register := i.register } :=
      (h₁.trans h₂).trans (.fields h₂.memory _ ⟨rfl, rfl, rfl⟩)
    have hfields := bindVar_fields (m := m₁) (v := v) (t := .struct m.heap.structs.size) htop
    refine .head hfit h₃ ?_ ?_ (fun x hx => .inl (hsub x hx)) (.written rfl rfl rfl ?_ ?_ _)
    · show (m₁.bindVar v (.struct m.heap.structs.size)).index = m.index
      rw [hfields]
    · show (m₁.bindVar v (.struct m.heap.structs.size)).success = m.success
      rw [hfields]
    · show _ = (m₁.heap.set v _).structs.size
      simp [m₁]
    -- The new structure is under construction, and nothing older refers to it.
    · rw [h₃.quiet.depth]
      exact (hm.sealed m.depth).quiet h₃.quiet
  | const c =>
    rw [eval_getStruct_const hreg hget hd]
    split
    · exact .mismatch hfit.2.1 (.fields hm _ ⟨rfl, rfl, rfl⟩)
    · next hmatch =>
      rw [not_or, not_not] at hmatch
      refine .head hfit ((Tame.newStruct hm i.functor _).trans
        (.fields (hm.newStruct _) _ ⟨rfl, rfl, rfl⟩)) rfl rfl
        (fun x hx => .inl (hsub x hx)) (.taken rfl rfl rfl ?_)
      simp [Heap.structCell_newStruct, hmatch.1]
  | absent => rw [hd] at hheld; exact hheld.elim

/-- A new variable that is passed on as argument of the structure being written or built. -/
theorem Tame.passFresh (hm : m.Memory) (hs : Sealed m n s) (hx : name ≠ "$x0") (f : FrameId) :
    Tame n m { (m.changeFrame f (·.put name (.var m.heap.vars.size))) with
      heap := (m.heap.fresh name).2.pushArg s (.var m.heap.vars.size) } := by
  have h₁ : Tame n m { m with heap := (m.heap.fresh name).2 } := .fresh hm name n
  have h₂ := Tame.pushArg (s := s) (t := .var m.heap.vars.size) h₁.memory (hs.quiet h₁.quiet)
    (by simp)
  exact (h₁.trans h₂).trans (.put h₂.memory (by simp) (.inl hx))

/-- A known variable that is passed on. -/
theorem Tame.passValue (hm : m.Memory) (hs : Sealed m n s) (hx : name ≠ "$x0") :
    Tame n m { (m.valueOf name).2 with
      heap := (m.valueOf name).2.heap.pushArg s (m.valueOf name).1 } := by
  have h₁ : Tame n m (m.valueOf name).2 := .valueOf hm hx n
  exact h₁.trans (.pushArg h₁.memory (hs.quiet h₁.quiet) (hm.valueOf name).2)

/-- An anonymous variable that is passed on. -/
theorem Tame.passVoid (hm : m.Memory) (hs : Sealed m n s) :
    Tame n m { m with heap := (m.heap.fresh "_").2.pushArg s (.var m.heap.vars.size) } := by
  have h₁ : Tame n m { m with heap := (m.heap.fresh "_").2 } := .fresh hm "_" n
  exact h₁.trans (.pushArg h₁.memory (hs.quiet h₁.quiet) (by simp))

/-- The value of a variable changes the heap and frames only. -/
theorem valueOf_fields (m : Machine) (name : String) : (m.valueOf name).2 =
    { m with heap := (m.valueOf name).2.heap, frames := (m.valueOf name).2.frames } := by
  unfold valueOf
  split <;> rfl

@[simp] theorem structs_valueOf : (m.valueOf name).2.heap.structs = m.heap.structs := by
  unfold valueOf
  split <;> rfl

/-- Unification changes the heap and frames only. -/
theorem unify_fields (a b : Value) : (m.unify a b).2 =
    { m with heap := (m.heap.unify a b).2.heap, frames := (m.unify a b).2.frames } :=
  trailAll_eq (m := { m with heap := (m.heap.unify a b).2.heap })

/-- An argument that is written. -/
theorem Performs.written (hfit : Fits admits kb q m j (.head pending last (left + 1)))
    {pending' : List String} (hs : m.decoding = some s) (hmode : m.mode = .write)
    (hseal : Sealed m m.depth s) (ht : Tame m.depth m m') (hindex : m'.index = m.index)
    (hsuccess : m'.success = m.success) (hmode' : m'.mode = m.mode)
    (hdecoding : m'.decoding = m.decoding) (hregister : m'.register = m.register)
    (hsize : m'.heap.structs.size = m.heap.structs.size)
    (hpending : ∀ x ∈ pending', x ∈ pending ∨ ((m'.frame m'.current).get? x).isSome) :
    Performs admits kb q m (.head pending' last left) (.ok (), m') := by
  obtain ⟨hreg, s', hs', hcase⟩ := hfit.2.2.2.cases
  obtain rfl := Option.some.inj (hs.symm.trans hs')
  rcases hcase with ⟨-, hsz, -⟩ | ⟨hread, -⟩
  · refine .head hfit ht hindex hsuccess hpending
      (.written (hdecoding.trans hs) (hregister.trans hreg) (hmode'.trans hmode) ?_ ?_ _)
    · rw [hsize]; exact hsz
    · rw [ht.quiet.depth]
      exact hseal.quiet ht.quiet
  · rw [hmode] at hread; cases hread

/-- An argument that is read. -/
theorem Performs.taken (hfit : Fits admits kb q m j (.head pending last (left + 1)))
    {pending' : List String} (hs : m.decoding = some s) (hmode : m.mode = .read)
    (ht : Tame m.depth m m') (hindex : m'.index = m.index) (hsuccess : m'.success = m.success)
    (hmode' : m'.mode = m.mode) (hdecoding : m'.decoding = m.decoding)
    (hregister : m'.register = m.register) (hargument : m'.argument = m.argument + 1)
    (hcell : m'.heap.structCell s = m.heap.structCell s)
    (hpending : ∀ x ∈ pending', x ∈ pending ∨ ((m'.frame m'.current).get? x).isSome) :
    Performs admits kb q m (.head pending' last left) (.ok (), m') := by
  obtain ⟨hreg, s', hs', hcase⟩ := hfit.2.2.2.cases
  obtain rfl := Option.some.inj (hs.symm.trans hs')
  rcases hcase with ⟨hwrite, -⟩ | ⟨-, hlen, -⟩
  · rw [hmode] at hwrite; cases hwrite
  · refine .head hfit ht hindex hsuccess hpending
      (.taken (hdecoding.trans hs) (hregister.trans hreg) (hmode'.trans hmode) ?_)
    rw [hargument, hcell]
    omega

/-- An argument is named by a variable. -/
theorem getVar_performs (hm : m.Memory)
    (hfit : Fits admits kb q m j (.head pending last (left + 1))) (hx : name ≠ "$x0")
    {pending' : List String} (hp : ∀ x ∈ pending', x = name ∨ x ∈ pending) :
    Performs admits kb q m (.head pending' last left) (eval (getVar name) m) := by
  have hcur := hfit.2.1.current_lt hm
  obtain ⟨-, s, hs, ⟨hmode, -, hseal⟩ | ⟨hmode, -, t, ht⟩⟩ := hfit.2.2.2.cases
  · rw [eval_getVar_write hmode hs]
    refine .written hfit hs hmode hseal (.passFresh hm hseal hx _) rfl rfl rfl rfl rfl (by simp)
      fun x hx' => (hp x hx').symm.imp_right ?_
    -- Where the variable names a register, that register is there from now on.
    rintro rfl
    have hself := frame_changeFrame_self (g := (·.put x (.var m.heap.vars.size))) hcur
    show (((m.changeFrame m.current (·.put x (.var m.heap.vars.size))).frame m.current).get?
      x).isSome = true
    rw [hself]
    simp
  · rw [eval_getVar_read hmode hs ht]
    have htame : Tame m.depth m (m.changeFrame m.current (·.put name t)) :=
      .put hm (hm.holds_arg ht) (.inl hx)
    refine .taken hfit hs hmode (htame.trans (.fields htame.memory _ ⟨rfl, rfl, rfl⟩))
      rfl rfl rfl rfl rfl rfl rfl
      fun x hx' => (hp x hx').symm.imp_right ?_
    rintro rfl
    have hself := frame_changeFrame_self (g := (·.put x t)) hcur
    show (((m.changeFrame m.current (·.put x t)).frame m.current).get? x).isSome = true
    rw [hself]
    simp

/-- An argument is compared with the value of a variable. -/
theorem getValue_performs (hm : m.Memory)
    (hfit : Fits admits kb q m j (.head pending last (left + 1))) (hx : name ≠ "$x0") :
    Performs admits kb q m (.head pending last left) (eval (getValue name) m) := by
  obtain ⟨f, htop⟩ := hfit.2.1.exists_top
  obtain ⟨-, s, hs, ⟨hmode, -, hseal⟩ | ⟨hmode, -, t, ht⟩⟩ := hfit.2.2.2.cases
  · rw [eval_getValue_write hmode hs]
    have hfields := valueOf_fields m name
    exact .written hfit hs hmode hseal (.passValue hm hseal hx) (by rw [hfields]) (by rw [hfields])
      (by simp) (by simp) (by rw [hfields]) (by simp) fun x hx' => .inl hx'
  · rw [eval_getValue_read hmode hs ht]
    -- The variable may be new; then its cell is made first, which the argument does not notice.
    let m₁ : Machine := { (m.valueOf name).2 with argument := m.argument + 1 }
    have h₁ : Tame m.depth m m₁ :=
      (Tame.valueOf hm hx _).trans (.fields (hm.valueOf name).1 _ ⟨rfl, rfl, rfl⟩)
    have hheld : m₁.heap.Holds t :=
      (hm.holds_arg ht).mono (by
        show m.heap.vars.size ≤ (m.valueOf name).2.heap.vars.size
        unfold Machine.valueOf
        split
        · exact Nat.le_refl _
        · simp [Machine.changeFrame]) (by
        show m.heap.structs.size ≤ (m.valueOf name).2.heap.structs.size
        simp)
    have htop₁ : m₁.top? = some f := by rw [h₁.quiet.top?, htop]
    have h₂ : Tame m.depth m (m₁.unify (m.valueOf name).1 t).2 :=
      h₁.trans (.unify h₁.memory htop₁ (hm.valueOf name).2 hheld _)
    have hfields := unify_fields (m := m₁) (m.valueOf name).1 t
    -- Neither step touches what the phase says about the structure being read.
    have hfields' : m₁ = { m with
        heap := m₁.heap, frames := m₁.frames, argument := m.argument + 1 } := by
      show { (m.valueOf name).2 with argument := m.argument + 1 } = _
      rw [valueOf_fields]
    show Performs admits kb q m (.head pending last left)
      (if (m₁.unify (m.valueOf name).1 t).1 then (.ok (), (m₁.unify (m.valueOf name).1 t).2)
       else eval headFail (m₁.unify (m.valueOf name).1 t).2)
    split
    · refine .taken hfit hs hmode h₂ ?_ ?_ ?_ ?_ ?_ ?_ ?_ fun x hx' => .inl hx'
      · rw [hfields, hfields']
      · rw [hfields, hfields']
      · rw [hfields, hfields']
      · rw [hfields, hfields']
      · rw [hfields, hfields']
      · rw [hfields, hfields']
      · have hb := Heap.unify_binds h₁.memory.good (hm.valueOf name).2 hheld
        rw [hfields]
        show (m₁.heap.unify (m.valueOf name).1 t).2.heap.structCell s = _
        rw [hb.structCell]
        exact valueOf_structCell
    · exact .mismatch hfit.2.1 h₂

/-- An argument is skipped. -/
theorem unifVoid_performs (hm : m.Memory)
    (hfit : Fits admits kb q m j (.head pending last (left + 1))) :
    Performs admits kb q m (.head pending last left) (eval unifVoid m) := by
  obtain ⟨-, s, hs, ⟨hmode, -, hseal⟩ | ⟨hmode, -, t, ht⟩⟩ := hfit.2.2.2.cases
  · rw [eval_unifVoid_write hmode hs]
    exact .written hfit hs hmode hseal (.passVoid hm hseal) rfl rfl rfl rfl rfl (by simp)
      fun x hx => .inl hx
  · rw [eval_unifVoid_read hmode hs ht]
    exact .taken hfit hs hmode (.fields hm _ ⟨rfl, rfl, rfl⟩) rfl rfl rfl rfl rfl rfl rfl
      fun x hx => .inl hx

/-- An argument is compared with a constant. -/
theorem getConst_performs (hm : m.Memory)
    (hfit : Fits admits kb q m j (.head pending last (left + 1))) {c : Constant}
    (hc : i.constant = some c) :
    Performs admits kb q m (.head pending last left) (eval (getConst i) m) := by
  obtain ⟨f, htop⟩ := hfit.2.1.exists_top
  obtain ⟨-, s, hs, ⟨hmode, -, hseal⟩ | ⟨hmode, -, t, ht⟩⟩ := hfit.2.2.2.cases
  · rw [eval_getConst_write hc hmode hs]
    exact .written hfit hs hmode hseal (.pushArg hm hseal (by simp)) rfl rfl rfl rfl rfl (by simp)
      fun x hx => .inl hx
  · have hheld := hm.good.holds_deref (hm.holds_arg ht)
    -- An unbound argument is bound without unification.
    by_cases hd : ∃ v, m.heap.deref t = .var v
    · obtain ⟨v, hd⟩ := hd
      have hfree := hm.good.binding?_of_deref hd
      rw [hd] at hheld
      rw [eval_getConst_free hc hmode hs ht hd hfree]
      let m₁ : Machine := { m with argument := m.argument + 1 }
      have h₁ : Tame m.depth m m₁ := .fields hm _ ⟨rfl, rfl, rfl⟩
      have h₂ : Tame m.depth m (m₁.bindVar v (.const c)) :=
        h₁.trans (.bindVar h₁.memory htop hfree hheld (by simp) (by simp) rfl _)
      have hfields := bindVar_fields (m := m₁) (v := v) (t := .const c) htop
      exact .taken hfit hs hmode h₂ (by rw [hfields]) (by rw [hfields]) (by rw [hfields])
        (by rw [hfields]) (by rw [hfields]) (by rw [hfields]) (by rw [hfields]; rfl)
        fun x hx => .inl hx
    · have hne : ∀ v, m.heap.deref t ≠ .var v := fun v hv => hd ⟨v, hv⟩
      rw [eval_getConst_read hc hmode hs ht hne, Heap.unify_const_heap hne]
      simp only
      split
      · exact .taken hfit hs hmode (.fields hm _ ⟨rfl, rfl, rfl⟩) rfl rfl rfl rfl rfl rfl rfl
          fun x hx => .inl hx
      · exact .mismatch hfit.2.1 (.fields hm _ ⟨rfl, rfl, rfl⟩)

/-- A variable of the program is not the goal. -/
theorem ne_goalRegister (h : isRegister name = false) : name ≠ "$x0" :=
  structRegister_zero ▸ ne_structRegister (isStructRegister_of_not_isRegister h) 0

/-- **Decoding a head.** -/
theorem head_performs (hm : m.Memory) (hfit : Fits admits kb q m j (.head pending last left))
    (hnext : Phase.nextHead pending last left i = some p) (hp : p ≠ .closed) :
    Performs admits kb q m p (eval (execute w i) m) := by
  -- The six instructions of arguments come in three kinds, which differ in their names only.
  have hvar : ∀ hop : execute w i = getVar i.name,
      (if isStructRegister i.name then
        Phase.decoded (i.name :: pending) last left
          (i.name ∉ pending && i.name ≠ last && i.name ≠ "$x0")
      else Phase.decoded pending last left (!isRegister i.name)) = some p →
      Performs admits kb q m p (eval (execute w i) m) := by
    intro hop h
    rw [hop]
    split at h
    · obtain ⟨hok, n, rfl, rfl⟩ := Phase.decoded_eq_some h
      refine getVar_performs hm hfit ?_ fun x hx => List.mem_cons.1 hx
      simp only [Bool.and_eq_true, decide_eq_true_eq] at hok
      exact hok.2
    · obtain ⟨hok, n, rfl, rfl⟩ := Phase.decoded_eq_some h
      exact getVar_performs hm hfit (ne_goalRegister (by simpa using hok)) fun x hx => .inr hx
  have hvalue : ∀ hop : execute w i = getValue i.name,
      Phase.decoded pending last left (!isRegister i.name) = some p →
      Performs admits kb q m p (eval (execute w i) m) := by
    intro hop h
    rw [hop]
    obtain ⟨hok, n, rfl, rfl⟩ := Phase.decoded_eq_some h
    exact getValue_performs hm hfit (ne_goalRegister (by simpa using hok))
  have hconst : ∀ hop : execute w i = getConst i,
      Phase.decoded pending last left i.constant.isSome = some p →
      Performs admits kb q m p (eval (execute w i) m) := by
    intro hop h
    rw [hop]
    obtain ⟨hok, n, rfl, rfl⟩ := Phase.decoded_eq_some h
    obtain ⟨c, hc⟩ := Option.isSome_iff_exists.1 hok
    exact getConst_performs hm hfit hc
  unfold Phase.nextHead at hnext
  split at hnext
  · next hop =>
    have hex : execute w i = Exec.getStruct i := by simp only [execute, hop]
    split at hnext
    · next hcond =>
      obtain ⟨rfl, hmem, hlast⟩ := hcond
      obtain rfl := Option.some.inj hnext
      rw [hex]
      exact getStruct_performs hm hfit hmem hlast
    · cases hnext
  · next hop => exact hvar (by simp only [execute, hop]) hnext
  · next hop => exact hvar (by simp only [execute, hop]) hnext
  · next hop => exact hvalue (by simp only [execute, hop]) hnext
  · next hop => exact hvalue (by simp only [execute, hop]) hnext
  · next hop =>
    have hex : execute w i = unifVoid := by simp only [execute, hop]
    obtain ⟨-, n, rfl, rfl⟩ := Phase.decoded_eq_some hnext
    rw [hex]
    exact unifVoid_performs hm hfit
  · next hop => exact hconst (by simp only [execute, hop]) hnext
  · next hop => exact hconst (by simp only [execute, hop]) hnext
  · next hop => exact hconst (by simp only [execute, hop]) hnext
  · next hop => exact hconst (by simp only [execute, hop]) hnext
  · next hop => exact hconst (by simp only [execute, hop]) hnext
  · next hop => exact hconst (by simp only [execute, hop]) hnext
  · split at hnext
    · exact (hp (Option.some.inj hnext).symm).elim
    · cases hnext
  · split at hnext
    · exact (hp (Option.some.inj hnext).symm).elim
    · cases hnext
  · cases hnext

/-! ## §2. Goals under construction. -/

/-- The top frame is at the top only. -/
theorem Memory.ne_top (hm : m.Memory) (ht : m.top? = some f) :
    ∀ k, k < m.depth - 1 → m.stack[k]? ≠ some f := by
  intro k hk hf
  have hmem : f ∈ m.stack.toList.dropLast := by
    rw [List.dropLast_eq_take]
    refine List.mem_iff_getElem?.2 ⟨k, ?_⟩
    rw [List.getElem?_take, if_pos (by simpa [depth] using hk), Array.getElem?_toList]
    exact hf
  exact hm.top_not_below ht hmem

/-- A frame that was not tried stays so. -/
theorem Quiet.untried (h : Quiet n m m') (hu : Untried m f) : Untried m' f := by
  unfold Untried at hu ⊢
  rw [h.depth, h.frames f, hu]

/-- The construction goes on after a tame change that keeps what is built. -/
theorem Performs.build (hfit : Fits admits kb q m j (.build regs begun left))
    {regs' : List String} {begun' : Option (String × Signature)} {left' : Nat}
    (ht : Tame (m.depth - 1) m m') (hindex : m'.index = m.index)
    (hsuccess : m'.success = m.success) (htarget : m.target = some f)
    (hregs : ∀ x ∈ regs', x ∈ regs ∨ ((m'.frame f).get? x).isSome)
    (hb : Builds m' f begun' left') :
    Performs admits kb q m (.build regs' begun' left') (.ok (), m') := by
  obtain ⟨hs, hc, f', htarget', htop, hr, -, hu⟩ := hfit
  obtain rfl := Option.some.inj (htarget.symm.trans htarget')
  refine .go (m.depth - 1) ht hindex fun _ =>
    ⟨hsuccess.trans hs, ?_, f, ?_, ?_, fun x hx => ?_, hb, ht.quiet.untried hu⟩
  · rw [ht.quiet.depth]
    exact ht.quiet.control hc
  · rw [ht.quiet.target, htarget]
  · rw [ht.quiet.top?, htop]
  · rcases hregs x hx with hx | hx
    · exact ht.quiet.vars _ _ (hr x hx)
    · exact hx

theorem putStruct_performs (hm : m.Memory) (hfit : Fits admits kb q m j (.build regs begun 0))
    (harity : 0 ≤ i.arity) :
    Performs admits kb q m
      (.build (i.register :: regs) (some (i.register, ⟨i.functor, i.arity⟩)) i.arity.toNat)
      (eval (Exec.putStruct i) m) := by
  obtain ⟨-, -, f, htarget, htop, -⟩ := id hfit
  rw [eval_putStruct htarget]
  let m₁ : Machine := { m with heap := (m.heap.newStruct i.functor [] .none).2 }
  let m₂ : Machine := m₁.changeFrame f (·.put i.register (.struct m.heap.structs.size))
  have h₁ : Tame (m.depth - 1) m m₁ := .newStruct hm i.functor _
  have h₂ : Tame (m.depth - 1) m₁ m₂ :=
    .put h₁.memory (by simp [m₁]) (.inr (hm.ne_top htop))
  have h₃ : Tame (m.depth - 1) m { m₂ with building := some m.heap.structs.size } :=
    (h₁.trans h₂).trans (.fields h₂.memory _ ⟨rfl, rfl, rfl⟩)
  -- The target keeps the new structure in the register.
  have hself : (m₂.frame f).get? i.register = some (.struct m.heap.structs.size) := by
    have hlt : f < m₁.frames.size := hm.lt_of_top? htop
    show ((m₁.changeFrame f _).frame f).get? _ = _
    rw [frame_changeFrame_self hlt]
    exact Frame.get?_put_self
  refine .build hfit h₃ rfl rfl htarget (fun x hx => ?_) ⟨_, hself, rfl, ?_, ?_, ?_, ?_⟩
  · rcases List.mem_cons.1 hx with rfl | hx
    · exact .inr (Option.isSome_iff_exists.2 ⟨_, hself⟩)
    · exact .inl hx
  · show _ = (m.heap.newStruct i.functor [] .none).2.structs.size
    simp
  · exact (hm.sealed (m.depth - 1)).quiet h₃.quiet
  · show ((m.heap.newStruct i.functor [] .none).2.structCell _).name = _
    simp [Heap.structCell_newStruct]
  · show (((m.heap.newStruct i.functor [] .none).2.structCell _).args.length : Int) + _ = _
    simp [Heap.structCell_newStruct]
    omega

/-- An argument of the structure under construction. -/
theorem Performs.passed (hfit : Fits admits kb q m j (.build regs begun (left + 1)))
    (htarget : m.target = some f) (hbuilding : m.building = some s)
    (ht : Tame (m.depth - 1) m m') (hindex : m'.index = m.index)
    (hsuccess : m'.success = m.success) (hbuilding' : m'.building = m.building)
    (hsize : m'.heap.structs.size = m.heap.structs.size)
    (hframe : ∀ x, (m'.frame f).get? x = (m.frame f).get? x)
    (hcell : ∃ t, m'.heap.structCell s =
      { m.heap.structCell s with args := (m.heap.structCell s).args ++ [t] }) :
    Performs admits kb q m (.build regs begun left) (.ok (), m') := by
  obtain ⟨-, hc, f', htarget', htop, -, hb, -⟩ := id hfit
  obtain rfl := Option.some.inj (htarget.symm.trans htarget')
  refine .build hfit ht hindex hsuccess htarget (fun x hx => .inl hx) ?_
  cases begun with
  | none => exact absurd hb (Nat.succ_ne_zero left)
  | some begun =>
    obtain ⟨x, g⟩ := begun
    obtain ⟨s', hx, hs', hsz, hseal, hname, hlen⟩ := hb
    obtain rfl := Option.some.inj (hbuilding.symm.trans hs')
    obtain ⟨t, hcell⟩ := hcell
    -- Passing an argument changes the structure under construction and nothing else that the phase
    -- speaks of.
    refine ⟨s, (hframe x).trans hx, hbuilding'.trans hbuilding, by rw [hsize]; exact hsz, ?_, ?_, ?_⟩
    · rw [ht.quiet.depth]
      exact hseal.quiet ht.quiet
    · rw [hcell]; exact hname
    · rw [hcell]
      simp only [List.length_append, List.length_singleton]
      omega

/-- What is under construction, in a phase that passes arguments. -/
theorem Fits.building (hm : m.Memory)
    (hfit : Fits admits kb q m j (.build regs begun (left + 1))) :
    ∃ f s, m.target = some f ∧ m.current ≠ f ∧ m.building = some s ∧ s < m.heap.structs.size ∧
      Sealed m (m.depth - 1) s := by
  obtain ⟨-, hc, f, htarget, htop, -, hb, -⟩ := hfit
  cases begun with
  | none => exact absurd hb (Nat.succ_ne_zero left)
  | some begun =>
    obtain ⟨s, -, hs, hsz, hseal, -⟩ := hb
    refine ⟨f, s, htarget, ?_, hs, Nat.lt_of_succ_le (Nat.le_of_eq hsz), hseal⟩
    rintro rfl
    obtain ⟨k, hk, hcur⟩ := hc.current
    exact hm.ne_top htop k hk hcur

/-- A new variable is passed. -/
theorem putVar_performs (hm : m.Memory)
    (hfit : Fits admits kb q m j (.build regs begun (left + 1))) (hx : name ≠ "$x0") :
    Performs admits kb q m (.build regs begun left) (eval (putVar name) m) := by
  obtain ⟨f, s, htarget, hne, hs, hlt, hseal⟩ := hfit.building hm
  rw [eval_putVar hs]
  refine .passed hfit htarget hs (.passFresh hm hseal hx _) rfl rfl rfl (by simp) (fun x => ?_)
    ⟨_, Heap.structCell_pushArg_self hlt⟩
  exact congrArg (Frame.get? · x) (frame_changeFrame_of_ne hne.symm)

theorem putVoid_performs (hm : m.Memory)
    (hfit : Fits admits kb q m j (.build regs begun (left + 1))) :
    Performs admits kb q m (.build regs begun left) (eval putVoid m) := by
  obtain ⟨f, s, htarget, -, hs, hlt, hseal⟩ := hfit.building hm
  rw [eval_putVoid hs]
  exact .passed hfit htarget hs (.passVoid hm hseal) rfl rfl rfl (by simp) (fun _ => rfl)
    ⟨_, Heap.structCell_pushArg_self hlt⟩

/-- A structure that was built, or the value of a variable, is passed. -/
theorem putValue_performs (hm : m.Memory)
    (hfit : Fits admits kb q m j (.build regs begun (left + 1)))
    (hname : (if isStructRegister i.name then decide (i.name ∈ regs)
      else !isRegister i.name) = true) :
    Performs admits kb q m (.build regs begun left) (eval (putValue i) m) := by
  obtain ⟨f, s, htarget, hne, hs, hlt, hseal⟩ := hfit.building hm
  cases hr : isStructRegister i.name with
  | true =>
    obtain ⟨-, -, f', htarget', -, hregs, -⟩ := id hfit
    obtain rfl := Option.some.inj (htarget.symm.trans htarget')
    obtain ⟨t, ht⟩ := Option.isSome_iff_exists.1 (hregs i.name (by simpa [hr] using hname))
    rw [eval_putValue_register hr hs htarget ht]
    exact .passed hfit htarget hs (.pushArg hm hseal (hm.holds_get ht)) rfl rfl rfl (by simp)
      (fun _ => rfl) ⟨_, Heap.structCell_pushArg_self hlt⟩
  | false =>
    have hreg : isRegister i.name = false := by simpa [hr] using hname
    rw [eval_putValue_variable hr hs]
    have hfields := valueOf_fields m i.name
    refine .passed hfit htarget hs (.passValue hm hseal (ne_goalRegister hreg)) (by rw [hfields])
      (by rw [hfields]) (by simp) (by simp) (fun x => ?_)
      ⟨(m.valueOf i.name).1, ?_⟩
    -- The variable belongs to the current frame, which is not the target.
    · show ((m.valueOf i.name).2.frame f).get? x = _
      unfold Machine.valueOf
      split
      · rfl
      · exact congrArg (Frame.get? · x)
          (frame_changeFrame_of_ne (m := { m with heap := (m.heap.fresh i.name).2 }) hne.symm)
    · have hlt' : s < (m.valueOf i.name).2.heap.structs.size := by simpa using hlt
      show ((m.valueOf i.name).2.heap.pushArg s _).structCell s = _
      rw [Heap.structCell_pushArg_self hlt', valueOf_structCell]

theorem putConst_performs (hm : m.Memory)
    (hfit : Fits admits kb q m j (.build regs begun (left + 1))) {c : Constant}
    (hc : i.constant = some c) :
    Performs admits kb q m (.build regs begun left) (eval (putConst i) m) := by
  obtain ⟨f, s, htarget, -, hs, hlt, hseal⟩ := hfit.building hm
  rw [eval_putConst hc hs]
  exact .passed hfit htarget hs (.pushArg hm hseal (by simp)) rfl rfl rfl (by simp) (fun _ => rfl)
    ⟨_, Heap.structCell_pushArg_self hlt⟩

/-- **Building a goal.** -/
theorem build_performs (hm : m.Memory) (hfit : Fits admits kb q m j (.build regs begun left))
    (hnext : Phase.nextBuild admits regs begun left i = some p) (hp : ∀ g, p ≠ .ready g) :
    Performs admits kb q m p (eval (execute w i) m) := by
  have hconst : ∀ hop : execute w i = putConst i,
      Phase.passed regs begun left i.constant.isSome = some p →
      Performs admits kb q m p (eval (execute w i) m) := by
    intro hop h
    rw [hop]
    obtain ⟨hok, n, rfl, rfl⟩ := Phase.passed_eq_some h
    obtain ⟨c, hc⟩ := Option.isSome_iff_exists.1 hok
    exact putConst_performs hm hfit hc
  -- The instructions are those that a phase of building accepts; all others are excluded by it.
  unfold Phase.nextBuild at hnext
  split at hnext
  · next hop =>
    have hex : execute w i = Exec.putStruct i := by simp only [execute, hop]
    split at hnext
    · next hcond =>
      obtain ⟨rfl, harity⟩ := hcond
      obtain rfl := Option.some.inj hnext
      rw [hex]
      exact putStruct_performs hm hfit harity
    · cases hnext
  · next hop =>
    have hex : execute w i = putVar i.name := by simp only [execute, hop]
    obtain ⟨hok, n, rfl, rfl⟩ := Phase.passed_eq_some hnext
    rw [hex]
    exact putVar_performs hm hfit (ne_goalRegister (by simpa using hok))
  · next hop =>
    have hex : execute w i = putVoid := by simp only [execute, hop]
    obtain ⟨-, n, rfl, rfl⟩ := Phase.passed_eq_some hnext
    rw [hex]
    exact putVoid_performs hm hfit
  · next hop =>
    have hex : execute w i = putValue i := by simp only [execute, hop]
    obtain ⟨hok, n, rfl, rfl⟩ := Phase.passed_eq_some hnext
    rw [hex]
    exact putValue_performs hm hfit hok
  · next hop => exact hconst (by simp only [execute, hop]) hnext
  · next hop => exact hconst (by simp only [execute, hop]) hnext
  · next hop => exact hconst (by simp only [execute, hop]) hnext
  · split at hnext
    · split at hnext
      · exact (hp _ (Option.some.inj hnext).symm).elim
      · cases hnext
    · cases hnext
  · cases hnext

/-! ## §3. Operands. -/

/-- The next goal follows a tame change. -/
theorem Performs.body (hc : Control admits kb q m m.depth) (ht : Tame m.depth m m')
    (hindex : m'.index = m.index) (hsuccess : m'.success = true) :
    Performs admits kb q m .body (.ok (), m') := by
  refine .go m.depth ht hindex fun _ => ⟨hsuccess, ?_⟩
  rw [ht.quiet.depth]
  exact ht.quiet.control hc

/-- Operands follow a tame change that keeps the scratch structure. -/
theorem Performs.operands (hc : Control admits kb q m m.depth) (ht : Tame m.depth m m')
    (hindex : m'.index = m.index) (hsuccess : m'.success = true)
    (hscratch : (m'.frame m.current).get? scratchRegister = some (.struct s))
    (hsize : s + 1 = m'.heap.structs.size) (hseal : Sealed m m.depth s)
    (hlen : (m'.heap.structCell s).args.length = n) :
    Performs admits kb q m (.operands n) (.ok (), m') := by
  refine .go m.depth ht hindex fun _ => ⟨hsuccess, ?_, s, ?_, hsize, ?_, hlen⟩
  · rw [ht.quiet.depth]
    exact ht.quiet.control hc
  · rw [ht.quiet.current]
    exact hscratch
  · rw [ht.quiet.depth]
    exact hseal.quiet ht.quiet

/-- The structure of the operands is not the goal. -/
theorem scratchRegister_ne : scratchRegister ≠ "$x0" := by decide

/-- An empty structure for operands is made. -/
theorem prepare_performs (hm : m.Memory) (hfit : Fits admits kb q m j .body) :
    Performs admits kb q m (.operands 0) (eval prepare m) := by
  obtain ⟨hs, hc⟩ := hfit
  have hcur := hc.current_lt hm
  rw [eval_prepare]
  let m₁ : Machine := { m with heap := (m.heap.newStruct scratchRegister [] .none).2 }
  have h₁ : Tame m.depth m m₁ := .newStruct hm _ _
  have h₂ : Tame m.depth m (m₁.changeFrame m.current
      (·.put scratchRegister (.struct m.heap.structs.size))) :=
    h₁.trans (.put h₁.memory (by simp [m₁]) (.inl scratchRegister_ne))
  -- The scratch register has the new structure.
  have hself : (((m₁.changeFrame m.current
      (·.put scratchRegister (.struct m.heap.structs.size))).frame m.current).get?
      scratchRegister) = some (.struct m.heap.structs.size) := by
    have hlt : m.current < m₁.frames.size := hcur
    rw [frame_changeFrame_self hlt]
    exact Frame.get?_put_self
  refine .operands hc h₂ rfl hs hself ?_ (hm.sealed _) ?_
  · show _ = (m.heap.newStruct scratchRegister [] .none).2.structs.size
    simp
  · show ((m.heap.newStruct scratchRegister [] .none).2.structCell _).args.length = 0
    simp [Heap.structCell_newStruct]

/-- The operands are kept apart from the registers and from their structure. -/
theorem isOperandName_iff : Phase.isOperandName name = true ↔
    isStructRegister name = false ∧ name ≠ scratchRegister := by
  simp [Phase.isOperandName]

/-- Setting another variable keeps the scratch structure. -/
theorem get?_changeFrame_put {x : String} (hne : name ≠ x) :
    ((m.changeFrame f (·.put name t)).frame j).get? x = (m.frame j).get? x :=
  frame_changeFrame_field (Frame.get? · x) fun _ => Frame.get?_put_of_ne hne.symm

/-- Reading or making a variable leaves the other names alone. -/
theorem get?_valueOf {x : String} (hne : name ≠ x) :
    ((m.valueOf name).2.frame f).get? x = (m.frame f).get? x := by
  unfold valueOf
  split
  · rfl
  · exact get?_changeFrame_put (m := { m with heap := (m.heap.fresh name).2 }) hne

/-- A new variable is pushed. -/
theorem eval_pushVar (hne : name ≠ scratchRegister)
    (hs : (m.frame m.current).get? scratchRegister = some (.struct s)) :
    eval (pushVar name) m =
      (.ok (), { (m.changeFrame m.current (·.put name (.var m.heap.vars.size))) with
        heap := (m.heap.fresh name).2.pushArg s (.var m.heap.vars.size) }) := by
  let m₁ : Machine := { m with heap := (m.heap.fresh name).2 }.changeFrame m.current
    (·.put name (.var m.heap.vars.size))
  have hs₁ : (m₁.frame m₁.current).get? scratchRegister = some (.struct s) := by
    rw [← hs]
    exact get?_changeFrame_put (m := { m with heap := (m.heap.fresh name).2 }) hne
  have hpush : eval (push (.var m.heap.vars.size)) m₁ = _ := eval_push hs₁
  simp only [pushVar, eval_bind, eval_fresh, eval_changeCurrent]
  exact hpush

/-- The value of a variable is pushed. -/
theorem eval_pushValue (hm : m.Memory) (hne : name ≠ scratchRegister)
    (hs : (m.frame m.current).get? scratchRegister = some (.struct s)) :
    eval (pushValue name) m =
      (.ok (), { (m.valueOf name).2 with
        heap := (m.valueOf name).2.heap.pushArg s (m.valueOf name).1 }) := by
  have hs' : ((m.valueOf name).2.frame (m.valueOf name).2.current).get? scratchRegister =
      some (.struct s) := by
    rw [valueOf_fields m name]
    exact (get?_valueOf hne).trans hs
  have hheld := (hm.valueOf name).2
  simp only [pushValue, eval_bind, eval_lookup]
  cases ht : (m.valueOf name).1 with
  | absent => rw [ht] at hheld; exact hheld.elim
  | var v => exact eval_push hs'
  | const c => exact eval_push hs'
  | struct r => exact eval_push hs'

/-- Pushing a new variable performs. -/
theorem pushVar_performs (hm : m.Memory) (hfit : Fits admits kb q m j (.operands n))
    (hname : Phase.isOperandName name = true) :
    Performs admits kb q m (.operands (n + 1)) (eval (pushVar name) m) := by
  obtain ⟨hs, hc, s, hscratch, hsize, hseal, hlen⟩ := hfit
  obtain ⟨hreg, hne⟩ := isOperandName_iff.1 hname
  have hx : name ≠ "$x0" := structRegister_zero ▸ ne_structRegister hreg 0
  rw [eval_pushVar hne hscratch]
  refine .operands hc (.passFresh hm hseal hx _) rfl hs ?_ (by simpa using hsize) hseal ?_
  · exact (get?_changeFrame_put hne).trans hscratch
  · show (((m.heap.fresh name).2.pushArg s _).structCell s).args.length = n + 1
    have hlt : s < m.heap.structs.size := Nat.lt_of_succ_le (Nat.le_of_eq hsize)
    rw [Heap.structCell_pushArg_self (by simpa using hlt)]
    simp [hlen]

theorem pushValue_performs (hm : m.Memory) (hfit : Fits admits kb q m j (.operands n))
    (hname : Phase.isOperandName name = true) :
    Performs admits kb q m (.operands (n + 1)) (eval (pushValue name) m) := by
  obtain ⟨hs, hc, s, hscratch, hsize, hseal, hlen⟩ := hfit
  obtain ⟨hreg, hne⟩ := isOperandName_iff.1 hname
  have hx : name ≠ "$x0" := structRegister_zero ▸ ne_structRegister hreg 0
  have hfields := valueOf_fields m name
  rw [eval_pushValue hm hne hscratch]
  refine .operands hc (.passValue hm hseal hx) (by rw [hfields]) (by rw [hfields]; exact hs) ?_
    (by simpa using hsize) hseal ?_
  · exact (get?_valueOf hne).trans hscratch
  · show (((m.valueOf name).2.heap.pushArg s _).structCell s).args.length = n + 1
    have hlt : s < m.heap.structs.size := Nat.lt_of_succ_le (Nat.le_of_eq hsize)
    rw [Heap.structCell_pushArg_self (by simpa using hlt), valueOf_structCell]
    simp [hlen]

theorem pushConst_performs (hm : m.Memory) (hfit : Fits admits kb q m j (.operands n))
    (hsome : i.constant.isSome) :
    Performs admits kb q m (.operands (n + 1)) (eval (Exec.pushConst i.constant) m) := by
  obtain ⟨hs, hc, s, hscratch, hsize, hseal, hlen⟩ := hfit
  obtain ⟨c, hconst⟩ := Option.isSome_iff_exists.1 hsome
  rw [eval_pushConst hconst hscratch]
  refine .operands hc (.pushArg hm hseal (by simp)) rfl hs hscratch (by simpa using hsize) hseal ?_
  show ((m.heap.pushArg s _).structCell s).args.length = n + 1
  rw [Heap.structCell_pushArg_self (Nat.lt_of_succ_le (Nat.le_of_eq hsize))]
  simp [hlen]

/-- The two operands of an operator exist. -/
theorem Fits.operandValues (hm : m.Memory) (hfit : Fits admits kb q m j (.operands 2)) :
    ∃ s a b, (m.frame m.current).get? scratchRegister = some (.struct s) ∧
      (m.heap.structCell s).args = [a, b] ∧ m.heap.Holds a ∧ m.heap.Holds b := by
  obtain ⟨-, -, s, hscratch, -, -, hlen⟩ := hfit
  obtain ⟨a, b, hab⟩ := List.length_eq_two.1 hlen
  exact ⟨s, a, b, hscratch, hab, hm.good.args s a (by simp [hab]), hm.good.args s b (by simp [hab])⟩

/-- An operand that is no number is the fault of the program. -/
theorem permitted_of_operand {e : RunError} (h : m.heap.operand t = .error e) :
    (Error.running e).Permitted := by
  refine .inl ⟨"M0107", by decide, ?_⟩
  unfold Heap.operand at h
  repeat' split at h
  all_goals first
    | (obtain rfl := Except.error.inj h; rfl)
    | cases h

theorem compare_performs (hm : m.Memory) (hfit : Fits admits kb q m j (.operands 2))
    (c : CompareOp) : Performs admits kb q m .body (eval (applyOperator i (.compare c)) m) := by
  obtain ⟨s, a, b, hscratch, hab, -, -⟩ := hfit.operandValues hm
  rw [eval_applyOperator_compare hscratch hab]
  cases ha : m.heap.operand a with
  | error e => exact .stop (permitted_of_operand ha) rfl hm.good
  | ok x =>
    cases hb : m.heap.operand b with
    | error e => exact .stop (permitted_of_operand hb) rfl hm.good
    | ok y =>
      simp only [eval_conclude]
      split
      · exact .body hfit.2.1 (.fields hm _ ⟨rfl, rfl, rfl⟩) rfl rfl
      · exact .failure hfit.2.1 (.fields hm _ ⟨rfl, rfl, rfl⟩)

theorem value_performs (hm : m.Memory) (hfit : Fits admits kb q m j (.operands 2)) (o : ArithOp)
    (hresult : i.result ≠ "") (hname : Phase.isOperandName i.result = true) :
    Performs admits kb q m .body (eval (applyOperator i (.value o)) m) := by
  obtain ⟨s, a, b, hscratch, hab, -, -⟩ := hfit.operandValues hm
  have hx : i.result ≠ "$x0" :=
    structRegister_zero ▸ ne_structRegister (isOperandName_iff.1 hname).1 0
  rw [eval_applyOperator_value hresult hscratch hab]
  -- Either operand may have no number, and the result may be undefined.
  cases ha : m.heap.operand a with
  | error e => exact .stop (permitted_of_operand ha) rfl hm.good
  | ok x =>
    cases hb : m.heap.operand b with
    | error e => exact .stop (permitted_of_operand hb) rfl hm.good
    | ok y =>
      simp only
      split
      · exact .stop (.inl ⟨"M0108", by decide, rfl⟩) rfl hm.good
      · next z hz =>
        have h₁ : Tame m.depth m { m with heap := (m.heap.newConst (.number z)).2 } :=
          .newConst hm _ _
        have h₂ := h₁.trans (.put (f := m.current) (t := .const ⟨.number z, .heap m.heap.constants⟩)
          h₁.memory (by simp) (.inl hx))
        exact .body hfit.2.1 (h₂.trans (.fields h₂.memory _ ⟨rfl, rfl, rfl⟩)) rfl rfl

theorem assign_performs (hm : m.Memory) (hfit : Fits admits kb q m j (.operands 2)) :
    Performs admits kb q m .body (eval assign m) := by
  obtain ⟨s, a, b, hscratch, hab, ha, -⟩ := hfit.operandValues hm
  obtain ⟨f, htop⟩ := hfit.2.1.exists_top
  have hheld := hm.good.holds_deref ha
  rw [eval_assign hscratch hab fun v hv => hm.good.binding?_of_deref hv]
  cases hd : m.heap.deref a with
  | var v =>
    rw [hd] at hheld
    cases hb : m.heap.operand b with
    | error e => exact .stop (permitted_of_operand hb) rfl hm.good
    | ok x =>
      -- The number is a new constant, and the variable is bound to it.
      let m₁ : Machine := { m with heap := (m.heap.newConst (.number x)).2 }
      have h₁ : Tame m.depth m m₁ := .newConst hm _ _
      have hfree : m₁.heap.binding? v = none := by
        simpa [m₁] using hm.good.binding?_of_deref hd
      have h₂ := h₁.trans (.bindVar (t := .const ⟨.number x, .heap m.heap.constants⟩) h₁.memory
        htop hfree hheld (by simp) (by simp) rfl m.depth)
      have hindex : (m₁.bindVar v (.const ⟨.number x, .heap m.heap.constants⟩)).index = m.index := by
        rw [bindVar_fields (m := m₁) htop]
      exact .body hfit.2.1 (h₂.trans (.fields h₂.memory _ ⟨rfl, rfl, rfl⟩)) hindex rfl
  -- What is no variable is an error.
  | const c => exact .stop (.inl ⟨"M0104", by decide, rfl⟩) rfl hm.good
  | struct r => exact .stop (.inl ⟨"M0104", by decide, rfl⟩) rfl hm.good
  | absent => exact .stop (.inl ⟨"M0104", by decide, rfl⟩) rfl hm.good

/-- **Evaluating an expression.** -/
theorem operands_performs (hm : m.Memory) (hfit : Fits admits kb q m j (.operands n))
    (hnext : Phase.nextOperands n i = some p) :
    Performs admits kb q m p (eval (execute w i) m) := by
  have hcompare : ∀ c, execute w i = applyOperator i (.compare c) →
      (if n = 2 then some Phase.body else none) = some p →
      Performs admits kb q m p (eval (execute w i) m) := by
    intro c hop h
    rw [hop]
    split at h
    · next hn =>
      subst hn
      obtain rfl := Option.some.inj h
      exact compare_performs hm hfit c
    · cases h
  have hvalue : ∀ o, execute w i = applyOperator i (.value o) →
      (if n = 2 ∧ i.result ≠ "" ∧ Phase.isOperandName i.result then some Phase.body
        else none) = some p →
      Performs admits kb q m p (eval (execute w i) m) := by
    intro o hop h
    rw [hop]
    split at h
    · next hn =>
      obtain ⟨rfl, hresult, hname⟩ := hn
      obtain rfl := Option.some.inj h
      exact value_performs hm hfit o hresult hname
    · cases h
  have hconst : execute w i = Exec.pushConst i.constant →
      (if n < 2 ∧ i.constant.isSome then some (Phase.operands (n + 1)) else none) = some p →
      Performs admits kb q m p (eval (execute w i) m) := by
    intro hop h
    rw [hop]
    split at h
    · next hn =>
      obtain rfl := Option.some.inj h
      exact pushConst_performs hm hfit hn.2
    · cases h
  -- An operator finds exactly two operands; that is what the phase counts.
  unfold Phase.nextOperands at hnext
  split at hnext
  · next hop =>
    split at hnext
    · next hn =>
      obtain rfl := Option.some.inj hnext
      have hex : execute w i = pushVar i.name := by simp only [execute, hop]
      rw [hex]
      exact pushVar_performs hm hfit hn.2
    · cases hnext
  · next hop =>
    split at hnext
    · next hn =>
      obtain rfl := Option.some.inj hnext
      have hex : execute w i = pushValue i.name := by simp only [execute, hop]
      rw [hex]
      exact pushValue_performs hm hfit hn.2
    · cases hnext
  · next hop => exact hconst (by simp only [execute, hop]) hnext
  · next hop => exact hconst (by simp only [execute, hop]) hnext
  · next hop =>
    split at hnext
    · next hn =>
      subst hn
      obtain rfl := Option.some.inj hnext
      have hex : execute w i = assign := by simp only [execute, hop]
      rw [hex]
      exact assign_performs hm hfit
    · cases hnext
  · next hop => exact hcompare .lt (by simp only [execute, hop]) hnext
  · next hop => exact hcompare .gt (by simp only [execute, hop]) hnext
  · next hop => exact hcompare .le (by simp only [execute, hop]) hnext
  · next hop => exact hcompare .ge (by simp only [execute, hop]) hnext
  · next hop => exact hcompare .eq (by simp only [execute, hop]) hnext
  · next hop => exact hcompare .ne (by simp only [execute, hop]) hnext
  · next hop => exact hvalue .plus (by simp only [execute, hop]) hnext
  · next hop => exact hvalue .minus (by simp only [execute, hop]) hnext
  · next hop => exact hvalue .mult (by simp only [execute, hop]) hnext
  · next hop => exact hvalue .div (by simp only [execute, hop]) hnext
  · next hop => exact hvalue .intDiv (by simp only [execute, hop]) hnext
  · next hop => exact hvalue .mod (by simp only [execute, hop]) hnext
  · cases hnext

end Machine

end PrologMachine
