/-
  PrologMachine.Proofs.Renumbering.Machine ── **MACHINES UP TO THE NUMBERS OF A COMPILER.**

  Machines that run the same code up to renumbering take the same steps: every action comes out
  alike on both and leaves machines that are the same up to renumbering again.

    * `Renumbering.Machines`: machines that are the same up to renumbering, wherever their
      transcripts stand.
    * `Mirrors` is the property of two actions; it is closed under sequencing.
    * `execute_mirrors`: every instruction but a call.
-/
import PrologMachine.Proofs.Machine.Unwinding
import PrologMachine.Proofs.Renumbering.Code
import PrologMachine.Proofs.Renumbering.Native

namespace PrologMachine

namespace Renumbering

variable {ρ : Renumbering} {K K' : Kinds}

/-! ## §1. Frames. -/

/-- Paired goals: one structure. -/
def Called (K : Kinds) (t t' : Value) : Prop := ∃ s ∈ K.goals, t = .struct s ∧ t' = .struct s

/-- A variable or register of the same name with paired values; `$x0` holds a goal. -/
def Slot (ρ : Renumbering) (K : Kinds) (e e' : String × Value) : Prop :=
  e'.1 = e.1 ∧ if e.1 = "$x0" then Called K e.2 e'.2 else ρ.Val K e.2 e'.2

/-- A goal stays a goal when more structures are known. -/
theorem Called.mono {t t' : Value} (hK : K ≤ K') (h : Called K t t') : Called K' t t' :=
  h.imp fun _ h => ⟨hK.2 h.1, h.2⟩

theorem Slot.mono {e e' : String × Value} (hK : K ≤ K') (h : ρ.Slot K e e') : ρ.Slot K' e e' := by
  refine ⟨h.1, ?_⟩
  have hvalue := h.2
  split
  · next hx =>
      rw [if_pos hx] at hvalue
      exact hvalue.mono hK
  · next hx =>
      rw [if_neg hx] at hvalue
      exact hvalue.mono hK

/-- Points of return in the same code up to renumbering. -/
structure Returns (ρ : Renumbering) (r r' : ReturnPoint) : Prop where
  /-- The code of the caller. -/
  code : Option.Rel ρ.Clause r.code r'.code
  /-- The block there. -/
  label : r'.label = r.label
  /-- The instruction in the block. -/
  index : r'.index = r.index
  /-- The frame of the caller. -/
  frame : r'.frame = r.frame
  /-- The pending alternatives of the caller. -/
  alternatives : r'.alternatives = r.alternatives

/-- Frames that are the same up to renumbering. -/
structure Frames (ρ : Renumbering) (K : Kinds) (fr fr' : Frame) : Prop where
  /-- The depth. -/
  position : fr'.position = fr.position
  /-- Variables and registers. -/
  vars : List.Forall₂ (ρ.Slot K) fr.vars fr'.vars
  /-- Where the call returns to. -/
  returnPoint : Option.Rel ρ.Returns fr.returnPoint fr'.returnPoint
  /-- The trail. -/
  trail : fr'.trail = fr.trail
  /-- The clause being tried. -/
  clause : fr'.clause = fr.clause
  /-- How many clauses there are to try. -/
  clauses : fr'.clauses = fr.clauses
  /-- The stack index that a cut has left. -/
  cutTo : fr'.cutTo = fr.cutTo
  /-- A cut ran. -/
  committed : fr'.committed = fr.committed
  /-- The pending alternatives. -/
  alternatives : fr'.alternatives = fr.alternatives

namespace Frames

variable {fr fr' : Frame} {x : String} {t t' : Value}

/-- Frames stay counterparts when more structures are known. -/
theorem mono (hK : K ≤ K') (h : ρ.Frames K fr fr') : ρ.Frames K' fr fr' :=
  { h with vars := h.vars.imp fun _ _ => .mono hK }

/-- An empty frame. -/
theorem empty (K : Kinds) (n : Nat) : ρ.Frames K { position := n } { position := n } :=
  ⟨rfl, .nil, .none, rfl, rfl, rfl, rfl, rfl, rfl⟩

/-- Both frames have the variable or neither does. -/
theorem slot (h : ρ.Frames K fr fr') (x : String) :
    Option.Rel (fun t t' => ρ.Slot K (x, t) (x, t')) (fr.get? x) (fr'.get? x) := by
  have hvars := h.vars
  unfold Frame.get?
  generalize fr.vars = vars at hvars ⊢
  generalize fr'.vars = vars' at hvars ⊢
  induction hvars with
  | nil => exact .none
  | @cons e e' es es' he _ ih =>
    obtain ⟨y, t⟩ := e
    obtain ⟨y', t'⟩ := e'
    obtain ⟨rfl, ht⟩ := he
    simp only [List.lookup]
    by_cases hx : x = y'
    · subst hx
      simp only [beq_self_eq_true]
      exact .some ⟨rfl, ht⟩
    · have hne : (x == y') = false := by simpa using hx
      rw [hne]
      exact ih

/-- Variables and registers have counterparts, other than the goal. -/
theorem get? (h : ρ.Frames K fr fr') (hx : x ≠ "$x0") : ρ.Opt K (fr.get? x) (fr'.get? x) := by
  have hs := h.slot x
  cases ht : fr.get? x <;> cases ht' : fr'.get? x <;> rw [ht, ht'] at hs <;> cases hs
  · exact .none
  · next hs => exact .some (by simpa [hx] using hs.2)

/-- The goals of both frames are one structure. -/
theorem goal? (h : ρ.Frames K fr fr') :
    Option.Rel (Called K) (fr.get? "$x0") (fr'.get? "$x0") := by
  have hs := h.slot "$x0"
  cases ht : fr.get? "$x0" <;> cases ht' : fr'.get? "$x0" <;> rw [ht, ht'] at hs <;> cases hs
  · exact .none
  · next hs => exact .some (by simpa using hs.2)

/-- A slot is put into both frames. -/
theorem putSlot (h : ρ.Frames K fr fr') (hs : ρ.Slot K (x, t) (x, t')) :
    ρ.Frames K (fr.put x t) (fr'.put x t') := by
  have hhas : (fr'.vars.lookup x).isSome = (fr.vars.lookup x).isSome := by
    have hslot := h.slot x
    unfold Frame.get? at hslot
    cases hslot' : fr.vars.lookup x <;> cases hslot'' : fr'.vars.lookup x <;>
      rw [hslot', hslot''] at hslot <;> first | rfl | cases hslot
  unfold Frame.put
  rw [hhas]
  split
  · refine { h with vars := ?_ }
    show List.Forall₂ (ρ.Slot K) (fr.vars.map _) (fr'.vars.map _)
    rw [List.forall₂_map_left_iff, List.forall₂_map_right_iff]
    refine h.vars.imp fun e e' he => ?_
    rw [he.1]
    split
    · exact hs
    · exact he
  · exact { h with vars := .cons hs h.vars }

/-- A variable is put into both frames. -/
theorem put (h : ρ.Frames K fr fr') (hx : x ≠ "$x0") (ht : ρ.Val K t t') :
    ρ.Frames K (fr.put x t) (fr'.put x t') := h.putSlot ⟨rfl, by rwa [if_neg hx]⟩

/-- A goal is put into both frames. -/
theorem putGoal (h : ρ.Frames K fr fr') (ht : Called K t t') :
    ρ.Frames K (fr.put "$x0" t) (fr'.put "$x0" t') := h.putSlot ⟨rfl, by rwa [if_pos rfl]⟩

end Frames

/-! ## §2. Machines. -/

/-- **Machines that are the same up to renumbering**, wherever their transcripts stand. -/
structure Machines (ρ : Renumbering) (K : Kinds) (m m' : Machine) : Prop where
  /-- The cells. -/
  heap : ρ.Heaps K m.heap m'.heap
  /-- A question was set. -/
  asked : m'.asked = m.asked
  /-- The code being run. -/
  code : Option.Rel ρ.Clause m.code m'.code
  /-- The block being run. -/
  label : m'.label = m.label
  /-- The next instruction. -/
  index : m'.index = m.index
  /-- The last goal succeeded. -/
  success : m'.success = m.success
  /-- How arguments are treated. -/
  mode : m'.mode = m.mode
  /-- The structure being decoded. -/
  decoding : m'.decoding = m.decoding
  /-- The next argument to decode. -/
  argument : m'.argument = m.argument
  /-- Its register. -/
  register : m'.register = m.register
  /-- The structure under construction. -/
  building : m'.building = m.building
  /-- As many frames. -/
  size : m'.frames.size = m.frames.size
  /-- They are the same. -/
  frames : ∀ f, ρ.Frames K (m.frame f) (m'.frame f)
  /-- The stack. -/
  stack : m'.stack = m.stack
  /-- The frame of the call. -/
  target : m'.target = m.target
  /-- The frame of the clause. -/
  current : m'.current = m.current
  /-- The search stopped. -/
  ended : m'.ended = m.ended
  /-- It is over. -/
  exhausted : m'.exhausted = m.exhausted
  /-- The instructions run. -/
  steps : m'.steps = m.steps
  /-- The error. -/
  error : m'.error = m.error

namespace Machines

variable {m m' : Machine} {f : FrameId} {g g' : Frame → Frame} {h h' : Heap} {x : String}
  {t t' : Value} {v : VarId}

/-- The stacks have one depth. -/
theorem depth (hm : ρ.Machines K m m') : m'.depth = m.depth := congrArg Array.size hm.stack

/-- The frames on top have one number. -/
theorem top? (hm : ρ.Machines K m m') : m'.top? = m.top? := congrArg Array.back? hm.stack

/-- The frame of the running clause. -/
theorem currentFrame (hm : ρ.Machines K m m') :
    ρ.Frames K (m.frame m.current) (m'.frame m'.current) := by
  rw [hm.current]
  exact hm.frames m.current

/-- The same change of one frame. -/
theorem changeFrame (hm : ρ.Machines K m m') (f : FrameId)
    (hg : ∀ {fr fr'}, ρ.Frames K fr fr' → ρ.Frames K (g fr) (g' fr')) :
    ρ.Machines K (m.changeFrame f g) (m'.changeFrame f g') :=
  { hm with
    size := by rw [Machine.frames_size_changeFrame, Machine.frames_size_changeFrame, hm.size]
    frames := fun f' => by
      by_cases hf : f' = f
      · subst hf
        by_cases hlt : f' < m.frames.size
        · rw [Machine.frame_changeFrame_self hlt, Machine.frame_changeFrame_self (hm.size ▸ hlt)]
          exact hg (hm.frames f')
        · have hlt' : ¬ f' < m'.frames.size := hm.size ▸ hlt
          simp only [Machine.frame, Machine.changeFrame, Array.getElem?_modify, if_pos,
            Array.getElem?_eq_none (Nat.le_of_not_lt hlt),
            Array.getElem?_eq_none (Nat.le_of_not_lt hlt'), Option.map_none, Option.getD_none]
          exact .empty K 0
      · rw [Machine.frame_changeFrame_of_ne hf, Machine.frame_changeFrame_of_ne hf]
        exact hm.frames f' }

/-- Both current frames change. -/
theorem changeCurrent (hm : ρ.Machines K m m')
    (hg : ∀ {fr fr'}, ρ.Frames K fr fr' → ρ.Frames K (g fr) (g' fr')) :
    ρ.Machines K (m.changeFrame m.current g) (m'.changeFrame m'.current g') := by
  rw [hm.current]
  exact hm.changeFrame m.current hg

/-- The trail of a frame is replaced. -/
theorem changeTrail (hm : ρ.Machines K m m') (f : FrameId) (vs : List VarId) :
    ρ.Machines K (m.changeFrame f (fun fr => { fr with trail := vs }))
      (m'.changeFrame f (fun fr => { fr with trail := vs })) :=
  hm.changeFrame f fun hfr => { hfr with trail := rfl }

/-- Other cells. -/
theorem withHeap (hm : ρ.Machines K m m') (hK : K ≤ K') (hh : ρ.Heaps K' h h') :
    ρ.Machines K' { m with heap := h } { m' with heap := h' } :=
  { hm with
    heap := hh
    frames := fun f => (hm.frames f).mono hK }

/-- Bindings are recorded on both trails. -/
theorem trailAll (hm : ρ.Machines K m m') (vs : List VarId) :
    ρ.Machines K (m.trailAll vs) (m'.trailAll vs) := by
  unfold Machine.trailAll
  rw [hm.top?]
  split
  · exact hm.changeFrame _ fun hfr => { hfr with trail := by rw [hfr.trail] }
  · exact hm

theorem trail (hm : ρ.Machines K m m') (v : VarId) : ρ.Machines K (m.trail v) (m'.trail v) := by
  unfold Machine.trail
  rw [hm.top?]
  split
  · exact hm.changeFrame _ fun hfr => { hfr with trail := by rw [hfr.trail] }
  · exact hm

/-- Unification succeeds on both sides or on neither, and leaves counterparts. -/
theorem unify (hm : ρ.Machines K m m') {a a' b b' : Value} (ha : ρ.Val K a a')
    (hb : ρ.Val K b b') : (m'.unify a' b').1 = (m.unify a b).1 ∧
      ρ.Machines K (m.unify a b).2 (m'.unify a' b').2 := by
  obtain ⟨hok, hu⟩ := hm.heap.unify ha hb
  unfold Machine.unify
  generalize m.heap.unify a b = r at hok hu
  generalize m'.heap.unify a' b' = r' at hok hu
  obtain ⟨ok, u⟩ := r
  obtain ⟨ok', u'⟩ := r'
  refine ⟨hok, ?_⟩
  simp only
  rw [hu.bound]
  exact (hm.withHeap le_rfl hu.heap).trailAll _

end Machines

/-! ## §3. Actions. -/

/-- What two actions come to: they return related values or stop with the same error, and leave
    machines that are the same up to renumbering. -/
inductive Outcomes {α β : Type} (ρ : Renumbering) (K : Kinds) (R : Kinds → α → β → Prop) :
    Except Error α × Machine → Except Error β × Machine → Prop where
  /-- They return. -/
  | ok {K' : Kinds} {a : α} {b : β} {m m' : Machine} (hK : K ≤ K') (h : R K' a b)
    (hm : ρ.Machines K' m m') : Outcomes ρ K R (.ok a, m) (.ok b, m')
  /-- They stop. -/
  | error {K' : Kinds} {e : Error} {m m' : Machine} (hK : K ≤ K') (hm : ρ.Machines K' m m') :
    Outcomes ρ K R (.error e, m) (.error e, m')

/-- Actions that start with more structures of terms. -/
theorem Outcomes.widen {α β : Type} {ρ : Renumbering} {K K' : Kinds} {R : Kinds → α → β → Prop}
    {a : Except Error α × Machine} {b : Except Error β × Machine} (hK : K ≤ K')
    (h : ρ.Outcomes K' R a b) : ρ.Outcomes K R a b := by
  cases h with
  | ok hK' h hm => exact .ok (hK.trans hK') h hm
  | error hK' hm => exact .error (hK.trans hK') hm

/-- The same value on both sides. -/
abbrev Same {α : Type} : Kinds → α → α → Prop := fun _ a a' => a' = a

end Renumbering

open Renumbering

namespace Exec

variable {α β γ δ : Type} {ρ : Renumbering} {K K' : Kinds} {R : Kinds → α → β → Prop}
  {S : Kinds → γ → δ → Prop} {w w' : World} {m m' : Machine} {f : FrameId} {t t' : Value}
  {i i' : Instruction} {name : String} {v : VarId}

/-- **The actions come out alike on machines that are the same up to renumbering.** -/
def Mirrors (ρ : Renumbering) (K : Kinds) (R : Kinds → α → β → Prop) (x : Exec α) (x' : Exec β) :
    Prop := ∀ m m', ρ.Machines K m m' → ρ.Outcomes K R (eval x m) (eval x' m')

namespace Mirrors

protected theorem pure {a : α} {b : β} (h : R K a b) : Mirrors ρ K R (pure a) (pure b) :=
  fun _ _ hm => .ok le_rfl h hm

/-- Both stop with the same error. -/
protected theorem stop (e : RunError) : Mirrors ρ K R (Exec.stop e) (Exec.stop e) :=
  fun _ _ hm => .error le_rfl hm

protected theorem get : Mirrors ρ K (fun K => ρ.Machines K) get get :=
  fun _ _ hm => .ok le_rfl hm hm

protected theorem modify {g g' : Machine → Machine}
    (h : ∀ {m m'}, ρ.Machines K m m' → ρ.Machines K (g m) (g' m')) :
    Mirrors ρ K Same (modify g) (modify g') := fun _ _ hm => .ok le_rfl rfl (h hm)

/-- Actions in turn: the second pair may count on the structures that the first has made. -/
protected theorem bind {x : Exec α} {x' : Exec β} {k : α → Exec γ} {k' : β → Exec δ}
    (hx : Mirrors ρ K R x x')
    (hk : ∀ {K' a b}, K ≤ K' → R K' a b → Mirrors ρ K' S (k a) (k' b)) :
    Mirrors ρ K S (x >>= k) (x' >>= k') := by
  intro m m' hm
  have hout := hx m m' hm
  rw [eval_bind, eval_bind]
  generalize eval x m = out at hout
  generalize eval x' m' = out' at hout
  cases hout with
  | ok hK h hm =>
    have hrest := hk hK h _ _ hm
    simp only
    generalize eval (k _) _ = out at hrest
    generalize eval (k' _) _ = out' at hrest
    cases hrest with
    | ok hK' h' hm' => exact .ok (hK.trans hK') h' hm'
    | error hK' hm' => exact .error (hK.trans hK') hm'
  | error hK hm => exact .error hK hm

/-- The state is looked at first. -/
protected theorem withGet {k : Machine → Exec α} {k' : Machine → Exec β}
    (hk : ∀ {m m'}, ρ.Machines K m m' → ρ.Outcomes K R (eval (k m) m) (eval (k' m') m')) :
    Mirrors ρ K R (get >>= k) (get >>= k') := fun _ _ hm => hk hm

protected theorem ite (c : Prop) [Decidable c] {x y : Exec α} {x' y' : Exec β}
    (hx : Mirrors ρ K R x x') (hy : Mirrors ρ K R y y') :
    Mirrors ρ K R (if c then x else y) (if c then x' else y') := by
  split <;> assumption

end Mirrors

/-- Both current frames change. -/
theorem changeCurrent_mirrors {g g' : Frame → Frame}
    (hg : ∀ {fr fr'}, ρ.Frames K fr fr' → ρ.Frames K (g fr) (g' fr')) :
    Mirrors ρ K Same (changeCurrent g) (changeCurrent g') := .modify fun hm => hm.changeCurrent hg

/-- Both current frames are read. -/
theorem current_mirrors : Mirrors ρ K (fun K => ρ.Frames K) current current :=
  fun _ _ hm => .ok le_rfl hm.currentFrame hm

/-- The frame that is called has one number. -/
theorem target_mirrors (op : Opcode) : Mirrors ρ K Same (target op) (target op) := by
  refine Mirrors.bind .get fun _ hm => ?_
  rw [hm.target]
  split
  · exact .pure rfl
  · exact .stop _

/-- Both sides make a variable of the same number. -/
theorem fresh_mirrors (name : String) : Mirrors ρ K (ρ.Val) (fresh name) (fresh name) := by
  intro m m' hm
  rw [eval_fresh, eval_fresh, hm.heap.vars]
  exact .ok le_rfl (.var _) (hm.withHeap le_rfl (hm.heap.fresh name))

/-- A new structure of a term. -/
theorem newStruct_mirrors (name : String) :
    Mirrors ρ K (fun K s s' => s' = s ∧ s ∈ K.data) (newStruct name) (newStruct name) := by
  intro m m' hm
  rw [eval_newStruct, eval_newStruct, hm.heap.structs]
  exact .ok (K.le_addData _) ⟨rfl, Set.mem_insert _ _⟩
    (hm.withHeap (K.le_addData _) (hm.heap.newData name .nil))

/-- A new goal. -/
theorem newGoal_mirrors {name name' : String} (hname : ρ.Name name name') :
    Mirrors ρ K (fun K s s' => s' = s ∧ s ∈ K.goals) (newStruct name) (newStruct name') := by
  intro m m' hm
  rw [eval_newStruct, eval_newStruct, hm.heap.structs]
  exact .ok (K.le_addGoal _) ⟨rfl, Set.mem_insert _ _⟩
    (hm.withHeap (K.le_addGoal _) (hm.heap.newGoal hname))

/-- Both sides make a number. -/
theorem newNumber_mirrors (x : Float) : Mirrors ρ K (ρ.Val) (newNumber x) (newNumber x) := by
  intro m m' hm
  rw [eval_newNumber, eval_newNumber]
  exact .ok le_rfl (.const (hm.heap.newConst_const _)) (hm.withHeap le_rfl (hm.heap.newConst _))

/-- An argument is put behind those of a structure. -/
theorem pushArg_mirrors (s : StructId) (ht : ρ.Val K t t') :
    Mirrors ρ K Same (pushArg s t) (pushArg s t') :=
  .modify fun hm => hm.withHeap le_rfl (hm.heap.pushArg ht s)

/-- Ends of chains are counterparts. -/
theorem deref_mirrors (ht : ρ.Val K t t') : Mirrors ρ K (ρ.Val) (deref t) (deref t') :=
  fun _ _ hm => .ok le_rfl (hm.heap.deref ht) hm

/-- The value of a variable is read, or a new variable is made for it. -/
theorem lookup_mirrors (hname : name ≠ "$x0") :
    Mirrors ρ K (ρ.Val) (lookup name) (lookup name) := by
  refine current_mirrors.bind fun {K fr fr'} _ hfr => ?_
  have hget := hfr.get? hname
  cases ht : fr.get? name <;> cases ht' : fr'.get? name <;> rw [ht, ht'] at hget
  · refine (fresh_mirrors name).bind fun _ hv => ?_
    exact (changeCurrent_mirrors fun hfr => hfr.put hname hv).bind fun hK _ => .pure (hv.mono hK)
  · cases hget
  · cases hget
  · cases hget with
    | some hget => exact .pure hget

/-- Both sides bind the variable, or both object. -/
theorem bind_mirrors (v : VarId) (ht : ρ.Val K t t') : Mirrors ρ K Same (bind v t) (bind v t') := by
  -- The variable is set behind its entry in the trail, or at once.
  have hset : ∀ {K' : Kinds} {m m' : Machine}, K ≤ K' → ρ.Machines K' m m' →
      m'.heap.bindFault? v t' = m.heap.bindFault? v t ∧ Mirrors ρ K' Same
        (modify (fun m => { m with heap := m.heap.set v t }))
        (modify (fun m => { m with heap := m.heap.set v t' })) := by
    intro K' m m' hK hm
    have ht' := ht.mono hK
    exact ⟨hm.heap.bindFault? v ht', .modify fun hm => hm.withHeap le_rfl (hm.heap.set ht' v)⟩
  refine Mirrors.bind .get fun hK hm => ?_
  rw [hm.heap.isBound]
  refine .ite _ ((Mirrors.modify fun hm => hm.trail v).bind fun hK' _ =>
    Mirrors.bind .get fun hK'' hm => ?_) (Mirrors.bind .get fun hK' hm => ?_)
  · obtain ⟨hfault, hmodify⟩ := hset (hK.trans (hK'.trans hK'')) hm
    rw [hfault]
    split
    · exact .stop _
    · exact hmodify
  · obtain ⟨hfault, hmodify⟩ := hset (hK.trans hK') hm
    rw [hfault]
    split
    · exact .stop _
    · exact hmodify

/-- Both sides unify, and record what they have bound. -/
theorem unify_mirrors {a a' b b' : Value} (ha : ρ.Val K a a') (hb : ρ.Val K b b') :
    Mirrors ρ K Same (unify a b) (unify a' b') := by
  intro m m' hm
  obtain ⟨hok, hm'⟩ := hm.unify ha hb
  rw [eval_unify, eval_unify]
  exact .ok le_rfl hok hm'

/-! ## §4. Undoing, failure and returns. -/

/-- The same variables are unbound, in the same order, up to the same error. -/
theorem unwindTrail_same {h h' : Heap} (hh : ρ.Heaps K h h') (n : Nat) (vs : List VarId) :
    (unwindTrail n vs h').1 = (unwindTrail n vs h).1 ∧
      (unwindTrail n vs h').2.1 = (unwindTrail n vs h).2.1 ∧
      ρ.Heaps K (unwindTrail n vs h).2.2 (unwindTrail n vs h').2.2 := by
  induction n generalizing vs h h' with
  | zero => exact ⟨rfl, rfl, hh⟩
  | succ n ih =>
    cases vs with
    | nil => exact ⟨rfl, rfl, hh⟩
    | cons v vs =>
      unfold unwindTrail
      rw [hh.isBound, (hh.var v).name]
      split
      · exact ih (hh.reset v) vs
      · exact ⟨rfl, rfl, hh⟩

/-- Both trails are undone to the mark. -/
theorem unwindTo_mirrors (f : FrameId) (mark : Nat) :
    Mirrors ρ K Same (unwindTo f mark) (unwindTo f mark) := by
  refine .withGet fun {m m'} hm => ?_
  obtain ⟨herror, hrest, hheap⟩ :=
    unwindTrail_same hm.heap ((m.frame f).trail.length - mark) (m.frame f).trail
  simp only [(hm.frames f).trail, eval_bind, eval_set]
  generalize unwindTrail _ _ m.heap = u at herror hrest hheap ⊢
  generalize unwindTrail _ _ m'.heap = u' at herror hrest hheap ⊢
  obtain ⟨e, rest, heap⟩ := u
  obtain ⟨e', rest', heap'⟩ := u'
  obtain rfl : e' = e := herror
  obtain rfl : rest' = rest := hrest
  have hm' := (hm.withHeap le_rfl hheap).changeTrail f rest'
  cases e' with
  | some e => exact .error le_rfl hm'
  | none => exact .ok le_rfl rfl hm'

/-- Both frames on top are removed, and their trails handed down. -/
theorem pop_mirrors : Mirrors ρ K Same pop pop := by
  refine .withGet fun {m m'} hm => ?_
  rw [hm.depth, hm.top?]
  split
  · exact .error le_rfl hm
  split
  · exact .error le_rfl hm
  next f hf =>
  -- Both trails are undone, to the same error if there is one.
  obtain ⟨herror, hrest, hheap⟩ :=
    unwindTrail_same hm.heap (m.frame f).trail.length (m.frame f).trail
  simp only [(hm.frames f).trail, eval_bind, eval_set]
  generalize unwindTrail _ _ m.heap = u at herror hrest hheap ⊢
  generalize unwindTrail _ _ m'.heap = u' at herror hrest hheap ⊢
  obtain ⟨e, rest, heap⟩ := u
  obtain ⟨e', rest', heap'⟩ := u'
  obtain rfl : e' = e := herror
  obtain rfl : rest' = rest := hrest
  have hpopped : ρ.Machines K { m with heap, stack := m.stack.pop }
      { m' with heap := heap', stack := m'.stack.pop } :=
    { hm.withHeap le_rfl hheap with stack := congrArg Array.pop hm.stack }
  have hm' := hpopped.changeTrail f rest'
  cases e' with
  | some e => exact .error le_rfl hm'
  | none => exact .ok le_rfl rfl hm'

theorem popMany_mirrors : ∀ {K : Kinds} (n : Nat), Mirrors ρ K Same (popMany n) (popMany n)
  | _, 0 => .pure rfl
  | _, n + 1 => pop_mirrors.bind fun _ _ => popMany_mirrors n

/-- Frames are removed down to one depth. -/
theorem popTo_mirrors (depth : Nat) : Mirrors ρ K Same (popTo depth) (popTo depth) := by
  refine Mirrors.bind .get fun _ hm => ?_
  rw [hm.depth]
  exact popMany_mirrors _

theorem jump_mirrors (label : String) : Mirrors ρ K Same (jump label) (jump label) :=
  .modify fun hm => { hm with label := rfl, index := rfl, frames := hm.frames }

/-- Both calls return, to counterparts of one place in the code. -/
theorem returnTo_mirrors (f : FrameId) : Mirrors ρ K Same (returnTo f) (returnTo f) := by
  refine .modify fun {m m'} hm => ?_
  have hr := (hm.frames f).returnPoint
  generalize (m.frame f).returnPoint = r at hr ⊢
  generalize (m'.frame f).returnPoint = r' at hr ⊢
  cases hr with
  | none => exact { hm with code := .none, label := rfl, index := rfl, frames := hm.frames }
  | some hr =>
    exact { hm with code := hr.code, label := hr.label, index := hr.index, frames := hm.frames }

/-- Both callers go on with the alternatives that they had. -/
theorem resume_mirrors (f : FrameId) : Mirrors ρ K Same (resume f) (resume f) := by
  refine Mirrors.bind .get fun {K m m'} _ hm => ?_
  have hr := (hm.frames f).returnPoint
  generalize (m.frame f).returnPoint = r at hr ⊢
  generalize (m'.frame f).returnPoint = r' at hr ⊢
  cases hr with
  | none => exact .stop _
  | @some r r' hr =>
    refine (returnTo_mirrors f).bind fun _ _ => .modify fun {m m'} hm => ?_
    have hm' : ρ.Machines _ { m with current := r.frame, target := some f, success := false }
        { m' with current := r'.frame, target := some f, success := false } :=
      { hm with current := hr.frame, target := rfl, success := rfl, frames := hm.frames }
    rw [hr.frame] at hm' ⊢
    rw [hr.alternatives]
    exact hm'.changeFrame _ fun hfr => { hfr with alternatives := rfl }

/-- Both go back to the same choice. -/
theorem backtrack_mirrors : Mirrors ρ K Same backtrack backtrack := by
  refine Mirrors.bind .get fun {K m m'} _ hm => ?_
  rw [hm.top?, hm.depth]
  split
  · exact .pure rfl
  next f hf =>
  refine .ite _ (.pure rfl) ?_
  rw [(hm.frames f).cutTo]
  split
  · exact (resume_mirrors f).bind fun _ _ => .pure rfl
  refine (popMany_mirrors _).bind fun _ _ => Mirrors.bind .get fun {K m m'} _ hm => ?_
  rw [hm.top?]
  split
  · exact .pure rfl
  next f hf =>
  refine .ite _ (.pure rfl) (Mirrors.bind (.modify fun hm => ?_) fun _ _ =>
    (resume_mirrors f).bind fun _ _ => .pure rfl)
  exact hm.changeFrame f fun hfr => { hfr with cutTo := rfl }

/-- If there is none, both searches end. -/
theorem backtrackOrEnd_mirrors : Mirrors ρ K Same backtrackOrEnd backtrackOrEnd := by
  refine backtrack_mirrors.bind fun _ hok => ?_
  rw [hok]
  exact .ite _ (.modify fun hm => { hm with ended := rfl, exhausted := rfl, frames := hm.frames })
    (.pure rfl)

theorem succeeds_mirrors (ok : Bool) : Mirrors ρ K Same (modify (fun m => { m with success := ok }))
    (modify (fun m => { m with success := ok })) :=
  .modify fun hm => { hm with success := rfl, frames := hm.frames }

theorem headFail_mirrors : Mirrors ρ K Same headFail headFail :=
  (succeeds_mirrors false).bind fun _ _ => backtrackOrEnd_mirrors

theorem alternatives_mirrors (as : List Alternative) : Mirrors ρ K Same
    (changeCurrent (fun fr => { fr with alternatives := as }))
    (changeCurrent (fun fr => { fr with alternatives := as })) :=
  changeCurrent_mirrors fun hfr => { hfr with alternatives := rfl }

/-- Both take the same pending alternative, or go back to the same choice. -/
theorem failure_mirrors : Mirrors ρ K Same failure failure := by
  refine (succeeds_mirrors false).bind fun _ _ => Mirrors.bind .get fun {K m m'} _ hm => ?_
  -- The alternatives are dropped, or the first of them is taken.
  have hleave : ∀ {K : Kinds} (as : List Alternative), Mirrors ρ K Same (do
      changeCurrent (fun fr => { fr with alternatives := as })
      backtrackOrEnd) (do
      changeCurrent (fun fr => { fr with alternatives := as })
      backtrackOrEnd) := fun as => (alternatives_mirrors as).bind fun _ _ => backtrackOrEnd_mirrors
  have htaken : ∀ {K : Kinds} (label : String), Mirrors ρ K Same (do
      modify (fun m => { m with success := true })
      jump label) (do
      modify (fun m => { m with success := true })
      jump label) := fun label => (succeeds_mirrors true).bind fun _ _ => jump_mirrors label
  simp only
  rw [hm.depth, hm.top?, hm.currentFrame.alternatives]
  split
  next a rest _ =>
    refine .ite _ ((alternatives_mirrors rest).bind fun _ _ => ?_) (hleave _)
    split
    · exact (unwindTo_mirrors _ _).bind fun _ _ => htaken a.label
    · exact .pure rfl
  · exact hleave _

/-! ## §5. Control. -/

/-- Both make a frame, with the same number. -/
theorem allocate_mirrors : Mirrors ρ K Same allocate allocate := by
  refine .modify fun {m m'} hm => ?_
  have hframe : ∀ (m : Machine) (f : FrameId), Machine.frame { m with
      frames := m.frames.push { position := m.depth }, stack := m.stack.push m.frames.size
      target := some m.frames.size } f =
        if f = m.frames.size then { position := m.depth } else m.frame f := by
    intro m f
    simp only [Machine.frame, Array.getElem?_push]
    split <;> rfl
  refine { hm with
    size := by simp [hm.size]
    frames := fun f => ?_
    stack := by rw [hm.stack, hm.size]
    target := by rw [hm.size] }
  simp only
  rw [hframe, hframe, hm.size, hm.depth]
  split
  · exact .empty _ _
  · exact hm.frames f

/-- Both note where the call returns to. -/
theorem setup_mirrors : Mirrors ρ K Same setup setup := by
  refine (target_mirrors _).bind fun {K f f'} _ hf => .withGet fun {m m'} hm => ?_
  obtain rfl : f' = f := hf
  have hr : ρ.Returns
      { code := m.code, label := m.label, index := m.index + 1, frame := m.current
        alternatives := (m.frame m.current).alternatives }
      { code := m'.code, label := m'.label, index := m'.index + 1, frame := m'.current
        alternatives := (m'.frame m'.current).alternatives } :=
    ⟨hm.code, hm.label, congrArg (· + 1) hm.index, hm.current, hm.currentFrame.alternatives⟩
  exact .ok le_rfl rfl (hm.changeFrame f' fun hfr => { hfr with
    clause := rfl, returnPoint := .some hr })

/-- Both undo the bindings of the last clause and turn to the next one, or give up. -/
theorem retry_mirrors (f : FrameId) : Mirrors ρ K Same (retry f) (retry f) := by
  refine (unwindTo_mirrors f 0).bind fun _ _ => .withGet fun {m m'} hm => ?_
  simp only
  rw [(hm.frames f).committed, (hm.frames f).clause, (hm.frames f).clauses]
  split
  · have hm' : ρ.Machines _ { m with index := m.index - 2 } { m' with index := m'.index - 2 } :=
      { hm with index := by rw [hm.index], frames := hm.frames }
    exact .ok le_rfl rfl (hm'.changeFrame f fun hfr => { hfr with clause := by rw [hfr.clause] })
  · exact .ok le_rfl rfl hm

/-- The outcome of a call is looked at: both leave it, or both try again. -/
theorem maybeRetry_mirrors : Mirrors ρ K Same maybeRetry maybeRetry := by
  refine Mirrors.bind .get fun {K m m'} _ hm => ?_
  rw [hm.success, hm.target]
  split
  · exact (retry_mirrors _).bind fun _ _ => .pure rfl
  · exact .pure rfl

/-- For a negated call success and failure change places. -/
theorem maybeRetryN_mirrors : Mirrors ρ K Same maybeRetryN maybeRetryN := by
  refine Mirrors.bind .get fun {K m m'} _ hm => ?_
  rw [hm.success, hm.target]
  split
  · exact .pure rfl
  next f _ =>
  -- Unless the call is tried again, its frame goes and its outcome is inverted.
  have hrest : ∀ {K : Kinds} (retried : Bool), Mirrors ρ K Same
      (if retried = true then return () else do
        popTo ((← get).frame f).position
        modify (fun m => { m with target := none, success := !m.success }))
      (if retried = true then return () else do
        popTo ((← get).frame f).position
        modify (fun m => { m with target := none, success := !m.success })) := by
    intro K retried
    refine .ite _ (.pure rfl) (Mirrors.bind .get fun {K m m'} _ hm => ?_)
    rw [(hm.frames f).position]
    exact (popTo_mirrors _).bind fun _ _ => .modify fun hm => { hm with
      target := rfl, success := by rw [hm.success], frames := hm.frames }
  split
  · exact (Mirrors.pure (R := Same) rfl).bind fun _ h => h ▸ hrest _
  · exact (retry_mirrors f).bind fun _ h => h ▸ hrest _

theorem deallocate_mirrors : Mirrors ρ K Same deallocate deallocate := by
  refine Mirrors.bind .get fun {K m m'} _ hm => ?_
  rw [hm.success, hm.target, hm.top?]
  split
  · exact .ite _ (.pure rfl) (Mirrors.bind
      (.modify fun hm => { hm with target := rfl, frames := hm.frames }) fun _ _ => pop_mirrors)
  · exact .pure rfl

theorem maybeFail_mirrors : Mirrors ρ K Same maybeFail maybeFail := by
  refine Mirrors.bind .get fun _ hm => ?_
  rw [hm.success]
  exact .ite _ (.pure rfl) failure_mirrors

/-- Both note the same alternative. -/
theorem tryElse_mirrors (label : String) : Mirrors ρ K Same (tryElse label) (tryElse label) := by
  refine Mirrors.bind .get fun {K m m'} _ hm => ?_
  simp only
  rw [hm.top?, hm.depth]
  refine changeCurrent_mirrors fun hfr => { hfr with alternatives := ?_ }
  rw [hfr.alternatives]
  split
  · rw [(hm.frames _).trail]
  · rfl

theorem tryFinally_mirrors : Mirrors ρ K Same tryFinally tryFinally := by
  refine Mirrors.bind .get fun {K m m'} _ hm => ?_
  simp only
  rw [hm.depth]
  exact changeCurrent_mirrors fun hfr => { hfr with alternatives := by rw [hfr.alternatives] }

theorem endQuery_mirrors : Mirrors ρ K Same endQuery endQuery := by
  refine Mirrors.bind .get fun _ hm => ?_
  rw [hm.success]
  exact .ite _ (.modify fun hm => { hm with ended := rfl, frames := hm.frames }) failure_mirrors

theorem proceed_mirrors : Mirrors ρ K Same proceed proceed := by
  refine Mirrors.bind .get fun {K m m'} _ hm => ?_
  rw [hm.success, hm.current]
  refine .ite _ failure_mirrors (.ite _ endQuery_mirrors ?_)
  have hcaller : (m'.frame m.current).returnPoint.map ReturnPoint.frame =
      (m.frame m.current).returnPoint.map ReturnPoint.frame := by
    have hr := (hm.frames m.current).returnPoint
    generalize (m.frame m.current).returnPoint = r at hr
    generalize (m'.frame m.current).returnPoint = r' at hr
    cases hr with
    | none => rfl
    | some hr => exact congrArg some hr.frame
  simp only
  rw [hcaller]
  exact (returnTo_mirrors _).bind fun _ _ => .modify fun hm => { hm with
    target := rfl, current := rfl, frames := hm.frames }

/-- Both commit to the clause. -/
theorem cut_mirrors : Mirrors ρ K Same cut cut := by
  refine Mirrors.bind .get fun {K m m'} _ hm => ?_
  have hcommit : ∀ {K : Kinds}, Mirrors ρ K Same
      (changeCurrent (fun fr => { fr with committed := true, alternatives := [] }))
      (changeCurrent (fun fr => { fr with committed := true, alternatives := [] })) :=
    changeCurrent_mirrors fun hfr => { hfr with committed := rfl, alternatives := rfl }
  simp only
  rw [hm.top?, hm.currentFrame.position]
  split
  · refine Mirrors.bind (.modify fun hm => hm.changeFrame _ fun hfr => ?_) fun _ _ => hcommit
    exact { hfr with cutTo := by rw [hfr.cutTo] }
  · exact .pure rfl

/-! ## §6. Structures. -/

/-- Both begin to decode the same structure. -/
theorem decode_mirrors (mode : Mode) (s : StructId) (register : String) : Mirrors ρ K Same
    (modify (fun m : Machine => { m with mode, decoding := some s, argument := 0, register }))
    (modify (fun m : Machine => { m with mode, decoding := some s, argument := 0, register })) :=
  .modify fun hm => { hm with
    mode := rfl, decoding := rfl, argument := rfl, register := rfl, frames := hm.frames }

/-- **Starting to decode a structure.**  The goal of a head is looked up in its register, and there
    the names of goal and head are paired one to one. -/
theorem getStruct_mirrors (hi : ρ.Instr i i') : Mirrors ρ K Same (getStruct i) (getStruct i') := by
  refine Mirrors.bind .get fun {K m m'} _ hm => ?_
  rw [hi.register, hm.decoding, hm.register]
  refine .ite _ (.stop _) ?_
  -- The goal keeps its functor on each side; any other structure has the same one on both.
  by_cases hr : i.register = "$x0"
  · have hx := hm.currentFrame.goal?
    rw [hr]
    generalize (m.frame m.current).get? "$x0" = x at hx ⊢
    generalize (m'.frame m'.current).get? "$x0" = x' at hx ⊢
    cases hx with
    | none => exact .stop _
    | some hx =>
      obtain ⟨s, hs, rfl, rfl⟩ := hx
      have hname : (m'.heap.structCell s).name = i'.functor ↔
          (m.heap.structCell s).name = i.functor :=
        -- The two names are told apart by one comparison, since renumbering is injective on goals.
        ((hm.heap.goal s hs).inj (hi.goal hr).name).symm
      simp only [Heap.deref, ne_eq, hname, hm.heap.length, hi.arity]
      exact .ite _ headFail_mirrors (decode_mirrors _ _ _)
  · have hx := hm.currentFrame.get? hr
    have hfunctor := hi.functor hr
    generalize (m.frame m.current).get? i.register = x at hx ⊢
    generalize (m'.frame m'.current).get? i.register = x' at hx ⊢
    cases hx with
    | none => exact .stop _
    | some hx =>
      have hd := hm.heap.deref hx
      simp only
      generalize m.heap.deref _ = d at hd ⊢
      generalize m'.heap.deref _ = d' at hd ⊢
      rw [hfunctor, hi.arity]
      -- Counterparts are values of one kind.
      cases d with
      | struct s =>
        obtain ⟨rfl, hs⟩ := hd.of_struct
        simp only
        rw [hm.heap.data s hs, hm.heap.length]
        exact .ite _ headFail_mirrors (decode_mirrors _ _ _)
      | var v =>
        rw [hd.of_var]
        refine (newStruct_mirrors _).bind fun _ hs => ?_
        obtain ⟨rfl, hs⟩ := hs
        exact (bind_mirrors v (.struct hs)).bind fun _ _ => decode_mirrors _ _ _
      | const c =>
        obtain ⟨c', rfl, hc⟩ := hd.of_const
        simp only
        rw [hc.isAtom]
        refine .ite _ headFail_mirrors ((newStruct_mirrors _).bind fun _ hs => ?_)
        obtain ⟨rfl, -⟩ := hs
        exact decode_mirrors _ _ _
      | absent =>
        rw [hd.of_absent]
        exact .stop _

/-- The next arguments are counterparts. -/
theorem nextArg_mirrors : Mirrors ρ K (ρ.Val) nextArg nextArg := by
  refine .withGet fun {m m'} hm => ?_
  have hdecoding := hm.decoding
  cases hd : m.decoding with
  | none =>
    rw [hd] at hdecoding
    simp only [hdecoding]
    exact .error le_rfl hm
  | some s =>
    rw [hd] at hdecoding
    have harg := getElem?_rel (hm.heap.args s) m.argument
    simp only [hdecoding, hm.argument]
    generalize (m.heap.structCell s).args[m.argument]? = x at harg ⊢
    generalize (m'.heap.structCell s).args[m.argument]? = x' at harg ⊢
    cases harg with
    | none => exact .error le_rfl hm
    | some ht =>
      exact .ok le_rfl ht { hm with decoding := rfl, argument := rfl, frames := hm.frames }

/-- Both write an argument. -/
theorem writeArg_mirrors (ht : ρ.Val K t t') : Mirrors ρ K Same (writeArg t) (writeArg t') := by
  refine Mirrors.bind .get fun hK hm => ?_
  rw [hm.decoding]
  split
  · exact pushArg_mirrors _ (ht.mono hK)
  · exact .stop _

/-- Both put a value into the current frame. -/
theorem setVar_mirrors (hname : name ≠ "$x0") (ht : ρ.Val K t t') :
    Mirrors ρ K Same (changeCurrent (·.put name t)) (changeCurrent (·.put name t')) :=
  changeCurrent_mirrors fun hfr => hfr.put hname ht

/-- Both read the argument into a variable, or make one. -/
theorem getVar_mirrors (hname : name ≠ "$x0") : Mirrors ρ K Same (getVar name) (getVar name) := by
  refine Mirrors.bind .get fun hK hm => ?_
  rw [hm.mode]
  split
  · exact (fresh_mirrors name).bind fun _ hv =>
      (setVar_mirrors hname hv).bind fun hK _ => writeArg_mirrors (hv.mono hK)
  · exact nextArg_mirrors.bind fun _ ht => setVar_mirrors hname ht

/-- Both unify the argument with a variable, or pass the variable on. -/
theorem getValue_mirrors (hname : name ≠ "$x0") :
    Mirrors ρ K Same (getValue name) (getValue name) := by
  refine (lookup_mirrors hname).bind fun _ hknown => Mirrors.bind .get fun hK hm => ?_
  have hknown' := hknown.mono hK
  rw [hm.mode]
  split
  · exact writeArg_mirrors hknown'
  · refine nextArg_mirrors.bind fun hK ht => ?_
    refine (unify_mirrors (hknown'.mono hK) ht).bind fun _ hok => ?_
    rw [hok]
    exact .ite _ (.pure rfl) headFail_mirrors

/-- Both skip the argument, or write a variable without a name. -/
theorem unifVoid_mirrors : Mirrors ρ K Same unifVoid unifVoid := by
  refine Mirrors.bind .get fun hK hm => ?_
  rw [hm.mode]
  split
  · exact (fresh_mirrors "_").bind fun _ hv => writeArg_mirrors hv
  · exact nextArg_mirrors.bind fun _ _ => .pure rfl

theorem getConst_mirrors (hi : ρ.Instr i i') : Mirrors ρ K Same (getConst i) (getConst i') := by
  have hconst := hi.constant
  unfold getConst
  rw [hi.op]
  generalize i.constant = c at hconst
  generalize i'.constant = c' at hconst
  cases hconst with
  | none => exact .stop _
  | some hc =>
    refine Mirrors.bind .get fun hK hm => ?_
    rw [hm.mode]
    split
    · exact writeArg_mirrors (.const hc)
    refine nextArg_mirrors.bind fun _ ht => (deref_mirrors ht).bind fun {K d d'} hK hd => ?_
    have ht' := ht.mono hK
    split
    · next v =>
      rw [hd.of_var]
      exact bind_mirrors v (.const hc)
    next hvar =>
    -- What is left is compared with the constant by unification, which binds nothing here.
    split
    · next v => cases d <;> first | exact hd.elim | exact (hvar _ rfl).elim
    refine .withGet fun {m m'} hm => ?_
    obtain ⟨hok, hu⟩ := hm.heap.unify ht' (Val.const hc)
    generalize m.heap.unify _ _ = r at hok hu ⊢
    generalize m'.heap.unify _ _ = r' at hok hu ⊢
    obtain ⟨ok, u⟩ := r
    obtain ⟨ok', u'⟩ := r'
    obtain rfl : ok' = ok := hok
    have hm' := hm.withHeap le_rfl hu.heap
    cases ok' with
    | true => exact .ok le_rfl rfl hm'
    | false => exact headFail_mirrors _ _ hm'

/-- Both start a structure; a goal gets its own name on each side. -/
theorem putStruct_mirrors (hi : ρ.Instr i i') : Mirrors ρ K Same (putStruct i) (putStruct i') := by
  unfold putStruct
  rw [hi.op, hi.register]
  refine (target_mirrors _).bind fun {K f f'} _ hf => ?_
  obtain rfl : f' = f := hf
  by_cases hr : i.register = "$x0"
  · refine (newGoal_mirrors (hi.goal hr).name).bind fun _ hs => .modify fun {m m'} hm => ?_
    obtain ⟨rfl, hs⟩ := hs
    have hm' := hm.changeFrame f' fun hfr => hfr.putGoal ⟨_, hs, rfl, rfl⟩
    rw [hr]
    exact { hm' with building := rfl, frames := hm'.frames }
  · rw [hi.functor hr]
    refine (newStruct_mirrors _).bind fun _ hs => .modify fun {m m'} hm => ?_
    obtain ⟨rfl, hs⟩ := hs
    have hm' := hm.changeFrame f' fun hfr => hfr.put hr (.struct hs)
    exact { hm' with building := rfl, frames := hm'.frames }

theorem putArg_mirrors (ht : ρ.Val K t t') : Mirrors ρ K Same (putArg t) (putArg t') := by
  refine Mirrors.bind .get fun hK hm => ?_
  rw [hm.building]
  split
  · exact pushArg_mirrors _ (ht.mono hK)
  · exact .stop _

theorem putVar_mirrors (hname : name ≠ "$x0") : Mirrors ρ K Same (putVar name) (putVar name) :=
  (fresh_mirrors name).bind fun _ hv =>
    (setVar_mirrors hname hv).bind fun hK _ => putArg_mirrors (hv.mono hK)

/-- Both pass a structure that was built before, or a variable. -/
theorem putValue_mirrors (hi : ρ.Instr i i') : Mirrors ρ K Same (putValue i) (putValue i') := by
  unfold putValue
  rw [hi.op, hi.name]
  refine .ite _ ((target_mirrors _).bind fun {K f f'} _ hf => ?_)
    ((lookup_mirrors hi.name_ne).bind fun _ ht => putArg_mirrors ht)
  obtain rfl : f' = f := hf
  refine Mirrors.bind .get fun {K m m'} _ hm => ?_
  have hx := (hm.frames f').get? hi.name_ne
  generalize (m.frame f').get? i.name = x at hx ⊢
  generalize (m'.frame f').get? i.name = x' at hx ⊢
  cases hx with
  | none => exact .stop _
  | some ht => exact putArg_mirrors ht

theorem putConst_mirrors (hi : ρ.Instr i i') : Mirrors ρ K Same (putConst i) (putConst i') := by
  have hconst := hi.constant
  unfold putConst
  rw [hi.op]
  generalize i.constant = c at hconst
  generalize i'.constant = c' at hconst
  cases hconst with
  | none => exact .stop _
  | some hc => exact putArg_mirrors (.const hc)

/-! ## §7. Arithmetic. -/

/-- The operands are not kept in the register of the goal. -/
theorem scratchRegister_ne : scratchRegister ≠ "$x0" := by decide

/-- Both find the structure of the operands. -/
theorem scratch_mirrors : Mirrors ρ K Same scratch scratch := by
  refine current_mirrors.bind fun {K fr fr'} _ hfr => ?_
  have hx := hfr.get? scratchRegister_ne
  generalize fr.get? scratchRegister = x at hx ⊢
  generalize fr'.get? scratchRegister = x' at hx ⊢
  cases hx with
  | none => exact .pure rfl
  | @some t t' ht =>
    cases t <;> cases t' <;> first | exact ht.elim | exact .pure rfl | skip
    obtain ⟨rfl, -⟩ := ht
    exact .pure rfl

theorem prepare_mirrors : Mirrors ρ K Same prepare prepare :=
  (newStruct_mirrors _).bind fun _ hs => by
    obtain ⟨rfl, hs⟩ := hs
    exact setVar_mirrors scratchRegister_ne (.struct hs)

theorem push_mirrors (ht : ρ.Val K t t') : Mirrors ρ K Same (push t) (push t') := by
  refine scratch_mirrors.bind fun hK hs => ?_
  rw [hs]
  split
  · exact pushArg_mirrors _ (ht.mono hK)
  · exact .stop _

theorem pushVar_mirrors (hname : name ≠ "$x0") : Mirrors ρ K Same (pushVar name) (pushVar name) :=
  (fresh_mirrors name).bind fun _ hv =>
    (setVar_mirrors hname hv).bind fun hK _ => push_mirrors (hv.mono hK)

theorem pushValue_mirrors (hname : name ≠ "$x0") :
    Mirrors ρ K Same (pushValue name) (pushValue name) := by
  refine (lookup_mirrors hname).bind fun {K t t'} _ ht => ?_
  cases t with
  | absent =>
    rw [ht.of_absent]
    refine scratch_mirrors.bind fun hK hs => ?_
    rw [hs]
    split <;> exact .stop _
  | var v =>
    obtain rfl := ht.of_var
    exact push_mirrors ht
  | const c =>
    obtain ⟨c', rfl, -⟩ := ht.of_const
    exact push_mirrors ht
  | struct s =>
    obtain ⟨rfl, -⟩ := ht.of_struct
    exact push_mirrors ht

theorem pushConst_mirrors {c c' : Option Constant} (hc : Option.Rel ρ.Const c c') :
    Mirrors ρ K Same (pushConst c) (pushConst c') := by
  unfold pushConst
  cases hc with
  | none => exact push_mirrors .absent
  | some hc => exact push_mirrors (.const hc)

theorem operands_mirrors : Mirrors ρ K
    (fun K p p' => ρ.Val K p.1 p'.1 ∧ ρ.Val K p.2 p'.2) operands operands := by
  refine scratch_mirrors.bind fun hK hs => ?_
  rw [hs]
  split
  · exact .stop _
  next s =>
  refine Mirrors.bind .get fun {K m m'} _ hm => ?_
  have hargs := hm.heap.args s
  generalize (m.heap.structCell s).args = args at hargs ⊢
  generalize (m'.heap.structCell s).args = args' at hargs ⊢
  rcases hargs with _ | ⟨ha, _ | ⟨hb, _ | ⟨-, -⟩⟩⟩
  · exact .stop _
  · exact .stop _
  · exact .pure ⟨ha, hb⟩
  · exact .stop _

/-- An operand has one number on both sides, or one fault. -/
theorem operand_same {h h' : Heap} (hh : ρ.Heaps K h h') (ht : ρ.Val K t t') :
    h'.operand t' = h.operand t := by
  have hd := hh.deref ht
  unfold Heap.operand
  generalize h.deref t = d at hd ⊢
  generalize h'.deref t' = d' at hd ⊢
  -- By what the operand ends in: a number has a value, and anything else gives the same error.
  cases d with
  | const c =>
    obtain ⟨c', rfl, hc⟩ := hd.of_const
    simp only
    rw [hc.value, hh.text hd]
  | var v =>
    rw [hd.of_var]
    simp only
    rw [(hh.var v).name]
  | struct s =>
    obtain ⟨rfl, -⟩ := hd.of_struct
    simp only
    rw [hh.text hd]
  | absent =>
    obtain rfl := hd.of_absent
    simp only
    rw [hh.text hd]

/-- Both convert the operand to the same number. -/
theorem number_mirrors (ht : ρ.Val K t t') : Mirrors ρ K Same (number t) (number t') := by
  refine Mirrors.bind .get fun hK hm => ?_
  rw [operand_same hm.heap (ht.mono hK)]
  split
  · exact .pure rfl
  · exact .stop _

theorem conclude_mirrors (ok : Bool) : Mirrors ρ K Same (conclude ok) (conclude ok) :=
  (succeeds_mirrors ok).bind fun _ _ => .ite _ (.pure rfl) failure_mirrors

/-- Both apply the operator to the same numbers. -/
theorem applyOperator_mirrors (hi : ρ.Instr i i') (op : Operator) :
    Mirrors ρ K Same (applyOperator i op) (applyOperator i' op) := by
  unfold applyOperator
  rw [hi.op, hi.result]
  refine operands_mirrors.bind fun _ hp => (number_mirrors hp.1).bind fun hK ha =>
    (number_mirrors (hp.2.mono hK)).bind fun _ hb => ?_
  rw [ha, hb]
  split
  · exact conclude_mirrors _
  split
  · exact .stop _
  · exact .ite _ (.stop _) ((newNumber_mirrors _).bind fun _ hv =>
      (setVar_mirrors hi.result_ne hv).bind fun _ _ => conclude_mirrors _)

theorem assign_mirrors : Mirrors ρ K Same assign assign := by
  refine operands_mirrors.bind fun _ hp => (deref_mirrors hp.1).bind fun {K d d'} hK hd => ?_
  -- An error quotes the target, whose text does not depend on the numbers.
  have htext : ∀ {K : Kinds} {t t' : Value}, ρ.Val K t t' → Mirrors (α := Unit) (β := Unit) ρ K Same
      (do stop (.targetNotVariable ((← get).heap.text t)))
      (do stop (.targetNotVariable ((← get).heap.text t'))) := by
    intro K t t' ht
    refine Mirrors.bind .get fun hK hm => ?_
    rw [hm.heap.text (ht.mono hK)]
    exact .stop _
  cases d with
  | var v =>
    rw [hd.of_var]
    refine (number_mirrors (hp.2.mono hK)).bind fun _ hx => ?_
    rw [hx]
    exact (newNumber_mirrors _).bind fun _ ht => (bind_mirrors v ht).bind fun _ _ =>
      conclude_mirrors _
  | const c =>
    obtain ⟨c', rfl, -⟩ := hd.of_const
    exact htext (hp.1.mono hK)
  | struct s =>
    obtain ⟨rfl, -⟩ := hd.of_struct
    exact htext (hp.1.mono hK)
  | absent =>
    rw [hd.of_absent]
    exact htext (hp.1.mono hK)

/-! ## §8. Instructions. -/

/-- **Every instruction but a call does the same in any world.** -/
theorem execute_mirrors (hi : ρ.Instr i i') (hcalls : ¬ i.calls) :
    Mirrors ρ K Same (execute w i) (execute w' i') := by
  have hop' := hi.op
  -- Calls are the only instructions that read the name of a goal; they come in the next section.
  cases hop : i.op <;> rw [hop] at hop' <;> simp only [execute, hop, hop', hi.name, hi.label]
  case getStruct => exact getStruct_mirrors hi
  case getVar | unifVar => exact getVar_mirrors hi.name_ne
  case getValue | unifValue => exact getValue_mirrors hi.name_ne
  case unifVoid => exact unifVoid_mirrors
  case getTerm | getNumber | getNil | unifyTerm | unifyNumber | unifyNil =>
    exact getConst_mirrors hi
  case putStruct => exact putStruct_mirrors hi
  case putVar => exact putVar_mirrors hi.name_ne
  case putVoid => exact (fresh_mirrors _).bind fun _ hv => putArg_mirrors hv
  case putValue => exact putValue_mirrors hi
  case putTerm | putNumber | putNil => exact putConst_mirrors hi
  case allocate => exact allocate_mirrors
  case setup => exact setup_mirrors
  case call => exact (hcalls (.inl hop)).elim
  case bcall => exact (hcalls (.inr hop)).elim
  case maybeRetry => exact maybeRetry_mirrors
  case maybeRetryN => exact maybeRetryN_mirrors
  case deallocate => exact deallocate_mirrors
  case maybeFail => exact maybeFail_mirrors
  case tryElse => exact tryElse_mirrors _
  case tryFinally => exact tryFinally_mirrors
  case jump => exact jump_mirrors _
  case proceed => exact proceed_mirrors
  case cut => exact cut_mirrors
  case fail => exact failure_mirrors
  case end_ => exact endQuery_mirrors
  case prepare => exact prepare_mirrors
  case pushVar => exact pushVar_mirrors hi.name_ne
  case pushValue => exact pushValue_mirrors hi.name_ne
  case pushTerm | pushNumber => exact pushConst_mirrors hi.constant
  case is => exact assign_mirrors
  case plus | minus | mult | div | intDiv | mod | lt | gt | le | ge | eq | ne =>
    exact applyOperator_mirrors hi _
  case invalid | unknown => exact .stop _

end Exec

namespace Renumbering

open Exec

variable {ρ : Renumbering} {K : Kinds} {w w' : World} {m m' : Machine} {f : FrameId} {s : StructId}
  {r : ReturnPoint} {kb kb' : KnowledgeBase} {g g' : Signature} {n : Nat}

/-! ## §9. Calls. -/

/-- **Both knowledge bases answer a goal alike**: with the same clauses, of which the one counted
    `n` is there, or with none. -/
inductive Answers (ρ : Renumbering) (kb kb' : KnowledgeBase) (n : Nat) (g g' : Signature) :
    Prop where
  /-- The clauses are the same up to renumbering; native ones belong to the same predicate. -/
  | known {cs cs' : List PrologMachine.Clause} (hcs : kb.get g = .ok cs)
    (hcs' : kb'.get g' = .ok cs') (h : List.Forall₂ ρ.Clause cs cs') (hn : n < cs.length)
    (hnative : ∀ c ∈ cs, c.native = true → g' = g)
  /-- The predicate is the same and has no clauses. -/
  | unknown {e : StoreError} (hcs : kb.get g = .error e) (hcs' : kb'.get g' = .error e)

/-- **Worlds with the same native predicates**, which depend on their arguments only. -/
structure Worlds (w w' : World) : Prop where
  /-- The native predicates. -/
  natives : w'.natives = w.natives
  /-- They depend on their arguments only. -/
  dependsOnArguments : ∀ b ∈ w.natives.builtins, b.DependsOnArguments
  /-- The limit. -/
  maxSteps : w'.maxSteps = w.maxSteps
  /-- What calls of unknown predicates do. -/
  unknownFails : w'.unknownFails = w.unknownFails
  /-- The output complains alike. -/
  complaint : w'.complaint = w.complaint

namespace Machines

/-- The frame of a call whose goal is known to be complete. -/
theorem called (hm : ρ.Machines K m m') (hs : s ∈ K.goals) (n : Nat) :
    ρ.Machines K (m.called f (.struct s) n) (m'.called f (.struct s) n) :=
  hm.changeFrame f fun hfr => { hfr with
    vars := .cons ⟨rfl, by rw [if_pos rfl]; exact ⟨s, hs, rfl, rfl⟩⟩ .nil
    alternatives := rfl, cutTo := rfl, clauses := rfl }

/-- Both clear the frame of the goal. -/
theorem cleared (hm : ρ.Machines K m m') (hs : s ∈ K.goals) :
    ρ.Machines K (m.cleared f (.struct s)) (m'.cleared f (.struct s)) :=
  hm.changeFrame f fun hfr => { hfr with
    vars := .cons ⟨rfl, by rw [if_pos rfl]; exact ⟨s, hs, rfl, rfl⟩⟩ .nil
    alternatives := rfl, cutTo := rfl }

/-- The handler of a native clause answers both calls alike. -/
theorem callNative (hm : ρ.Machines K m m') (hw : Worlds w w') {args args' : List Value}
    (hargs : ρ.Vals K args args') :
    ρ.Outcomes K Same (eval (callNative w f g args) m) (eval (callNative w' f g args') m') := by
  cases hb : w.natives.lookup? g with
  | none =>
    have hb' : w'.natives.lookup? g = none := by rw [hw.natives, hb]
    simp only [Exec.callNative, hb, hb']
    exact .error le_rfl hm
  | some b =>
    have hb' : w'.natives.lookup? g = some b := by rw [hw.natives, hb]
    -- A native predicate treats counterparts alike: its outcome depends on what the arguments say.
    have hdepends := hw.dependsOnArguments b (List.mem_of_find?_eq_some hb)
    rw [eval_callNative hb, eval_callNative hb']
    have hm₁ : ρ.Machines K (m.changeFrame f (fun fr => { fr with clauses := 1 }))
        (m'.changeFrame f (fun fr => { fr with clauses := 1 })) :=
      hm.changeFrame f fun hfr => { hfr with clauses := rfl }
    generalize m.changeFrame f _ = m₁ at hm₁ ⊢
    generalize m'.changeFrame f _ = m₁' at hm₁ ⊢
    have hscenes : ρ.Scenes K ⟨m₁.heap, [], m₁.transcript, w.complaint⟩
        ⟨m₁'.heap, [], m₁'.transcript, w'.complaint⟩ := ⟨hm₁.heap, rfl, hw.complaint⟩
    obtain ⟨hout, K', hK, hscenes'⟩ := hdepends.same hscenes hargs
    simp only
    generalize b.call args _ = out at hout hscenes' ⊢
    generalize b.call args' _ = out' at hout hscenes' ⊢
    obtain ⟨out, scene⟩ := out
    obtain ⟨out', scene'⟩ := out'
    obtain rfl : out' = out := hout
    -- What it has bound is recorded in both frames.
    have hm₂ : ρ.Machines K'
        { m₁ with heap := scene.heap, transcript := scene.transcript }
        { m₁' with heap := scene'.heap, transcript := scene'.transcript } :=
      { hm₁.withHeap hK hscenes'.heap with frames := (hm₁.withHeap hK hscenes'.heap).frames }
    have hm₃ := hm₂.trailAll scene.bound
    simp only
    rw [hscenes'.bound]
    cases out' with
    | error e => exact .error hK hm₃
    | ok ok =>
      exact .widen hK <| returnTo_mirrors f _ _ { hm₃ with success := rfl, frames := hm₃.frames }

/-- **A call does the same where the knowledge bases answer its goal alike.** -/
theorem call (hm : ρ.Machines K m m') (hw : Worlds w w') (htarget : m.target = some f)
    (hx : (m.frame f).get? "$x0" = some (.struct s)) (hr : (m.frame f).returnPoint = some r)
    (hanswers : ∀ g' : Signature, ρ.Name (m.heap.structCell s).name g'.name →
      g'.arity = ((m.heap.structCell s).args.length : Nat) →
      ρ.Answers w.base w'.base (m.frame f).clause
        ⟨(m.heap.structCell s).name, (m.heap.structCell s).args.length⟩ g') (op : Opcode) :
    ρ.Outcomes K Same (eval (call w op) m) (eval (call w' op) m') := by
  have htarget' : m'.target = some f := by rw [hm.target, htarget]
  -- The partner's frame holds the same goal.
  have hgoal := (hm.frames f).goal?
  rw [hx] at hgoal
  obtain ⟨t, hx', s', hs', heq, rfl⟩ : ∃ t, (m'.frame f).get? "$x0" = some t ∧
      ∃ s' ∈ K.goals, Value.struct s = .struct s' ∧ t = .struct s' := by
    generalize (m'.frame f).get? "$x0" = x at hgoal
    cases hgoal with
    | some h => exact ⟨_, rfl, h⟩
  obtain rfl := Value.struct.inj heq
  obtain ⟨r', hr', hreturns⟩ : ∃ r', (m'.frame f).returnPoint = some r' ∧ ρ.Returns r r' := by
    have hret := (hm.frames f).returnPoint
    rw [hr] at hret
    generalize (m'.frame f).returnPoint = x at hret
    cases hret with
    | some h => exact ⟨_, rfl, h⟩
  have hlength := hm.heap.length s
  rcases hanswers ⟨(m'.heap.structCell s).name, (m'.heap.structCell s).args.length⟩
    (hm.heap.goal s hs') (by rw [hlength]) with
    @⟨cs, cs', hcs, hcs', hclauses, hn, hnative⟩ | ⟨hcs, hcs'⟩
  · obtain ⟨c, hc⟩ : ∃ c, cs[(m.frame f).clause]? = some c := ⟨_, List.getElem?_eq_getElem hn⟩
    obtain ⟨c', hc', hcc⟩ : ∃ c', cs'[(m'.frame f).clause]? = some c' ∧ ρ.Clause c c' := by
      have hrel := getElem?_rel hclauses (m.frame f).clause
      rw [hc] at hrel
      rw [(hm.frames f).clause]
      generalize cs'[(m.frame f).clause]? = x at hrel
      cases hrel with
      | some h => exact ⟨_, rfl, h⟩
    have hm₁ := hm.called (f := f) hs' cs.length
    cases hnat : c.native with
    | false =>
      rw [eval_call_enter htarget hx rfl hcs hc hnat,
        eval_call_enter htarget' hx' rfl hcs' hc' (hcc.native.trans hnat), ← hclauses.length_eq]
      exact .ok le_rfl rfl { hm₁ with
        code := .some hcc, label := rfl, index := rfl, current := rfl, success := rfl
        decoding := rfl, argument := rfl, register := rfl, frames := hm₁.frames }
    | true =>
      rw [eval_call_native htarget hx rfl hcs hc hnat,
        eval_call_native htarget' hx' rfl hcs' hc' (hcc.native.trans hnat), ← hclauses.length_eq,
        hnative c (List.mem_of_getElem? hc) hnat]
      exact hm₁.callNative hw (hm.heap.args s)
  · cases hunknown : w.unknownFails with
    | true =>
      rw [eval_call_unknown htarget hx rfl hcs hunknown hr,
        eval_call_unknown htarget' hx' rfl hcs' (hw.unknownFails.trans hunknown) hr']
      have hm₁ := hm.called (f := f) hs' 1
      exact .ok le_rfl rfl { hm₁ with
        success := rfl, code := hreturns.code, label := hreturns.label, index := hreturns.index
        frames := hm₁.frames }
    | false =>
      rw [eval_call_error htarget hx rfl hcs hunknown,
        eval_call_error htarget' hx' rfl hcs' (hw.unknownFails.trans hunknown)]
      exact .error le_rfl (hm.cleared hs')

end Machines

end Renumbering

end PrologMachine
