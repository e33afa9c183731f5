/-
  PrologMachine.Proofs.Resolution.Stages ── **WHERE A SEARCH STANDS.**

  A machine that searches is about to call the first goal of a resolvent, or it is about to enter a clause
  for a goal, or a call has failed and its next clause is to be tried.

    * `Serves`: the machine works with the code of a program.
    * `Stage`, `Control`: the machine is at a resolvent; control is in front of its first goal.
    * `Calling`, `Retrying`: the newest choice is about to be tried, or to be tried again.
    * `Stage.calls`: from a resolvent to the call of its first goal.
-/
import PrologMachine.Proofs.Resolution.Choices
import PrologMachine.Proofs.Resolution.Heads

namespace PrologMachine

open Machine

/-- The machine searches without a limit in a knowledge base that has the code of the program. -/
structure Serves (K : Set Constant) (P : List Rule) (kb : KnowledgeBase) (w : World) : Prop where
  /-- It works with the knowledge base. -/
  equipped : Equipped kb w
  /-- There is no limit. -/
  unlimited : w.maxSteps ≤ 0
  /-- Equality of the constants is an equivalence. -/
  equal : Heap.EqualOn K
  /-- A predicate with rules has their code. -/
  clauses : ∀ s, s ≠ querySignature → candidates P s ≠ [] →
    ∃ cs, w.base.get s = .ok cs ∧ List.Forall₂ Clause.Implements cs (candidates P s)
  /-- Heads are structures. -/
  structs : ∀ R ∈ P, ∃ f ps, R.head = .struct f ps
  /-- The constants of the heads. -/
  heads : ∀ R ∈ P, ∀ c ∈ R.head.constants, c ∈ K
  /-- The goals of the bodies may be called. -/
  bodies : ∀ R ∈ P, ∀ p ∈ R.body, p.Callable K P

section

variable {K : Set Constant} {P : List Rule} {names : Set String} {kb : KnowledgeBase} {w : World} {n : Nat}
  {r : Resolvent} {fs : List FrameId} {env : Copies} {x : Choice} {xs : List Choice} {m m' : Machine}

/-! ## §1. Stages. -/

/-- The machine is at the resolvent `r`; the calls `xs` are on the stack. -/
structure Stage (K : Set Constant) (P : List Rule) (names : Set String) (r : Resolvent) (fs : List FrameId)
    (env : Copies) (xs : List Choice) (m : Machine) : Prop where
  /-- The copies. -/
  context : Context K P names r fs env
  /-- The heap stands for what was unified. -/
  store : ∃ Q, Store K r.unified env Q m.heap
  /-- The copies have their values. -/
  held : ∀ k f n t, fs[k]? = some f → env k n = some t → (m.frame f).get? n = some t
  /-- There are no other alternatives. -/
  quiet : ∀ f ∈ fs, (m.frame f).alternatives = []
  /-- The frames of the copies exist. -/
  bounded : ∀ f ∈ fs, f < m.frames.size
  /-- The calls wait. -/
  pending : Pending K P names m m.frames.size fs env xs
  /-- They are the stack, above the frame of the question. -/
  depth : m.depth = xs.length + 1
  /-- The frame of the question. -/
  bottom : m.stack[0]? = some queryFrame
  /-- The search goes on. -/
  active : m.Active
  /-- Nothing has failed. -/
  success : m.success = true

/-- Control stands in front of the goals. -/
inductive Control (fs : List FrameId) (env : Copies) (goals : List Part) (m : Machine) : Prop where
  /-- The code of the first goal comes next. -/
  | chain {c : Clause} {label : String} {i k : Nat} {tail : Instruction} {ps : List Pattern} {parts : List Part}
    (hat : At c label i m) (hchain : ChainAt tail (env k) c label i ps) (hcopy : fs[k]? = some m.current)
    (hreturns : Returns (fun f => (m.frame f).returnPoint) fs env k tail m.current parts)
    (hgoals : goals = ps.map (Prod.mk k) ++ parts)
  /-- There are none, and the question is at its end. -/
  | done {c : Clause} {label : String} {i : Nat} {block : Code} (hat : At c label i m)
    (hblock : c.block? label = some block) (hi : block[i]? = some { op := .end_ })
    (hcurrent : m.current = queryFrame) (hgoals : goals = [])

/-- The call of the choice `x` is about to enter its clause. -/
structure Calling (K : Set Constant) (P : List Rule) (names : Set String) (x : Choice) (xs : List Choice)
    (m : Machine) : Prop where
  /-- The choice. -/
  sound : x.Sound K P names
  /-- Its frame and what is under it. -/
  waits : x.Waits (xs.length + 1) m
  /-- Control. -/
  selecting : Selecting x.site.clause x.site.label x.site.index x.site.frame x.frame x.tried x.goal m
  /-- The other calls wait. -/
  pending : Pending K P names m x.frame x.fs x.env xs
  /-- They are the stack. -/
  depth : m.depth = xs.length + 2
  /-- The frame of the question. -/
  bottom : m.stack[0]? = some queryFrame

/-- The call of the choice `x` has failed. -/
structure Retrying (K : Set Constant) (P : List Rule) (names : Set String) (x : Choice) (xs : List Choice)
    (m : Machine) : Prop where
  /-- The choice. -/
  sound : x.Sound K P names
  /-- Its frame and what is under it. -/
  waits : x.Waits (xs.length + 1) m
  /-- A clause was entered. -/
  tried : x.Tried P m
  /-- Control. -/
  failing : Failing x.site.clause x.site.label x.site.index x.site.frame x.frame m
  /-- The other calls wait. -/
  pending : Pending K P names m x.frame x.fs x.env xs
  /-- They are the stack. -/
  depth : m.depth = xs.length + 2
  /-- The frame of the question. -/
  bottom : m.stack[0]? = some queryFrame

/-! ## §2. What stays. -/

/-- Under a frame that stays on the stack the same is bound. -/
theorem Machine.Search.under (h : Search kb n m) (hw : Equipped kb w) (hm : m.Memory)
    (hr : Reaches w m m') : ∀ d f, m.stack[d]? = some f → m'.stack[d]? = some f →
      ∀ v, m'.bindingUnder d v = m.bindingUnder d v :=
  fun _ _ hf hf' => ((h.upholds hw hm hr hf).2 _ hf').2.under

/-- A choice whose frame is on top, with nothing on its trail, finds the heap as it was. -/
theorem Choice.Waits.extends {d : Nat} (h : x.Waits d m) (hm : m.Memory) (ht : m.top? = some x.frame)
    (hd : m.depth = d + 1) (htrail : (m.frame x.frame).trail = []) : x.heap.Extends m.heap := by
  have hsame : ∀ v, m.heap.binding? v = x.heap.binding? v := fun v =>
    (bindingUnder_top ht hd htrail v).symm.trans (h.under v)
  exact ⟨⟨h.cells.vars, h.cells.structs, h.cells.cells, fun v t hv => (hsame v).trans hv⟩, hsame, hm.good⟩

/-- The frame of a choice changes in fields that do not matter to it. -/
theorem Choice.Waits.updates {d : Nat} {fr : Frame} (h : x.Waits d m) (hs : x.Sound K P names)
    (hu : Updates x.frame fr m m') (hpoint : fr.returnPoint = (m.frame x.frame).returnPoint)
    (hcut : fr.cutTo = none) (hcommitted : fr.committed = false)
    (hgoal : fr.get? "$x0" = some (.struct x.goal)) (hcells : m.heap.HasCells m'.heap)
    (hstack : m'.stack[d]? = m.stack[d]?) (hunder : ∀ v, m'.bindingUnder d v = m.bindingUnder d v) :
    x.Waits d m' := by
  -- The frame of the call is the only one that changes.
  have hother : ∀ f < x.frame, m'.frame f = m.frame f := fun f hf => hu.others f (Nat.ne_of_lt hf)
  exact
    { stack := hstack.trans h.stack
      point := by rw [hu.self, hpoint, h.point]
      uncut := by rw [hu.self, hcut]
      uncommitted := by rw [hu.self, hcommitted]
      goal := by rw [hu.self, hgoal]
      under := fun v => (hunder v).trans (h.under v)
      cells := h.cells.trans hcells
      held := fun k f n t hk hn => by
        rw [hother f (hs.older f (List.mem_of_getElem? hk))]
        exact h.held k f n t hk hn
      quiet := fun f hf => by
        rw [hother f (hs.older f hf)]
        exact h.quiet f hf
      behind := h.behind.congr
        (fun f hf => congrArg Frame.returnPoint (hother f (hf.trans_lt (hs.caller h))))
        fun _ _ _ hk => ⟨hk, rfl⟩ }

/-- Frames that do not change at all. -/
theorem Carried.of_others {b : FrameId} (hcells : m.heap.HasCells m'.heap)
    (hothers : ∀ f < b, m'.frame f = m.frame f) : Carried b fs env m m' where
  cells := hcells
  fields f hf := by rw [hothers f hf]
  values f hf n t _ hn := by rwa [hothers f hf]

/-- Code of a head changes the frame on top, which has no copy yet. -/
theorem Carried.of_confined {f : FrameId} (h : Confined m m') (hgrows : m.scope.Grows m'.scope)
    (hcurrent : m.current = f) (holder : ∀ f' ∈ fs, f' < f) : Carried (f + 1) fs env m m' where
  cells := hgrows.heap.hasCells
  fields f' _ := by
    by_cases hf : f' = m.current
    · rw [hf]
      exact h.fields
    · rw [h.others f' hf]
  values f' _ n t hn ht := by
    by_cases hf : f' = m.current
    · rcases hn with rfl | ⟨k, hk, -⟩
      · have henv : m'.scope.env "$x0" = some t := hgrows.env "$x0" t (by rw [hf] at ht; exact ht)
        rw [hf, ← h.current]
        exact henv
      · exact absurd (holder f' (List.mem_of_getElem? hk)) (by rw [hf, hcurrent]; exact Nat.lt_irrefl f)
    · rwa [h.others f' hf]

/-- The call of a choice on top of the stack is under way. -/
theorem Choice.Waits.underway {d : Nat} (h : x.Waits d m) (hs : x.Sound K P names)
    (ht : m.top? = some x.frame) (hlt : x.frame < m.frames.size) (hd : 1 < m.depth) :
    Underway x.site.clause x.site.label x.site.index x.site.frame x.frame m where
  point := h.point
  uncut := h.uncut
  uncommitted := h.uncommitted
  quiet := h.quiet _ (List.mem_of_getElem? h.behind.copy)
  top := ht
  caller := hs.caller h
  lt := hlt
  deep := hd

end

end PrologMachine
