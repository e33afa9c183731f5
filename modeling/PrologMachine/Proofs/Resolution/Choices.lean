/-
  PrologMachine.Proofs.Resolution.Choices ── **THE GOALS THAT ARE LEFT, AND THE CHOICES THAT WERE MADE.**

  The goals of a resolvent are not listed anywhere in the machine.  They are what stands behind the call
  that is made, in the code of the clause with the call and then of each of its callers.  A call that
  was made stays on the stack as a choice, with the resolvent that it came from.

    * `BehindCall`, `Returns`: the goals behind a call, and behind the code of a clause.
    * `Choice`: a call on the stack, and what was the case when it was made.
    * `Pending`: all of them; `Pending.carried`, what does not disturb them.
-/
import PrologMachine.Proofs.Machine.Course
import PrologMachine.Proofs.Resolution.Definite
import PrologMachine.Proofs.Resolution.Store

namespace PrologMachine

open Machine

/-! ## §1. What stands behind a call. -/

/-- A call in the code of a clause, made for one copy of the clause. -/
structure Site where
  /-- The clause. -/
  clause : Clause
  /-- The block. -/
  label : String
  /-- The instruction. -/
  index : Nat
  /-- The frame of the clause. -/
  frame : FrameId
  /-- The copy. -/
  copy : Nat

/-- Where the call returns to. -/
def Site.past (s : Site) : ReturnPoint := pastCall s.clause s.label s.index s.frame

/-- From instruction `i` on the block calls goals and ends with `tail`; the names that have occurred are
    those with values. -/
structure ChainAt (tail : Instruction) (σ : String → Option Value) (c : Clause) (label : String) (i : Nat)
    (ps : List Pattern) : Prop where
  /-- The code. -/
  exists_code : ∃ block code compiler n seen, c.block? label = some block ∧ Segment block i code ∧
    Chain tail compiler seen n ps code ∧ ∀ x, x ∈ seen ↔ (σ x).isSome

/-- What stands behind a call in its block: the goals `ps`, then `tail`. -/
inductive Site.GoesOn (tail : Instruction) (σ : String → Option Value) (s : Site) : List Pattern → Prop where
  /-- It was the last call. -/
  | ends {block : Code} (hblock : s.clause.block? s.label = some block)
    (hi : block[s.index + 3]? = some tail) : s.GoesOn tail σ []
  /-- There are more. -/
  | more {block : Code} {ps : List Pattern} (hblock : s.clause.block? s.label = some block)
    (hi : block[s.index + 3]? = some { op := .maybeFail })
    (hchain : ChainAt tail σ s.clause s.label (s.index + 4) ps) : s.GoesOn tail σ ps

/-- The goals behind a call, in its clause and its callers, for frames with these return points.  Copy
    number `k` has the frame number `k` of `fs`. -/
inductive BehindCall (points : FrameId → Option ReturnPoint) (fs : List FrameId) (env : Copies) :
    Site → List Part → Prop where
  /-- A call of the question. -/
  | query {s : Site} {ps : List Pattern} (hsite : CallSite s.clause s.label s.index)
    (hcopy : fs[s.copy]? = some s.frame) (hroot : s.frame = queryFrame ∧ s.copy = 0)
    (hgoes : s.GoesOn { op := .end_ } (env s.copy) ps) :
    BehindCall points fs env s (ps.map (Prod.mk s.copy))
  /-- A call of a clause that was called. -/
  | clause {s s' : Site} {ps : List Pattern} {parts : List Part}
    (hsite : CallSite s.clause s.label s.index) (hcopy : fs[s.copy]? = some s.frame)
    (hpoint : points s.frame = some s'.past) (hlt : s'.frame < s.frame)
    (hgoes : s.GoesOn { op := .proceed } (env s.copy) ps) (hrest : BehindCall points fs env s' parts) :
    BehindCall points fs env s (ps.map (Prod.mk s.copy) ++ parts)

/-- The goals behind the code of the clause of frame `g`, which ends with `tail`. -/
inductive Returns (points : FrameId → Option ReturnPoint) (fs : List FrameId) (env : Copies) (k : Nat) :
    Instruction → FrameId → List Part → Prop where
  /-- The question is done. -/
  | query (hroot : k = 0) : Returns points fs env k { op := .end_ } queryFrame []
  /-- The clause returns to its caller. -/
  | clause {g : FrameId} {s : Site} {parts : List Part} (hpoint : points g = some s.past)
    (hlt : s.frame < g) (hbehind : BehindCall points fs env s parts) :
    Returns points fs env k { op := .proceed } g parts

section

variable {points points' : FrameId → Option ReturnPoint} {fs fs' : List FrameId} {env env' : Copies}
  {s : Site} {parts : List Part} {tail : Instruction} {ps : List Pattern} {g : FrameId} {k : Nat}

/-- The call stands where it is made. -/
theorem BehindCall.site (h : BehindCall points fs env s parts) : CallSite s.clause s.label s.index := by
  cases h <;> assumption

/-- The copy of the clause belongs to its frame. -/
theorem BehindCall.copy (h : BehindCall points fs env s parts) : fs[s.copy]? = some s.frame := by
  cases h <;> assumption

/-- A call of the clause, and what is behind it. -/
theorem Returns.behind (h : Returns points fs env s.copy tail s.frame parts)
    (hsite : CallSite s.clause s.label s.index) (hcopy : fs[s.copy]? = some s.frame)
    (hgoes : s.GoesOn tail (env s.copy) ps) :
    BehindCall points fs env s (ps.map (Prod.mk s.copy) ++ parts) := by
  generalize hframe : s.frame = g at h
  cases h with
  | query hroot =>
    rw [List.append_nil]
    exact .query hsite hcopy ⟨hframe, hroot⟩ hgoes
  | clause hpoint hlt hbehind => exact .clause hsite hcopy (hframe ▸ hpoint) (hframe ▸ hlt) hgoes hbehind

/-- What is behind a call does not depend on newer frames. -/
theorem BehindCall.congr (h : BehindCall points fs env s parts) (hpoints : ∀ f ≤ s.frame, points' f = points f)
    (hcopies : ∀ k f, f ≤ s.frame → fs[k]? = some f → fs'[k]? = some f ∧ env' k = env k) :
    BehindCall points' fs' env' s parts := by
  induction h with
  | query hsite hcopy hroot hgoes =>
    obtain ⟨hcopy', henv⟩ := hcopies _ _ le_rfl hcopy
    exact .query hsite hcopy' hroot (henv ▸ hgoes)
  | clause hsite hcopy hpoint hlt hgoes _ ih =>
    obtain ⟨hcopy', henv⟩ := hcopies _ _ le_rfl hcopy
    exact .clause hsite hcopy' ((hpoints _ le_rfl).trans hpoint) hlt (henv ▸ hgoes)
      (ih (fun f hf => hpoints f (hf.trans hlt.le)) fun k f hf => hcopies k f (hf.trans hlt.le))

/-- What stands behind a call depends on the frames up to it. -/
theorem Returns.congr (h : Returns points fs env k tail g parts) (hpoints : ∀ f ≤ g, points' f = points f)
    (hcopies : ∀ k f, f < g → fs[k]? = some f → fs'[k]? = some f ∧ env' k = env k) :
    Returns points' fs' env' k tail g parts := by
  cases h with
  | query hroot => exact .query hroot
  | clause hpoint hlt hbehind =>
    exact .clause ((hpoints g le_rfl).trans hpoint) hlt (hbehind.congr
      (fun f hf => hpoints f (hf.trans hlt.le)) fun k f hf => hcopies k f (hf.trans_lt hlt))

end

/-! ## §2. Programs and their copies. -/

/-- A longer list has the same elements in the same places. -/
theorem get?_of_longer {α : Type} {as bs : List α} {k : Nat} {a : α} (h : as <+: bs) (hk : as[k]? = some a) :
    bs[k]? = some a := by
  obtain ⟨rest, rfl⟩ := h
  rwa [List.getElem?_append_left (List.getElem?_eq_some_iff.1 hk).1]

/-- The rules for a predicate, in order. -/
def candidates (P : List Rule) (s : Signature) : List Rule :=
  P.filter fun R => decide (R.signature = s)

/-- A goal of a predicate of the program.  The signature of the question is reserved for it. -/
structure Pattern.Defined (P : List Rule) (p : Pattern) : Prop where
  /-- There are rules. -/
  rules : candidates P p.signature ≠ []
  /-- It is not the question. -/
  unreserved : p.signature ≠ querySignature

/-- A goal that may be called: its predicate has rules, and its constants are among `K`. -/
structure Pattern.Callable (K : Set Constant) (P : List Rule) (p : Pattern) : Prop where
  /-- Its predicate is one of the program. -/
  defined : p.Defined P
  /-- The constants. -/
  constants : ∀ c ∈ p.constants, c ∈ K
  /-- Functors inside of it have arguments. -/
  args : ∃ f ps, p = .struct f ps ∧ FullAll Set.univ ps
  /-- Names in it are names of variables. -/
  names : ∀ x ∈ p.names, isRegister x = false ∧ isAnonymous x = false

/-- The copies that a resolvent speaks of. -/
structure Context (K : Set Constant) (P : List Rule) (names : Set String) (r : Resolvent)
    (fs : List FrameId) (env : Copies) : Prop where
  /-- Each has a frame. -/
  copies : fs.length = r.copies
  /-- The others have no values. -/
  fresh : ∀ k, fs.length ≤ k → ∀ x, env k x = none
  /-- No frame has two copies. -/
  nodup : fs.Nodup
  /-- The first copy is the question. -/
  root : fs[0]? = some queryFrame
  /-- The goals may be called. -/
  callable : ∀ q ∈ r.goals, q.2.Callable K P
  /-- The names of the question have values when their goals have been called. -/
  named : ∀ x ∈ names, (env 0 x).isSome ∨ ∃ p, (0, p) ∈ r.goals ∧ x ∈ p.names
  /-- The values are cells. -/
  cells : ∀ x t, env 0 x = some t → ∃ v, t = .var v

/-! ## §3. Choices. -/

namespace Heap

/-- The second heap has the cells of the first one; variables may be bound otherwise. -/
structure HasCells (h h' : Heap) : Prop where
  /-- Variables stay. -/
  vars : h.vars.size ≤ h'.vars.size
  /-- Structures stay. -/
  structs : h.structs.size ≤ h'.structs.size
  /-- They consist of what they consisted of. -/
  cells : ∀ s < h.structs.size, h'.structCell s = h.structCell s

protected theorem HasCells.refl (h : Heap) : h.HasCells h := ⟨le_rfl, le_rfl, fun _ _ => rfl⟩

protected theorem HasCells.trans {h h' h'' : Heap} (hc : h.HasCells h') (hc' : h'.HasCells h'') :
    h.HasCells h'' where
  vars := hc.vars.trans hc'.vars
  structs := hc.structs.trans hc'.structs
  cells s hs := (hc'.cells s (hs.trans_le hc.structs)).trans (hc.cells s hs)

/-- A later heap has the cells. -/
theorem Later.hasCells {h h' : Heap} (hl : h.Later h') : h.HasCells h' := ⟨hl.vars, hl.structs, hl.cells⟩

/-- Undoing bindings leaves the cells. -/
theorem HasCells.resetAll (h : Heap) (vs : List VarId) : h.HasCells (h.resetAll vs) :=
  ⟨by simp, by simp, fun s _ => by simp⟩

end Heap

/-- A call that may be tried again, and what was the case when it was made. -/
structure Choice where
  /-- The frame. -/
  frame : FrameId
  /-- Where it was made. -/
  site : Site
  /-- The goal on the heap. -/
  goal : StructId
  /-- The heap. -/
  heap : Heap
  /-- The resolvent. -/
  resolvent : Resolvent
  /-- The goal, its first one. -/
  part : Part
  /-- Its other goals. -/
  rest : List Part
  /-- The values of the copies. -/
  env : Copies
  /-- Their frames. -/
  fs : List FrameId
  /-- The number of the rule that is tried. -/
  tried : Nat

namespace Choice

variable {K : Set Constant} {P : List Rule} {names : Set String} {x : Choice} {m m' : Machine} {d : Nat}

/-- The call was made for the resolvent. -/
structure Sound (K : Set Constant) (P : List Rule) (names : Set String) (x : Choice) : Prop where
  /-- The goals. -/
  goals : x.resolvent.goals = x.part :: x.rest
  /-- The copies. -/
  context : Context K P names x.resolvent x.fs x.env
  /-- Their frames are older. -/
  older : ∀ f ∈ x.fs, f < x.frame
  /-- The names of the goal have values. -/
  known : ∀ n ∈ x.part.2.names, (x.env x.part.1 n).isSome
  /-- The goal on the heap. -/
  poses : ∃ Q, Poses K x.resolvent.unified x.env Q x.heap x.part x.goal

/-- The frame is number `d` on the stack, and under it all is what it was. -/
structure Waits (x : Choice) (d : Nat) (m : Machine) : Prop where
  /-- The place on the stack. -/
  stack : m.stack[d]? = some x.frame
  /-- Where the call returns to. -/
  point : (m.frame x.frame).returnPoint = some x.site.past
  /-- No cut has removed it. -/
  uncut : (m.frame x.frame).cutTo = none
  /-- It is not committed to a clause. -/
  uncommitted : (m.frame x.frame).committed = false
  /-- The goal. -/
  goal : (m.frame x.frame).get? "$x0" = some (.struct x.goal)
  /-- Under the frame the same is bound. -/
  under : ∀ v, m.bindingUnder d v = x.heap.binding? v
  /-- The cells are there. -/
  cells : x.heap.HasCells m.heap
  /-- The copies have their values. -/
  held : ∀ k f n t, x.fs[k]? = some f → x.env k n = some t → (m.frame f).get? n = some t
  /-- There are no other alternatives. -/
  quiet : ∀ f ∈ x.fs, (m.frame f).alternatives = []
  /-- What is behind the call. -/
  behind : BehindCall (fun f => (m.frame f).returnPoint) x.fs x.env x.site x.rest

/-- The rules for the goal. -/
def rules (P : List Rule) (x : Choice) : List Rule := candidates P x.part.2.signature

/-- A clause of it was entered. -/
structure Tried (P : List Rule) (x : Choice) (m : Machine) : Prop where
  /-- How many clauses there are. -/
  clauses : (m.frame x.frame).clauses = (x.rules P).length
  /-- The number of the present one. -/
  clause : (m.frame x.frame).clause = x.tried

/-- The resolvents that are still to be tried. -/
noncomputable def left (K : Set Constant) (P : List Rule) (x : Choice) : List Resolvent :=
  x.resolvent.expand K ((x.rules P).drop (x.tried + 1))

/-- The caller is below the frame of its call. -/
theorem Sound.caller (hs : x.Sound K P names) (hw : x.Waits d m) : x.site.frame < x.frame :=
  hs.older _ (List.mem_of_getElem? hw.behind.copy)

end Choice

/-- The machines agree in what concerns the frames below `b`: new cells, and changes of trails and of
    variables other than those of the copies, do not matter. -/
structure Carried (b : FrameId) (fs : List FrameId) (env : Copies) (m m' : Machine) : Prop where
  /-- The cells are there. -/
  cells : m.heap.HasCells m'.heap
  /-- The fields of frames. -/
  fields : ∀ f < b, { m'.frame f with vars := [], trail := [] } = { m.frame f with vars := [], trail := [] }
  /-- Goals and the values of copies. -/
  values : ∀ f < b, ∀ n t, (n = "$x0" ∨ ∃ k, fs[k]? = some f ∧ (env k n).isSome) →
    (m.frame f).get? n = some t → (m'.frame f).get? n = some t

namespace Carried

variable {b b' : FrameId} {fs fs' : List FrameId} {env env' : Copies} {m m' : Machine}

theorem mono (h : Carried b fs env m m') (hb : b' ≤ b) (hfs : fs' <+: fs)
    (henv : ∀ k n t, env' k n = some t → env k n = some t) : Carried b' fs' env' m m' where
  cells := h.cells
  fields f hf := h.fields f (hf.trans_le hb)
  values f hf n t hn := h.values f (hf.trans_le hb) n t (hn.imp_right fun ⟨k, hk, hx⟩ => by
    obtain ⟨u, hu⟩ := Option.isSome_iff_exists.1 hx
    exact ⟨k, get?_of_longer hfs hk, by rw [henv k n u hu]; rfl⟩)

/-- A field of a frame other than its variables and its trail. -/
theorem field {α : Type} (h : Carried b fs env m m') {f : FrameId} (hf : f < b) (p : Frame → α)
    (hp : ∀ fr : Frame, p { fr with vars := [], trail := [] } = p fr) : p (m'.frame f) = p (m.frame f) := by
  rw [← hp (m'.frame f), h.fields f hf, hp]

end Carried

/-- The calls on the stack, the newest first, for frames below `b` and copies that go on from theirs. -/
inductive Pending (K : Set Constant) (P : List Rule) (names : Set String) (m : Machine) :
    (b : FrameId) → (fs : List FrameId) → (env : Copies) → List Choice → Prop where
  /-- There are none. -/
  | nil {b : FrameId} {fs : List FrameId} {env : Copies} : Pending K P names m b fs env []
  /-- The newest and the others. -/
  | cons {b : FrameId} {fs : List FrameId} {env : Copies} {x : Choice} {xs : List Choice}
    (hsound : x.Sound K P names) (hwaits : x.Waits (xs.length + 1) m) (htried : x.Tried P m)
    (hlt : x.frame < b) (hfs : x.fs <+: fs) (henv : ∀ k n t, x.env k n = some t → env k n = some t)
    (hrest : Pending K P names m x.frame x.fs x.env xs) : Pending K P names m b fs env (x :: xs)

/-- The resolvents that are still to be tried. -/
noncomputable def forest (K : Set Constant) (P : List Rule) (xs : List Choice) : List Resolvent :=
  xs.flatMap (·.left K P)

section

variable {K : Set Constant} {P : List Rule} {names : Set String} {m m' : Machine} {b b' : FrameId}
  {fs fs' : List FrameId} {env env' : Copies} {x : Choice} {xs : List Choice} {d : Nat}

/-- A choice waits on. -/
theorem Choice.Waits.carried (h : x.Waits d m) (hc : Carried b x.fs x.env m m') (hlt : x.frame < b)
    (hcaller : x.site.frame < x.frame) (holder : ∀ f ∈ x.fs, f < x.frame)
    (hstack : m'.stack[d]? = m.stack[d]?)
    (hunder : ∀ v, m'.bindingUnder d v = m.bindingUnder d v) : x.Waits d m' where
  stack := hstack.trans h.stack
  point := (hc.field hlt Frame.returnPoint fun _ => rfl).trans h.point
  uncut := (hc.field hlt Frame.cutTo fun _ => rfl).trans h.uncut
  uncommitted := (hc.field hlt Frame.committed fun _ => rfl).trans h.uncommitted
  goal := hc.values _ hlt _ _ (.inl rfl) h.goal
  under v := (hunder v).trans (h.under v)
  cells := h.cells.trans hc.cells
  held k f n t hk hn := hc.values f ((holder f (List.mem_of_getElem? hk)).trans hlt) n t
    (.inr ⟨k, hk, by rw [hn]; rfl⟩) (h.held k f n t hk hn)
  quiet f hf := (hc.field ((holder f hf).trans hlt) Frame.alternatives fun _ => rfl).trans (h.quiet f hf)
  behind := h.behind.congr
    (fun f hf => hc.field (hf.trans_lt (hcaller.trans hlt)) Frame.returnPoint fun _ => rfl)
    fun _ _ _ hk => ⟨hk, rfl⟩

/-- What was tried is carried along. -/
theorem Choice.Tried.carried (h : x.Tried P m) (hc : Carried b fs env m m') (hlt : x.frame < b) :
    x.Tried P m' where
  clauses := (hc.field hlt Frame.clauses fun _ => rfl).trans h.clauses
  clause := (hc.field hlt Frame.clause fun _ => rfl).trans h.clause

/-- **Choices wait on**, as long as their frames stay on the stack with what is under them. -/
theorem Pending.carried (h : Pending K P names m b fs env xs) (hc : Carried b fs env m m')
    (hstack : ∀ d, 0 < d → d ≤ xs.length → m'.stack[d]? = m.stack[d]?)
    (hunder : ∀ d f, m.stack[d]? = some f → m'.stack[d]? = some f →
      ∀ v, m'.bindingUnder d v = m.bindingUnder d v) : Pending K P names m' b fs env xs := by
  induction h with
  | nil => exact .nil
  | @cons b fs env x xs hsound hwaits htried hlt hfs henv _ ih =>
    have hx : Carried b x.fs x.env m m' := hc.mono le_rfl hfs henv
    have hsame := hstack (xs.length + 1) (Nat.succ_pos _) le_rfl
    refine .cons hsound ?_ (htried.carried hx hlt) hlt hfs henv ?_
    · exact hwaits.carried hx hlt (hsound.caller hwaits) hsound.older hsame
        (hunder _ _ hwaits.stack (hsame.trans hwaits.stack))
    · exact ih (hx.mono hlt.le (List.prefix_refl _) fun _ _ _ => id)
        fun d hd hle => hstack d hd (hle.trans (Nat.le_succ _))

/-- They wait below newer frames and copies. -/
theorem Pending.mono (h : Pending K P names m b fs env xs) (hb : b ≤ b') (hfs : fs <+: fs')
    (henv : ∀ k n t, env k n = some t → env' k n = some t) : Pending K P names m b' fs' env' xs := by
  cases h with
  | nil => exact .nil
  | cons hsound hwaits htried hlt hpre hext hrest =>
    exact .cons hsound hwaits htried (hlt.trans_le hb) (hpre.trans hfs)
      (fun k n t hn => henv k n t (hext k n t hn)) hrest

end

end PrologMachine
