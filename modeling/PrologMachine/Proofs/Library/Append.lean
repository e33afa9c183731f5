/-
  PrologMachine.Proofs.Library.Append ── **ALL SPLITS OF A LIST.**

  `append(X, Y, Zs)` with a list `Zs` of ground terms answers with the splits of `Zs` into a front and
  a back, the empty front first.  The second clause binds `X` to a list cell whose tail is a new
  variable, and its body splits the rest of `Zs` for that tail; so each answer of the body is one of
  the whole with one element more in front, and when the body has no more, neither has the whole.

    * `Machine.IsAppend`: the code of the two clauses.
    * `Machine.append_fact`, `Machine.append_opens`: what the clauses do.
    * `Machine.append_replies`: the answers of a call.
-/
import PrologMachine.Proofs.Goal.Calling
import PrologMachine.Proofs.Goal.Ground
import PrologMachine.Proofs.Machine.Scanning

namespace PrologMachine

/-! ## §1. Lists on the heap. -/

namespace Heap

variable {h h' : Heap} {v : VarId} {u : Value}

/-- The variable becomes a list cell with a new head and a new tail. -/
def opened (h : Heap) (x : VarId) : Heap :=
  let h₁ := (h.newStruct "cons" [] .none).2.set x (.struct h.structs.size)
  let h₂ := (h₁.fresh "H").2.pushArg h.structs.size (.var h₁.vars.size)
  (h₂.fresh "T").2.pushArg h.structs.size (.var h₂.vars.size)

/-- There are two more variables. -/
theorem vars_size_opened : (h.opened v).vars.size = h.vars.size + 2 := by
  simp [opened]

/-- Changing what was just pushed is pushing it changed. -/
private theorem modify_push_self {α : Type} (xs : Array α) (a : α) (change : α → α) :
    (xs.push a).modify xs.size change = xs.push (change a) := by
  apply Array.ext_getElem?
  intro k
  rw [Array.getElem?_modify, Array.getElem?_push, Array.getElem?_push]
  by_cases hk : k = xs.size
  · simp [hk]
  · simp [hk, Ne.symm hk]

/-- There is one more structure. -/
theorem structs_opened : (h.opened v).structs =
    h.structs.push ⟨"cons", [.var h.vars.size, .var (h.vars.size + 1)], .none⟩ := by
  have hone := modify_push_self h.structs ⟨"cons", [], .none⟩ fun c =>
    { c with args := c.args ++ [.var h.vars.size] }
  have htwo := modify_push_self h.structs ⟨"cons", [.var h.vars.size], .none⟩ fun c =>
    { c with args := c.args ++ [.var (h.vars.size + 1)] }
  simp only [opened, pushArg, newStruct, structs_fresh, structs_set, vars_size_fresh, vars_size_set]
  rw [hone]
  exact htwo

/-- One variable is bound to the new structure. -/
theorem binding?_opened {v' : VarId} (hv : v < h.vars.size) : (h.opened v).binding? v' =
    if v' = v then some (.struct h.structs.size) else h.binding? v' := by
  simp only [opened, binding?_pushArg, binding?_fresh]
  rw [binding?_set (by exact hv), binding?_newStruct]

/-- The heap has grown by this binding only. -/
theorem grown_opened (hv : v < h.vars.size) : Grown [v] h (h.opened v) where
  size := by rw [vars_size_opened]; exact Nat.le_add_right _ _
  bindings v' _ hv' := by
    rw [binding?_opened hv, if_neg fun heq => hv' (List.mem_singleton.2 heq)]
  structs s cell hs := by
    rw [structs_opened, Array.getElem?_push, if_neg]
    · exact hs
    · exact Nat.ne_of_lt (Array.getElem?_eq_some_iff.1 hs).1

/-- What the new list cell is, once its head has a value and whatever cells are new beside it. -/
structure Consed (h : Heap) (v : VarId) (u : Value) (h' : Heap) : Prop where
  /-- The other cells are what they were. -/
  grown : h.Grown [v] h'
  /-- The head and the tail are new. -/
  size : h.vars.size + 1 < h'.vars.size
  /-- The variable is bound to the list cell. -/
  bound : h'.binding? v = some (.struct h.structs.size)
  /-- The list cell. -/
  cell : h'.structs[h.structs.size]? =
    some ⟨"cons", [.var h.vars.size, .var (h.vars.size + 1)], .none⟩
  /-- The value of its head. -/
  head : h'.binding? h.vars.size = some u
  /-- Its tail is unbound. -/
  tail : h'.binding? (h.vars.size + 1) = none

/-- The list has a new first element. -/
theorem consed (hv : v < h.vars.size) (hg : Grown [] ((h.opened v).set h.vars.size u) h') :
    Consed h v u h' := by
  have hsize : ((h.opened v).set h.vars.size u).vars.size = h.vars.size + 2 := by
    rw [vars_size_set, vars_size_opened]
  have hhead : h.vars.size < h.vars.size + 2 := Nat.lt_add_of_pos_right Nat.two_pos
  have hbinding : ∀ w < h.vars.size + 2, h'.binding? w =
      if w = h.vars.size then some u else (h.opened v).binding? w := fun w hw => by
    rw [hg.bindings w (hsize.symm ▸ hw) List.not_mem_nil,
      binding?_set (by rw [vars_size_opened]; exact hhead)]
  refine ⟨((grown_opened hv).set (.inr le_rfl)).trans hg fun _ hin => (List.not_mem_nil hin).elim, ?_, ?_,
    ?_, ?_, ?_⟩
  · exact (Nat.lt_succ_self _).trans_le (hsize.symm.le.trans hg.size)
  · rw [hbinding v (hv.trans hhead), if_neg (Nat.ne_of_lt hv), binding?_opened hv, if_pos rfl]
  · refine hg.structs _ _ ?_
    rw [structs_set, structs_opened, Array.getElem?_push_size]
  · rw [hbinding _ hhead, if_pos rfl]
  · rw [hbinding _ (Nat.lt_succ_self _), if_neg (Nat.succ_ne_self _), binding?_opened hv,
      if_neg (Nat.ne_of_gt (hv.trans (Nat.lt_succ_self _)))]
    exact binding?_eq_none (Nat.le_succ _)

/-- A list cell stands for a list. -/
theorem Stands.cons {s : StructId} {a b : Value} {e l : Term}
    (hcell : h.structs[s]? = some ⟨"cons", [a, b], .none⟩) (ha : h.Stands a e.plain)
    (hb : h.Stands b l.plain) : h.Stands (.struct s) (e.cons l).plain := by
  have hargs : List.Forall₂ h.Stands (h.structCell s).args [e.plain, l.plain] := by
    rw [structCell_of_get hcell]
    exact .cons ha (.cons hb .nil)
  have hs := Stands.struct .struct hargs
  rw [structCell_of_get hcell] at hs
  simpa [Term.cons, Term.plain, Term.plainAll] using hs

end Heap

namespace Term

variable {h : Heap} {t e : Term} {u : Value} {p : Int}

/-- An empty list is a constant. -/
theorem Rigid.nil (ht : Rigid h (.const .nil p) u) : ∃ k, u = .const k ∧ k.value = .nil := by
  rw [Rigid, Denotes] at ht
  obtain ⟨k, hu, hk, -⟩ := ht
  exact ⟨k, hu, hk⟩

/-- Where the end of a list stands does not matter. -/
theorem plain_ofList (es : List Term) :
    (ofList es (.const .nil p)).plain = (ofList es (.const .nil (-1))).plain := by
  induction es with
  | nil => rfl
  | cons e es ih =>
    show (Term.cons e _).plain = (Term.cons e _).plain
    rw [Term.cons, Term.cons, plain, plain, plainAll, plainAll, plainAll, plainAll, plainAll, plainAll]
    exact congrArg (fun l => Term.app "cons" [e.plain, l] .none (-1)) ih

/-- A list that is not empty is a structure with its first element and its tail. -/
theorem Rigid.uncons (ht : Rigid h (e.cons t) u) : ∃ s a u', u = .struct s ∧
    h.structs[s]? = some ⟨"cons", [a, u'], .none⟩ ∧ Rigid h e a ∧ Rigid h t u' := by
  rw [Term.cons, Rigid, Denotes] at ht
  rcases ht with ⟨hnil, -⟩ | ⟨-, s, us, hu, hcell, hargs⟩
  · cases hnil
  · obtain ⟨a, us', rfl, ha, hrest⟩ := rigidAll_cons.1 hargs
    obtain ⟨u', us'', rfl, hu', hnil⟩ := rigidAll_cons.1 hrest
    rw [RigidAll, DenotesAll] at hnil
    obtain rfl := hnil.1
    exact ⟨s, a, u', hu, hcell, ha, hu'⟩

end Term

/-! ## §2. The two clauses. -/

namespace Machine

open Exec Term

variable {w : World} {c c₁ c₂ : Clause} {label : String} {i j : Nat} {f g : FrameId} {fr : Frame}
  {s : StructId} {x y : VarId} {u : Value} {k : Constant} {h h' : Heap} {e t : Term} {es : List Term}
  {p : Int} {m m' m₁ : Machine}

/-- The code of `append([], L, L)`. -/
def appendFact (k : Constant) : Code :=
  [getStruct "append" 3 0, { op := .getNil, constant := some k }, { op := .getVar, name := "L" },
    { op := .getValue, name := "L" }, { op := .proceed }]

/-- The code of the head `append([H|T], L, [H|R])`. -/
def appendHead : Code :=
  [getStruct "append" 3 0, { op := .getVar, name := structRegister 1 }, { op := .getVar, name := "L" },
    { op := .getVar, name := structRegister 2 }, getStruct "cons" 2 1, { op := .unifVar, name := "H" },
    { op := .unifVar, name := "T" }, getStruct "cons" 2 2, { op := .unifValue, name := "H" },
    { op := .unifVar, name := "R" }, { op := .jump, label := bodyLabel }]

/-- The goal `append(T, L, R)`. -/
def appendGoal : Goal := ⟨"append", [.var "T" 0, .var "L" 0, .var "R" 0], .none, 46⟩

/-- The clauses of `append`. -/
structure IsAppend (c₁ c₂ : Clause) : Prop where
  /-- The fact. -/
  fact : ∃ k : Constant, k.value = .nil ∧ c₁.block? headLabel = some (appendFact k)
  /-- The head of the rule. -/
  head : c₂.block? headLabel = some appendHead
  /-- Its body. -/
  body : ∃ e op, (op = .call ∨ op = .bcall) ∧ (∀ x ∈ ["T", "L", "R"], x ∈ e.seen) ∧
    c₂.block? bodyLabel = some (callCode appendGoal e op ++ [{ op := .proceed }])
  /-- They are code. -/
  code : c₁.native = false ∧ c₂.native = false

/-- The structure `s` is a call of `append` with two different unbound variables and the value `u`. -/
structure Splitting (h : Heap) (s : StructId) (x y : VarId) (u : Value) : Prop where
  /-- The structure. -/
  cell : h.structs[s]? = some ⟨"append", [.var x, .var y, u], .none⟩
  /-- The variables are different. -/
  apart : x ≠ y
  /-- The first exists and is unbound. -/
  front : x < h.vars.size ∧ h.binding? x = none
  /-- So does the second. -/
  back : y < h.vars.size ∧ h.binding? y = none

/-- The situation stays in a heap that has grown. -/
theorem Splitting.grown (hs : Splitting h s x y u) (hg : h.Grown [] h') : Splitting h' s x y u where
  cell := hg.structs s _ hs.cell
  apart := hs.apart
  front := ⟨hs.front.1.trans_le hg.size,
    (hg.bindings x hs.front.1 List.not_mem_nil).trans hs.front.2⟩
  back := ⟨hs.back.1.trans_le hg.size,
    (hg.bindings y hs.back.1 List.not_mem_nil).trans hs.back.2⟩

/-- In the machine `m'` the fact has matched the call of frame `f` that was made with the machine `m`:
    the front is empty and the back is the whole list. -/
structure Matched (c : Clause) (label : String) (i : Nat) (g f : FrameId) (s : StructId) (x y : VarId)
    (u : Value) (m m' : Machine) : Prop where
  /-- The call can be tried again. -/
  underway : Underway c label i g f m'
  /-- The bindings. -/
  heap : ∃ k : Constant, k.value = .nil ∧ m'.heap = (m.heap.set x (.const k)).set y u
  /-- The stack is what it was. -/
  stack : m'.stack = m.stack
  /-- The frame of the call has recorded them. -/
  frame : ∃ fr, Updates f fr m m' ∧ fr.get? "$x0" = some (.struct s) ∧
    { fr with vars := [] } =
      { m.frame f with vars := [], trail := [y, x], alternatives := [], clauses := 2 }

/-- What matches the machine matches the situation. -/
theorem Matched.of_matches (h : Matched c label i g f s x y u m m₁) (hm : Matches m₁ m') :
    Matched c label i g f s x y u m m' where
  underway := h.underway.of_matches hm
  heap := by rw [hm.heap]; exact h.heap
  stack := hm.stack.trans h.stack
  frame := by
    obtain ⟨fr, hupdates, hframe⟩ := h.frame
    exact ⟨fr, hupdates.frames hm.frames, hframe⟩

/-- **The fact** binds the first variable to the empty list and the second to the whole list. -/
theorem append_fact (hw : w.maxSteps ≤ 0) (hsite : CallSite c label i) (happend : IsAppend c₁ c₂)
    (hget : w.base.get ⟨"append", 3⟩ = .ok [c₁, c₂]) (hm : Selecting c label i g f 0 s m)
    (hs : Splitting m.heap s x y u) (hu : (∃ k, u = .const k) ∨ ∃ s, u = .struct s) :
    ∃ m', Reaches w m m' ∧ Left c label i g true m' ∧ Matched c label i g f s x y u m m' := by
  obtain ⟨k, hk, hblock⟩ := happend.fact
  have hcell := Heap.structCell_of_get hs.cell
  obtain ⟨m₀, hstep₀, hscan₀⟩ := hm.scans hw hsite hcell hget rfl happend.code.1
  -- The head runs through.
  obtain ⟨m₁, hstep₁, hscan₁⟩ := hscan₀.getStruct_read (r := 0) hw hblock rfl (by simp) rfl
    (by exact hcell)
  obtain ⟨m₂, hstep₂, hscan₂⟩ := hscan₁.getConst_free hw hm.lt hm.top hblock rfl rfl rfl
    (by rw [hcell]; rfl) hs.front.2
  obtain ⟨m₃, hstep₃, hscan₃⟩ := hscan₂.getVar_read hw hm.lt hblock rfl (.inl rfl)
    (by rw [Heap.structCell_set, hcell]; rfl)
  have hback : (m.heap.set x (.const k)).binding? y = none := by
    rw [Heap.binding?_set_of_ne hs.apart.symm]
    exact hs.back.2
  obtain ⟨m₄, hstep₄, hscan₄⟩ := hscan₃.getValue_read hw hm.lt hm.top hblock rfl (.inl rfl)
    Frame.get?_put_self (by rw [Heap.structCell_set, hcell]; rfl) (Heap.unify_free hback hu)
  have hunder : Underway c label i g f m₄ :=
    hm.toUnderway.updates hscan₄.updates (by simp) (by simp [hm.uncut]) (by simp) hscan₄.stack
  -- The call returns.
  obtain ⟨m₅, hrun₅, hmatches, hleft⟩ := proceed_returns hunder.point hunder.caller hw hsite
    hscan₄.place hblock rfl hscan₄.active hscan₄.current hscan₄.success
  refine ⟨m₅, ((((Reaches.single hstep₀).trans (.single hstep₁)).trans (.single hstep₂)).trans
    (.single hstep₃)).trans ((Reaches.single hstep₄).trans hrun₅), hleft,
    Matched.of_matches ⟨hunder, ⟨k, hk, hscan₄.heap⟩, hscan₄.stack, _, hscan₄.updates, ?_, ?_⟩
      hmatches⟩
  · simp only [Frame.get?_recorded, Frame.get?_put]
    rfl
  · simp [hm.trail, hm.uncut]

/-- **The rule** begins with a new list cell for the first variable. -/
theorem append_opens (hw : w.maxSteps ≤ 0) (hsite : CallSite c label i) (happend : IsAppend c₁ c₂)
    (hget : w.base.get ⟨"append", 3⟩ = .ok [c₁, c₂]) (hm : Selecting c label i g f 1 s m)
    (hs : Splitting m.heap s x y u) :
    ∃ m' fr, Reaches w m m' ∧
      Scanning c₂ f 7 (m.heap.opened x) fr
        (some ⟨structRegister 1, .write, m.heap.structs.size, 0⟩) m m' ∧
      fr.get? (structRegister 2) = some u ∧ fr.get? "H" = some (.var m.heap.vars.size) ∧
      fr.get? "T" = some (.var (m.heap.vars.size + 1)) ∧ fr.get? "L" = some (.var y) ∧
      { fr with vars := [] } =
        { m.frame f with vars := [], trail := [x], alternatives := [], clauses := 2 } := by
  have hblock := happend.head
  have hcell := Heap.structCell_of_get hs.cell
  have hone : structRegister 1 = "$x1" := by decide
  have htwo : structRegister 2 = "$x2" := by decide
  -- The head of the second clause takes its arguments apart and opens the first list for writing.
  obtain ⟨m₀, hstep₀, hscan₀⟩ := hm.scans hw hsite hcell hget rfl happend.code.2
  obtain ⟨m₁, hstep₁, hscan₁⟩ := hscan₀.getStruct_read (r := 0) hw hblock rfl (by simp) rfl
    (by exact hcell)
  obtain ⟨m₂, hstep₂, hscan₂⟩ := hscan₁.getVar_read hw hm.lt hblock rfl (.inl rfl)
    (by rw [hcell]; rfl)
  obtain ⟨m₃, hstep₃, hscan₃⟩ := hscan₂.getVar_read hw hm.lt hblock rfl (.inl rfl)
    (by rw [hcell]; rfl)
  obtain ⟨m₄, hstep₄, hscan₄⟩ := hscan₃.getVar_read hw hm.lt hblock rfl (.inl rfl)
    (by rw [hcell]; rfl)
  obtain ⟨m₅, hstep₅, hscan₅⟩ := hscan₄.getStruct_write (r := 1) hw hm.lt hm.top hblock rfl
    (by simp; decide) (by simp [Frame.get?_put, hone, htwo]) hs.front.2
  obtain ⟨m₆, hstep₆, hscan₆⟩ := hscan₅.getVar_write hw hm.lt hblock rfl (.inr rfl)
  obtain ⟨m₇, hstep₇, hscan₇⟩ := hscan₆.getVar_write hw hm.lt hblock rfl (.inr rfl)
  have hrun : Reaches w m m₇ := (((((((Reaches.single hstep₀).trans (.single hstep₁)).trans
    (.single hstep₂)).trans (.single hstep₃)).trans (.single hstep₄)).trans (.single hstep₅)).trans
    (.single hstep₆)).trans (.single hstep₇)
  refine ⟨m₇, _, hrun, hscan₇, ?_, ?_, ?_, ?_, ?_⟩
  · simp [Frame.get?_put, hone, htwo]
  · simp [Frame.get?_put]
  · simp
  · simp [Frame.get?_put, htwo]
  · simp [hm.trail, hm.uncut]

/-- **The rule gives up** when the list is empty. -/
theorem append_misses (hw : w.maxSteps ≤ 0) (hsite : CallSite c label i) (happend : IsAppend c₁ c₂)
    (hget : w.base.get ⟨"append", 3⟩ = .ok [c₁, c₂]) (hm : Selecting c label i g f 1 s m)
    (hs : Splitting m.heap s x y (.const k)) :
    ∃ m', Reaches w m m' ∧ GivenUp c label i g f m m' := by
  -- The third argument is a constant, so the structure for it is a mismatch.
  obtain ⟨m₁, fr, hrun, hscan, hlist, -, -, -, hfields⟩ := append_opens hw hsite happend hget hm hs
  have hunder : Underway c label i g f m₁ := hm.toUnderway.updates hscan.updates
    (congrArg Frame.returnPoint hfields :) (congrArg Frame.cutTo hfields :)
    (congrArg Frame.committed hfields :) hscan.stack
  obtain ⟨m₂, hstep, hmatches, hfailing⟩ := hscan.getStruct_const hw happend.head rfl
    (by simp; decide) hlist hunder
  have hself : m₂.frame f = fr := (hmatches.frame f).trans hscan.updates.self
  have htrail : (m₂.frame f).trail = [x] := by rw [hself, (congrArg Frame.trail hfields :)]
  have hbound : m₂.heap.isBound x = true := by
    rw [hmatches.heap, hscan.heap, Heap.isBound, Heap.binding?_opened hs.front.1, if_pos rfl]
    rfl
  have hattempt : Attempt f [x] m m₂ :=
    { frames := fun f' hf' =>
        (hmatches.frame f').trans (hscan.updates.others f' (Nat.ne_of_lt hf'))
      size := by rw [hmatches.frames, hscan.updates.size]
      cells := by
        rw [hmatches.heap, hscan.heap]
        exact Heap.grown_opened hs.front.1
      stack := hmatches.stack.trans hscan.stack
      unwindable := by
        rw [Unwindable, htrail]
        exact ⟨List.nodup_singleton x, fun v hv => List.mem_singleton.1 hv ▸ hbound⟩
      free := fun v hv => List.mem_singleton.1 hv ▸ hs.front.2
      recorded := fun v hv => htrail ▸ hv
      new := fun v hv => .inl (htrail ▸ hv) }
  obtain ⟨m₃, hrun₃, hgiven⟩ := hattempt.givenUp hfailing hw hsite
    (by rw [hself, (congrArg Frame.clauses hfields : fr.clauses = 2),
      (congrArg Frame.clause hfields :), hm.clause])
  exact ⟨m₃, (hrun.trans (.single hstep)).trans hrun₃, hgiven⟩

/-- **The rule goes on** with the rest of a list that is not empty. -/
theorem append_enters (hw : w.maxSteps ≤ 0) (hsite : CallSite c label i) (happend : IsAppend c₁ c₂)
    (hget : w.base.get ⟨"append", 3⟩ = .ok [c₁, c₂]) (hm : Selecting c label i g f 1 s m)
    (hs : Splitting m.heap s x y u) (hu : Rigid m.heap (e.cons t) u) :
    ∃ m' a u' fr, Reaches w m m' ∧ At c₂ bodyLabel 0 m' ∧ m'.current = f ∧
      Rigid m.heap e a ∧ Rigid m.heap t u' ∧
      m'.heap = (m.heap.opened x).set m.heap.vars.size a ∧ m'.stack = m.stack ∧ Updates f fr m m' ∧
      fr.get? "T" = some (.var (m.heap.vars.size + 1)) ∧ fr.get? "L" = some (.var y) ∧
      fr.get? "R" = some u' ∧
      { fr with vars := [] } = { m.frame f with
        vars := [], trail := [m.heap.vars.size, x], alternatives := [], clauses := 2 } := by
  -- The third argument is a list cell: its head is unified with the new variable, its tail is named.
  obtain ⟨s', a, u', rfl, hcell, ha, hu'⟩ := hu.uncons
  obtain ⟨m₇, fr, hrun, hscan₇, hlist, hhead, htail, hback, hfields⟩ :=
    append_opens hw hsite happend hget hm hs
  have hcell' : (m.heap.opened x).structCell s' = ⟨"cons", [a, u'], .none⟩ :=
    Heap.structCell_of_get ((Heap.grown_opened hs.front.1).structs s' _ hcell)
  have hfree : (m.heap.opened x).binding? m.heap.vars.size = none := by
    rw [Heap.binding?_opened hs.front.1, if_neg (Nat.ne_of_gt hs.front.1)]
    exact Heap.binding?_eq_none le_rfl
  obtain ⟨m₈, hstep₈, hscan₈⟩ := hscan₇.getStruct_read (r := 2) hw happend.head rfl
    (by simp; decide) hlist (by exact hcell')
  obtain ⟨m₉, hstep₉, hscan₉⟩ := hscan₈.getValue_read hw hm.lt hm.top happend.head rfl (.inr rfl) hhead
    (by rw [hcell']; rfl) (Heap.unify_free hfree ha.not_var)
  obtain ⟨m₁₀, hstep₁₀, hscan₁₀⟩ := hscan₉.getVar_read hw hm.lt happend.head rfl (.inr rfl)
    (by rw [Heap.structCell_set, hcell']; rfl)
  obtain ⟨m₁₁, hstep₁₁, hat, -, hmatches, hcurrent⟩ := hscan₁₀.jump hw happend.head rfl
  have htrail : fr.trail = [x] := congrArg Frame.trail hfields
  refine ⟨m₁₁, a, u', _, (((hrun.trans (.single hstep₈)).trans (.single hstep₉)).trans
    (.single hstep₁₀)).trans (.single hstep₁₁), hat, hcurrent, ha, hu',
    hmatches.heap.trans hscan₁₀.heap, hmatches.stack.trans hscan₁₀.stack,
    hscan₁₀.updates.frames hmatches.frames, ?_, ?_, ?_, ?_⟩
  · simp [Frame.get?_put, htail]
  · simp [Frame.get?_put, hback]
  · simp
  · simpa [htrail] using hfields

/-- The rule has called itself in the machine `m'`: of the list, whose value is `u`, it has put the
    first element behind the first variable, and the call is to split the rest. -/
structure Recursed (c₂ : Clause) (n : Nat) (f : FrameId) (x y : VarId) (e t : Term) (m m' : Machine) :
    Prop where
  /-- The call of the rule. -/
  site : CallSite c₂ bodyLabel n
  /-- It is the last. -/
  last : ∃ block, c₂.block? bodyLabel = some block ∧ block[n + 3]? = some { op := .proceed }
  /-- It is about to be entered, with the tail of the new cell and the rest of the list. -/
  calling : ∃ s u, Selecting c₂ bodyLabel n f m.frames.size 0 s m' ∧
    Splitting m'.heap s (m.heap.vars.size + 1) y u ∧ Rigid m'.heap t u
  /-- The new cells; the element is the first of the list. -/
  consed : ∃ a, Heap.Consed m.heap x a m'.heap ∧ Rigid m'.heap e a
  /-- The new frame is on top of the stack. -/
  stack : m'.stack = m.stack.push m.frames.size
  /-- It is the only one. -/
  size : m'.frames.size = m.frames.size + 1
  /-- The other frames are what they were. -/
  others : ∀ f' < m.frames.size, f' ≠ f → m'.frame f' = m.frame f'
  /-- The frame of the rule has recorded the two bindings. -/
  fields : { m'.frame f with vars := [] } = { m.frame f with
    vars := [], trail := [m.heap.vars.size, x], alternatives := [], clauses := 2 }

/-- The goal of the rule, whose variables have values. -/
theorem append_goal {others : List VarId} {vs : List Value} {t₁ t₂ t₃ : Value}
    {σ : String → Option Value} (hT : σ "T" = some t₁) (hL : σ "L" = some t₂) (hR : σ "R" = some t₃)
    (h : DenotesAll h σ appendGoal.args vs others) : vs = [t₁, t₂, t₃] := by
  have hnamed : isAnonymous "T" = false ∧ isAnonymous "L" = false ∧ isAnonymous "R" = false := by
    decide
  simp only [appendGoal, DenotesAll, Denotes, hnamed, hT, hL, hR, Bool.false_eq_true, if_false,
    Option.some.injEq] at h
  obtain ⟨_, _, _, _, rfl, -, ⟨rfl, -⟩, _, _, _, _, rfl, -, ⟨rfl, -⟩, _, _, _, _, rfl, -, ⟨rfl, -⟩,
    rfl, -⟩ := h
  rfl

/-- **The rule calls itself.** -/
theorem append_recurs (hw : w.maxSteps ≤ 0) (hsite : CallSite c label i) (happend : IsAppend c₁ c₂)
    (hget : w.base.get ⟨"append", 3⟩ = .ok [c₁, c₂]) (hm : Selecting c label i g f 1 s m)
    (hs : Splitting m.heap s x y u) (hu : Rigid m.heap (e.cons t) u) :
    ∃ m' n, Reaches w m m' ∧ Recursed c₂ n f x y e t m m' := by
  obtain ⟨m₁, a, u', fr, hrun, hat, hcurrent, ha, hu', hheap, hstack, hupdates, hT, hL, hR, hfields⟩ :=
    append_enters hw hsite happend hget hm hs hu
  obtain ⟨em, op, hop, hseen, hblock⟩ := happend.body
  have hwhole : Segment (callCode appendGoal em op ++ [{ op := .proceed }]) 0
      (callCode appendGoal em op ++ [{ op := .proceed }]) := ⟨[], (List.append_nil _).symm⟩
  have hcode := hwhole.left
  have hself : m₁.frame m₁.current = fr := hcurrent ▸ hupdates.self
  obtain ⟨m₂, s', news, others, hrun₂, hcalled⟩ := goal_called hw (by decide) hblock hcode hat
    (hrun.active hm.active) (by rw [hcurrent, hupdates.size]; exact hm.lt)
    (by rw [hself]; exact (congrArg Frame.alternatives hfields :))
    (by rw [depth, hstack]; exact Nat.zero_lt_of_lt hm.deep)
  have hcalling := hcalled.calling
  rw [hcurrent, hupdates.size] at hcalling
  -- All variables of the goal have values already.
  have hvalue : ∀ {z v}, fr.get? z = some v → m₁.value? z = some v := fun hz => by
    rw [value?, hself]
    exact hz
  have hknown : ∀ z ∈ namesAll appendGoal.args, z ∈ em.seen ∧ (m₁.value? z).isSome := by
    intro z hz
    have hnames : z ∈ ["T", "L", "R"] := hz
    refine ⟨hseen z hnames, ?_⟩
    simp only [List.mem_cons, List.not_mem_nil, or_false] at hnames
    rcases hnames with rfl | rfl | rfl
    · rw [hvalue hT]; rfl
    · rw [hvalue hL]; rfl
    · rw [hvalue hR]; rfl
  have hvalue₂ : ∀ {z v}, fr.get? z = some v → m₂.value? z = some v := fun hz =>
    (hcalled.value_eq hknown _).trans (hvalue hz)
  obtain ⟨us, hcell, hdenotes⟩ := hcalled.goal
  obtain rfl := append_goal (hvalue₂ hT) (hvalue₂ hL) (hvalue₂ hR) hdenotes
  -- The cells.
  have hconsed : Heap.Consed m.heap x a m₂.heap := Heap.consed hs.front.1 (hheap ▸ hcalled.grown)
  have hrigid : Rigid m₂.heap t u' := hu'.mono hconsed.grown.structs
  have hsplitting : Splitting m₂.heap s' (m.heap.vars.size + 1) y u' := by
    have hy : y ∉ [x] := fun hin => hs.apart (List.mem_singleton.1 hin).symm
    refine ⟨hcell, Nat.ne_of_gt (hs.back.1.trans (Nat.lt_succ_self _)), ⟨hconsed.size, hconsed.tail⟩,
      hs.back.1.trans_le hconsed.grown.size, ?_⟩
    rw [hconsed.grown.bindings y hs.back.1 hy, hs.back.2]
  refine ⟨m₂, _, hrun.trans hrun₂,
    { site := callSite_of_segment hop hblock hcode
      last := ⟨_, hblock, ?_⟩
      calling := ⟨s', u', hcalling, hsplitting, hrigid⟩
      consed := ⟨a, hconsed, ha.mono hconsed.grown.structs⟩
      stack := by rw [hcalled.stack, hstack, hupdates.size]
      size := by rw [hcalled.size, hupdates.size]
      others := fun f' hf' hne => ?_
      fields := ?_ }⟩
  · have hlast := hwhole.right.head
    rwa [length_callCode] at hlast
  · rw [hcalled.frames f' (hupdates.size.symm ▸ hf') (hcurrent.symm ▸ hne), hupdates.others f' hne]
  · have hcallee := hcalled.fields
    rw [hcurrent, hupdates.self] at hcallee
    exact hcallee.trans hfields

/-! ## §3. All answers. -/

/-- All ways to split a list, the empty front first. -/
def splits (es : List Term) : List (List Term × List Term) :=
  (List.range (es.length + 1)).map fun k => (es.take k, es.drop k)

/-- The splits of a list with one more element. -/
theorem splits_cons : splits (e :: es) =
    ([], e :: es) :: (splits es).map fun p => (e :: p.1, p.2) := by
  rw [splits, List.length_cons, List.range_succ_eq_map, List.map_cons, List.map_map, splits,
    List.map_map]
  rfl

/-- The call of frame `f`, made with the machine `m`, has split the list into a front and a back. -/
structure SplitOff (c : Clause) (label : String) (i : Nat) (g f : FrameId) (x y : VarId) (m : Machine)
    (p : List Term × List Term) (m' : Machine) : Prop extends Preserves f [x, y] m m' where
  /-- It has returned. -/
  left : Left c label i g true m'
  /-- The front. -/
  front : m'.heap.Stands (.var x) (ofList p.1 (.const .nil (-1))).plain
  /-- The back. -/
  back : m'.heap.Stands (.var y) (ofList p.2 (.const .nil (-1))).plain

/-- A split that was found is one for the machine before the retry. -/
theorem SplitOff.retried {q : List Term × List Term} (h : SplitOff c label i g f x y m₁ q m')
    (hr : Retried f m m₁) : SplitOff c label i g f x y m q m' where
  toPreserves := (hr.toPreserves.mono (List.nil_subset _)).trans h.toPreserves le_rfl
    fun _ hv => .inl hv
  left := h.left
  front := h.front
  back := h.back

/-- The fact has bound the two variables. -/
theorem Matched.attempt (h : Matched c label i g f s x y u m m') (hs : Splitting m.heap s x y u) :
    Attempt f [x, y] m m' := by
  -- The first clause binds the first two arguments, the last of them on top of the trail.
  obtain ⟨k, -, hheap⟩ := h.heap
  obtain ⟨fr, hupdates, -, hfields⟩ := h.frame
  have htrail : (m'.frame f).trail = [y, x] := by
    rw [hupdates.self, (congrArg Frame.trail hfields :)]
  have hx : m'.heap.isBound x = true := by
    rw [hheap, Heap.isBound, Heap.binding?_set_of_ne hs.apart, Heap.binding?_set hs.front.1,
      if_pos rfl]
    rfl
  have hy : m'.heap.isBound y = true := by
    rw [hheap, Heap.isBound, Heap.binding?_set (by rw [Heap.vars_size_set]; exact hs.back.1),
      if_pos rfl]
    rfl
  exact
    { frames := fun f' hf' => hupdates.others f' (Nat.ne_of_lt hf')
      size := hupdates.size.ge
      cells := by
        rw [hheap]
        exact ((Heap.Grown.refl _ _).set (.inl (by simp))).set (.inl (by simp))
      stack := h.stack
      unwindable := by
        rw [Unwindable, htrail]
        refine ⟨by simp [hs.apart.symm], fun v hv => ?_⟩
        rcases List.mem_pair.1 hv with rfl | rfl
        · exact hy
        · exact hx
      free := fun v hv => by
        rcases List.mem_pair.1 hv with rfl | rfl
        · exact hs.front.2
        · exact hs.back.2
      recorded := fun v hv => by
        rw [htrail]
        exact List.mem_pair.2 (List.mem_pair.1 hv).symm
      new := fun v hv => by
        rw [htrail] at hv
        exact .inl (List.mem_pair.2 (List.mem_pair.1 hv).symm) }

/-- **After the fact the rule is tried**, with the cells as they were. -/
theorem Matched.retries (h : Matched c label i g f s x y u m m₁) (hw : w.maxSteps ≤ 0)
    (hsite : CallSite c label i) (hm : Selecting c label i g f 0 s m) (hs : Splitting m.heap s x y u)
    (hactive : m₁.Active) :
    ∃ m', Reaches w (m₁.resumed f (pastCall c label i g)) m' ∧ Selecting c label i g f 1 s m' ∧
      Retried f m m' := by
  have hresumed := h.of_matches h.underway.choicePoint.matches_resumed
  obtain ⟨fr, hupdates, hgoal, hfields⟩ := hresumed.frame
  rw [← hupdates.self] at hgoal hfields
  have hclauses : ((m₁.resumed f (pastCall c label i g)).frame f).clauses = 2 :=
    (congrArg Frame.clauses hfields :)
  obtain ⟨m', hstep, hselecting, hretried⟩ := (hresumed.attempt hs).retried
    (h.underway.resumes hactive) hw hsite hgoal ((congrArg Frame.clause hfields :).trans hm.clause)
    (by rw [hclauses]; exact Nat.one_lt_two)
  exact ⟨m', .single hstep, hselecting, hretried⟩

namespace Recursed

variable {n : Nat} {m₂ : Machine}

/-- The recursive call keeps what the attempt has bound. -/
theorem keeps (h : Recursed c₂ n f x y e t m m') (hf : f < m.frames.size) :
    Preserves f [x] m m' where
  frames f' hf' := h.others f' (hf'.trans hf) (Nat.ne_of_lt hf')
  size := (Nat.le_succ _).trans h.size.symm.le
  cells := by
    obtain ⟨a, hconsed, -⟩ := h.consed
    exact hconsed.grown

/-- What returns from the inner call finds the frame of the outer one as it was. -/
theorem underway (h : Recursed c₂ n f x y e t m m') (hm : Selecting c label i g f 1 s m)
    (hframes : ∀ f' < m.frames.size, m₂.frame f' = m'.frame f')
    (hsize : m'.frames.size ≤ m₂.frames.size) (hstack : m₂.stack = m.stack) :
    Underway c label i g f m₂ := by
  have hfields := h.fields
  rw [← hframes f hm.lt] at hfields
  refine hm.toUnderway.later (congrArg Frame.returnPoint hfields :) (congrArg Frame.cutTo hfields :)
    (congrArg Frame.committed hfields :) ?_ ((Nat.le_succ _).trans (h.size.symm.le.trans hsize))
    hstack
  have hg : g < m.frames.size := hm.caller.trans hm.lt
  rw [hframes g hg, h.others g hg (Nat.ne_of_lt hm.caller)]

/-- **An answer of the inner call is one of the outer**, with one element more in front. -/
theorem answers {q : List Term × List Term} (h : Recursed c₂ n f x y e t m m') (hw : w.maxSteps ≤ 0)
    (hsite : CallSite c label i) (hm : Selecting c label i g f 1 s m) (hs : Splitting m.heap s x y u)
    (hq : SplitOff c₂ bodyLabel n f m.frames.size (m.heap.vars.size + 1) y m' q m₂) :
    ∃ m₃, Reaches w m₂ m₃ ∧ Matches m₂ m₃ ∧ SplitOff c label i g f x y m (e :: q.1, q.2) m₃ := by
  obtain ⟨block, hblock, hlast⟩ := h.last
  obtain ⟨a, hconsed, hfirst⟩ := h.consed
  have hpoint : (m₂.frame f).returnPoint = some (pastCall c label i g) := by
    rw [hq.frames f hm.lt]
    exact (congrArg Frame.returnPoint h.fields :).trans hm.point
  obtain ⟨m₃, hrun₃, hmatches, hleft⟩ := proceed_returns hpoint hm.caller hw hsite hq.left.place hblock
    hlast hq.left.active hq.left.current hq.left.success
  have hkeeps : Preserves f [x, y] m m₂ := by
    refine ((h.keeps hm.lt).mono (by simp)).trans hq.toPreserves hm.lt.le fun v hv => ?_
    rcases List.mem_pair.1 hv with rfl | rfl
    · exact .inr (Nat.le_succ _)
    · exact .inl (by simp)
  -- The inner call has bound neither the first variable nor the head of the new cell.
  have hkept : ∀ v ≤ m.heap.vars.size, v ≠ y → m₂.heap.binding? v = m'.heap.binding? v :=
    fun v hv hne => by
      have hlt : v < m.heap.vars.size + 1 := Nat.lt_succ_of_le hv
      refine hq.cells.bindings v (hlt.trans hconsed.size) fun hin => ?_
      exact (List.mem_pair.1 hin).elim (Nat.ne_of_lt hlt) hne
  have hfront : m₂.heap.Stands (.var x) (ofList (e :: q.1) (.const .nil (-1))).plain := by
    have hhead : m₂.heap.Stands (.var m.heap.vars.size) e.plain :=
      .bound ((hkept _ le_rfl (Nat.ne_of_gt hs.back.1)).trans hconsed.head)
        (hfirst.mono hq.cells.structs).stands
    exact .bound ((hkept x hs.front.1.le hs.apart).trans hconsed.bound)
      (.cons (hq.cells.structs _ _ hconsed.cell) hhead hq.front)
  refine ⟨m₃, hrun₃, hmatches, hkeeps.of_matches hmatches, hleft, ?_, ?_⟩
  · rw [hmatches.heap]
    exact hfront
  · rw [hmatches.heap]
    exact hq.back

/-- **When the inner call has no more answers, neither has the outer.** -/
theorem ends (h : Recursed c₂ n f x y e t m m') (hw : w.maxSteps ≤ 0)
    (hsite : CallSite c label i) (hm : Selecting c label i g f 1 s m) (hs : Splitting m.heap s x y u)
    (hq : GivenUp c₂ bodyLabel n f m.frames.size m' m₂) :
    ∃ m₃, Reaches w m₂ m₃ ∧ GivenUp c label i g f m m₃ := by
  obtain ⟨block, hblock, hlast⟩ := h.last
  obtain ⟨a, hconsed, -⟩ := h.consed
  -- The recursive call is given up, so the clause fails as well and undoes its own bindings.
  have hstack : m₂.stack = m.stack := by rw [hq.stack, h.stack, Array.pop_push]
  have hunder := h.underway hm hq.frames hq.size hstack
  have hfields := h.fields
  rw [← hq.frames f hm.lt] at hfields
  obtain ⟨m₃, hstep₃, hmatches, hfailing⟩ := hunder.fails hw hq.left.place hblock hlast hq.left.active
    hq.left.current hq.left.success (congrArg Frame.alternatives hfields :)
  rw [← hmatches.frame f] at hfields
  have htrail : (m₃.frame f).trail = [m.heap.vars.size, x] := (congrArg Frame.trail hfields :)
  have hkept : ∀ v < m'.heap.vars.size, m₃.heap.binding? v = m'.heap.binding? v := fun v hv => by
    rw [hmatches.heap]
    exact hq.cells.bindings v hv List.not_mem_nil
  have hx : x ≠ m.heap.vars.size := Nat.ne_of_lt hs.front.1
  have hunwindable : Unwindable m₃ f := by
    rw [Unwindable, htrail]
    refine ⟨by simp [hx.symm], fun v hv => ?_⟩
    rcases List.mem_pair.1 hv with rfl | rfl
    · rw [Heap.isBound, hkept _ ((Nat.lt_succ_self _).trans hconsed.size), hconsed.head]
      rfl
    · rw [Heap.isBound, hkept _ (hs.front.1.trans_le hconsed.grown.size), hconsed.bound]
      rfl
  have hattempt : Attempt f [x] m m₃ :=
    { toPreserves := ((h.keeps hm.lt).trans hq.toPreserves hm.lt.le fun _ hv =>
        absurd hv List.not_mem_nil).of_matches hmatches
      stack := hmatches.stack.trans hstack
      unwindable := hunwindable
      free := fun v hv => List.mem_singleton.1 hv ▸ hs.front.2
      recorded := fun v hv => htrail ▸ List.mem_cons_of_mem _ hv
      new := fun v hv => by
        rw [htrail] at hv
        rcases List.mem_pair.1 hv with rfl | rfl
        · exact .inr le_rfl
        · exact .inl (by simp) }
  obtain ⟨m₄, hrun₄, hgiven⟩ := hattempt.givenUp hfailing hw hsite (by
    rw [(congrArg Frame.clauses hfields : (m₃.frame f).clauses = 2),
      (congrArg Frame.clause hfields :), hm.clause])
  exact ⟨m₄, (Reaches.single hstep₃).trans hrun₄, hgiven⟩

end Recursed

/-- **The first answer** is that of the fact, and those of the rule come after it. -/
theorem append_first {qs : List (List Term × List Term)} (hw : w.maxSteps ≤ 0)
    (hsite : CallSite c label i) (happend : IsAppend c₁ c₂)
    (hget : w.base.get ⟨"append", 3⟩ = .ok [c₁, c₂]) (hm : Selecting c label i g f 0 s m)
    (hs : Splitting m.heap s x y u) (hu : Rigid m.heap (ofList es (.const .nil p)) u)
    (hrule : ∀ m', Selecting c label i g f 1 s m' → Retried f m m' →
      Replies w (SplitOff c label i g f x y m') (GivenUp c label i g f m') m' qs) :
    Replies w (SplitOff c label i g f x y m) (GivenUp c label i g f m) m (([], es) :: qs) := by
  -- The fact binds the first variable to the empty list and the second to the whole one.
  obtain ⟨m₁, hrun, hleft, hmatched⟩ := append_fact hw hsite happend hget hm hs hu.not_var
  obtain ⟨k, hk, hheap⟩ := hmatched.heap
  have hx : m₁.heap.binding? x = some (.const k) := by
    rw [hheap, Heap.binding?_set_of_ne hs.apart, Heap.binding?_set hs.front.1, if_pos rfl]
  have hy : m₁.heap.binding? y = some u := by
    rw [hheap, Heap.binding?_set (by rw [Heap.vars_size_set]; exact hs.back.1), if_pos rfl]
  have hkeeps := (hmatched.attempt hs).toPreserves
  have hfirst : SplitOff c label i g f x y m ([], es) m₁ :=
    { toPreserves := hkeeps
      left := hleft
      front := .bound hx (hk ▸ .const .const)
      back := .bound hy (plain_ofList es ▸ (hu.mono hkeeps.cells.structs).stands) }
  refine .answer hrun hfirst hmatched.underway.choicePoint fun m₂ hm₂ hactive => ?_
  -- After the answer the rule is tried, which finds the other splits.
  obtain ⟨m₃, hrun₃, hselecting, hretried⟩ :=
    (hmatched.of_matches hm₂).retries hw hsite hm hs hactive
  exact ((hrule m₃ hselecting hretried).mono (fun _ _ h => h.retried hretried) fun _ h =>
    h.retried hretried).before hrun₃

/-- **The answers of `append`** are the splits of the list.  The induction is on the list: the fact
    gives the first split, and the rule calls the predicate for the rest of the list. -/
theorem append_replies (hw : w.maxSteps ≤ 0) (happend : IsAppend c₁ c₂)
    (hget : w.base.get ⟨"append", 3⟩ = .ok [c₁, c₂]) {es : List Term} : ∀ {c label i g f s x y u m},
    CallSite c label i → Selecting c label i g f 0 s m → Splitting m.heap s x y u →
    Rigid m.heap (ofList es (.const .nil p)) u →
    Replies w (SplitOff c label i g f x y m) (GivenUp c label i g f m) m (splits es) := by
  -- By the list: the first clause always matches, and the second one if there is an element.
  induction es with
  | nil =>
    intro c label i g f s x y u m hsite hm hs hu
    refine append_first hw hsite happend hget hm hs hu fun m₁ hm₁ hretried => ?_
    obtain ⟨k, rfl, -⟩ := hu.nil
    obtain ⟨m₂, hrun, hgiven⟩ :=
      append_misses hw hsite happend hget hm₁ (hs.grown hretried.cells)
    exact .done hrun hgiven
  | cons e es ih =>
    intro c label i g f s x y u m hsite hm hs hu
    rw [splits_cons]
    refine append_first hw hsite happend hget hm hs hu fun m₁ hm₁ hretried => ?_
    have hs₁ := hs.grown hretried.cells
    obtain ⟨m₂, n, hrun, hrec⟩ := append_recurs hw hsite happend hget hm₁ hs₁
      (hu.mono hretried.cells.structs)
    obtain ⟨s', u', hselecting, hsplitting, hrest⟩ := hrec.calling
    refine ((ih hrec.site hselecting hsplitting hrest).map (fun q m₃ hq => ?_) fun m₃ hq => ?_).before
      hrun
    · exact hrec.answers hw hsite hm₁ hs₁ hq
    · exact hrec.ends hw hsite hm₁ hs₁ hq

end Machine

end PrologMachine
