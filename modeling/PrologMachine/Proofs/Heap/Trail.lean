/-
  PrologMachine.Proofs.Heap.Trail ── **THE TRAIL OF A UNIFICATION.**

  A unification reports the variables that it binds, newest first, also when it fails in the middle of
  two terms.  The report is exact: whoever unbinds the reported variables in this order finds each of
  them bound and gets the very heap back that the unification started with.

    * `Heap.Records`: a heap that arose from another by bindings, one after another.
    * `Unifier.unify_trails`: every unification records its bindings, whatever its outcome.
    * `Heap.Records.resetAll`, `Heap.Records.unbindAll`: the way back.
    * `Heap.unify_trail` puts this together, with what it means for `Heap.unifiable`.
-/
import PrologMachine.Heap.Binding
import PrologMachine.Proofs.Heap.Walk

namespace PrologMachine

namespace Heap

variable {h h' h'' : Heap} {vs ws : List VarId} {v w : VarId} {t : Value}

/-! ## §1. One binding and its way back. -/

/-- A binding changes one cell only. -/
theorem varCell_set_of_ne (hw : w ≠ v) : (h.set v t).varCell w = h.varCell w := by
  simp [set, varCell, Array.getElem?_modify, hw.symm]

/-- **Taking back a binding that was just made leaves no trace.** -/
theorem reset_set (hv : h.binding? v = none) : (h.set v t).reset v = h := by
  have hvars : ((h.set v t).reset v).vars = h.vars := by
    refine Array.ext (by simp) fun i hi hi' => ?_
    simp only [set, reset, Array.getElem_modify]
    by_cases hiv : v = i
    · -- The cell had no value before, so without one it is the old cell.
      subst hiv
      have hcell : (h.vars[v]).binding = none := by
        simpa [binding?, varCell, Array.getElem?_eq_getElem hi'] using hv
      simp [← hcell]
    · simp [hiv]
  have hrest : (h.set v t).reset v = { h with vars := ((h.set v t).reset v).vars } := rfl
  rw [hrest, hvars]

/-! ## §2. Bindings made one after another. -/

/-- The second heap arose from the first by binding the variables of the list, the newest first in the
    list, each of which was unbound until then. -/
inductive Records (h : Heap) : Heap → List VarId → Prop where
  /-- Nothing was bound. -/
  | nothing : Records h h []
  /-- One more variable was bound. -/
  | bound {h' : Heap} {vs : List VarId} {v : VarId} {t : Value} (hvs : Records h h' vs)
    (hfree : h'.binding? v = none) : Records h (h'.set v t) (v :: vs)

/-- Unbind variables one after another; the first that is not bound is refused. -/
def unbindAll (h : Heap) (vs : List VarId) : Except RunError Heap := vs.foldlM unbind? h

namespace Records

/-- Newer bindings come first. -/
protected theorem trans (hvs : h.Records h' vs) (hws : h'.Records h'' ws) :
    h.Records h'' (ws ++ vs) := by
  induction hws with
  | nothing => exact hvs
  | bound _ hfree ih => exact .bound ih hfree

/-- Bindings make no variable. -/
theorem size (hr : h.Records h' vs) : h'.vars.size = h.vars.size := by
  induction hr with
  | nothing => rfl
  | bound _ _ ih => rw [vars_size_set, ih]

/-- Only variables are changed. -/
theorem rest (hr : h.Records h' vs) : { h' with vars := h.vars } = h := by
  induction hr with
  | nothing => rfl
  | bound _ _ ih => exact ih

/-- Other variables are as they were. -/
theorem varCell (hr : h.Records h' vs) (hv : v ∉ vs) : h'.varCell v = h.varCell v := by
  induction hr with
  | nothing => rfl
  | bound _ _ ih =>
    rw [List.mem_cons, not_or] at hv
    rw [varCell_set_of_ne hv.1, ih hv.2]

/-- **Without a check, the way back ends in the old heap.** -/
theorem resetAll (hr : h.Records h' vs) : h'.resetAll vs = h := by
  induction hr with
  | nothing => rfl
  | @bound h' vs v t _ hfree ih =>
    show ((h'.set v t).reset v).resetAll vs = h
    rw [reset_set hfree, ih]

/-- **No check on the way back refuses a variable.** -/
theorem unbindAll (hr : h.Records h' vs) (hlt : ∀ v ∈ vs, v < h.vars.size) :
    h'.unbindAll vs = .ok h := by
  induction hr with
  | nothing => rfl
  | @bound h' vs v t hvs hfree ih =>
    have hv : v < h'.vars.size := hvs.size ▸ hlt v List.mem_cons_self
    have hbound : (h'.set v t).isBound v = true := by
      rw [isBound, binding?_set hv, if_pos rfl]
      rfl
    have hstep : (h'.set v t).unbind? v = .ok h' := by rw [unbind?, if_pos hbound, reset_set hfree]
    show ((h'.set v t).unbind? v >>= fun h => h.unbindAll vs) = .ok h
    rw [hstep]
    exact ih fun w hw => hlt w (List.mem_cons_of_mem v hw)

end Records

end Heap

/-! ## §3. A unification records its bindings. -/

namespace Unifier

variable {u u' u'' : Unifier}

/-- From one state of a unification to a later one, the newly reported variables record the bindings. -/
def Trails (u u' : Unifier) : Prop :=
  ∃ vs, u'.bound = vs ++ u.bound ∧ u.heap.Records u'.heap vs

protected theorem Trails.refl (u : Unifier) : u.Trails u := ⟨[], rfl, .nothing⟩

protected theorem Trails.trans (h₁ : u.Trails u') (h₂ : u'.Trails u'') : u.Trails u'' := by
  obtain ⟨vs, hvs, hr⟩ := h₁
  obtain ⟨ws, hws, hr'⟩ := h₂
  exact ⟨ws ++ vs, by rw [hws, hvs, List.append_assoc], hr.trans hr'⟩

theorem bind_trails (u : Unifier) (v : VarId) (t : Value) : u.Trails (u.bind v t).2 := by
  by_cases hv : u.heap.isBound v = true
  · rw [bind, if_pos hv]
    exact .refl u
  · rw [bind, if_neg hv]
    exact ⟨[v], rfl, .bound .nothing (by simpa [Heap.isBound] using hv)⟩

theorem pairwise_trails {f : Value → Value → Unifier → Bool × Unifier}
    (hf : ∀ a b (u : Unifier), u.Trails (f a b u).2) :
    ∀ (as bs : List Value) (u : Unifier), u.Trails (pairwise f as bs u).2 := by
  intro as
  induction as with
  | nil => intro bs u; exact .refl u
  | cons a as ih =>
    intro bs u
    cases bs with
    | nil => exact .refl u
    | cons b bs =>
      rw [pairwise_cons]
      split
      · exact (hf a b u).trans (ih bs _)
      · exact hf a b u

/-- **Every unification records its bindings, whatever its outcome.** -/
theorem unify_trails (n : Nat) : ∀ (depth : Nat) (a b : Value) (u : Unifier),
    u.Trails (unify n depth a b u).2 := by
  induction n with
  | zero => intro depth a b u; exact .refl u
  | succ n ih =>
    intro depth a b u
    rw [unify_succ]
    split
    · exact .refl u
    split
    · exact bind_trails u _ _
    · exact bind_trails u _ _
    · split
      · exact .refl u
      split
      · exact .refl u
      · next seen _ =>
        -- Remembering a pair binds nothing.
        exact pairwise_trails (ih (depth + 1)) _ _ { u with seen }
    · exact .refl u

end Unifier

namespace Heap

variable {h : Heap} {a b : Value}

/-! ## §4. Exact trails. -/

/-- A unification records its bindings. -/
theorem unify_records (h : Heap) (a b : Value) :
    h.Records (h.unify a b).2.heap (h.unify a b).2.bound := by
  obtain ⟨vs, hvs, hr⟩ := Unifier.unify_trails h.walkBound 0 a b ⟨h, [], []⟩
  have hbound : (h.unify a b).2.bound = vs := by simpa [unify] using hvs
  rw [hbound]
  exact hr

/-- The variables, newest first, are an exact account of the difference between two heaps. -/
structure Trail (h h' : Heap) (vs : List VarId) : Prop where
  /-- No variable is listed twice. -/
  nodup : vs.Nodup
  /-- All were unbound. -/
  before : ∀ v ∈ vs, h.isBound v = false
  /-- All are bound. -/
  after : ∀ v ∈ vs, h'.isBound v = true
  /-- There are as many variables as before. -/
  size : h'.vars.size = h.vars.size
  /-- The others are what they were. -/
  others : ∀ v, v ∉ vs → h'.varCell v = h.varCell v
  /-- What is no variable is what it was. -/
  rest : { h' with vars := h.vars } = h
  /-- Unbound in this order, each of them is bound, and the old heap comes back. -/
  undone : h'.unbindAll vs = .ok h

/-- **A unification leaves an exact trail**, whether it succeeds or fails.  So trying whether two terms
    unify has the outcome of unifying them and leaves the heap as it is. -/
theorem unify_trail (hg : h.Good) (ha : h.Holds a) (hb : h.Holds b) :
    h.Trail (h.unify a b).2.heap (h.unify a b).2.bound ∧
      h.unifiable a b = ((h.unify a b).1, h) := by
  have hbinds := unify_binds hg ha hb
  have hrecords := unify_records h a b
  refine ⟨⟨hbinds.nodup, fun v hv => ?_, hbinds.after, hrecords.size, fun v => hrecords.varCell,
    hrecords.rest, hrecords.unbindAll fun v hv => ?_⟩, ?_⟩
  · rw [isBound, hbinds.before v hv]
    rfl
  · obtain ⟨t, ht⟩ := Option.isSome_iff_exists.1 (hbinds.after v hv)
    exact hrecords.size ▸ lt_size_of_binding? ht
  · show ((h.unify a b).1, (h.unify a b).2.heap.resetAll (h.unify a b).2.bound) = _
    rw [hrecords.resetAll]

/-- The terms `f(X, g(Y), a)` and `f(b, g(X), c)`. -/
def parting : Heap where
  vars := #[⟨"X", 1, none⟩, ⟨"Y", 2, none⟩]
  structs := #[⟨"f", [.var 0, .struct 1, .const ⟨.atom "a", .code 0 0⟩], .none⟩,
    ⟨"g", [.var 1], .none⟩,
    ⟨"f", [.const ⟨.atom "b", .code 0 1⟩, .struct 3, .const ⟨.atom "c", .code 0 2⟩], .none⟩,
    ⟨"g", [.var 0], .none⟩]
  constants := 0
  numbered := 2

/-- The heap of the example is good. -/
theorem parting_good : parting.Good where
  bindings v t hv := by rcases v with _ | _ | v <;> simp [binding?, varCell, parting] at hv
  args s t ht := by
    rcases s with _ | _ | _ | _ | s <;> simp [structCell, parting] at ht
    · rcases ht with rfl | rfl | rfl <;> simp [parting]
    · obtain rfl := ht
      simp [parting]
    · rcases ht with rfl | rfl | rfl <;> simp [parting]
    · obtain rfl := ht
      simp [parting]
  acyclic := ⟨fun _ => 0, fun v w hv => by
    rcases v with _ | _ | v <;> simp [binding?, varCell, parting] at hv⟩

/-- The walk binds `X`, follows this binding to bind `Y`, and fails at the last arguments; both
    variables are on the trail, and unbinding them gives the terms back. -/
theorem unify_trail_parting :
    ((parting.unify (.struct 0) (.struct 2)).1 = false ∧
      (parting.unify (.struct 0) (.struct 2)).2.bound = [1, 0]) ∧
    parting.Trail (parting.unify (.struct 0) (.struct 2)).2.heap
        (parting.unify (.struct 0) (.struct 2)).2.bound ∧
      parting.unifiable (.struct 0) (.struct 2) =
        ((parting.unify (.struct 0) (.struct 2)).1, parting) :=
  ⟨by decide +kernel, unify_trail parting_good (by simp [parting]) (by simp [parting])⟩

end Heap

end PrologMachine
