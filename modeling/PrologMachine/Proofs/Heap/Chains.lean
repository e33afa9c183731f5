/-
  PrologMachine.Proofs.Heap.Chains ── **CHAINS OF VARIABLES NEVER CLOSE.**

  A variable may be bound to a variable.  If no chain of such links comes back to where it began, it
  stays so: unification binds a variable only at the end of its chain and only to the end of another
  one, and taking a binding back takes a link away.  Structures do not matter; they may contain
  themselves.

  So the end of a chain is never a bound variable, and the check of `Unifier.bind` for one is never met.

    * `Heap.Loopless`, `Heap.loopless_iff`: no chain closes exactly when links go down in some rank.
    * `Unifier.strict`: a unification that gives no result on a chain without an end and when it would
      bind a bound variable.
    * `Unifier.strict_eq`: where no chain closes, that does not happen.
    * `Heap.Turn`: what may happen to the variables of a heap.
    * `Heap.loopless_run`: chains stay open along any sequence of turns.
-/
import PrologMachine.Heap.Binding
import PrologMachine.Proofs.Heap.Descent

namespace PrologMachine

namespace Heap

variable {h h' : Heap} {v w : VarId} {rank : VarId → Nat}

/-! ## §1. Chains that do not close. -/

/-- The first variable is bound to the second one. -/
def Links (h : Heap) (v w : VarId) : Prop := h.binding? v = some (.var w)

/-- No chain of variables bound to variables comes back to where it began. -/
def Loopless (h : Heap) : Prop := ∀ v, ¬ Relation.TransGen h.Links v v

/-- Along a chain ranks go down. -/
theorem Descends.lt_of_chain (hr : h.Descends rank) (hvw : Relation.TransGen h.Links v w) :
    rank w < rank v := by
  induction hvw with
  | single hlink => exact hr _ _ hlink
  | tail _ hlink ih => exact Nat.lt_trans (hr _ _ hlink) ih

theorem Descends.loopless (hr : h.Descends rank) : h.Loopless :=
  fun _ hv => Nat.lt_irrefl _ (hr.lt_of_chain hv)

/-- If no chain closes, a variable can be ranked by the number of bound variables on its chain. -/
theorem Loopless.exists_descends (ha : h.Loopless) : ∃ rank, h.Descends rank := by
  classical
  let ahead (v : VarId) : Finset Nat := (Finset.range h.vars.size).filter
    (fun u => h.isBound u ∧ Relation.ReflTransGen h.Links v u)
  refine ⟨fun v => (ahead v).card, fun v w hlink => Finset.card_lt_card ⟨fun u hu => ?_, ?_⟩⟩
  · simp only [ahead, Finset.mem_filter] at hu ⊢
    exact ⟨hu.1, hu.2.1, .head hlink hu.2.2⟩
  · intro hsub
    have hself : v ∈ ahead v := Finset.mem_filter.2
      ⟨Finset.mem_range.2 (lt_size_of_binding? hlink), by simp [isBound, hlink], .refl⟩
    exact ha v (.head' hlink (Finset.mem_filter.1 (hsub hself)).2.2)

theorem loopless_iff : h.Loopless ↔ ∃ rank, h.Descends rank :=
  ⟨Loopless.exists_descends, fun ⟨_, hr⟩ => hr.loopless⟩

end Heap

/-! ## §2. A unification that minds bound variables. -/

namespace Unifier

variable {depth n : Nat} {a b t : Value} {u u' : Unifier} {v : VarId} {ok : Bool} {x y : StructId}
  {seen : SeenPairs} {rank : VarId → Nat}

/-- The variable that two values, at the ends of their chains, would have bound is bound already. -/
def rebinds (h : Heap) (a b : Value) : Bool :=
  !a.same b && match a, b with
    | .var v, _ => h.isBound v
    | _, .var v => h.isBound v
    | _, _ => false

/-- Unification that gives no result on a chain without an end and where it would have to bind a
    variable that is bound. -/
def strict : (n depth : Nat) → Value → Value → Unifier → Option (Bool × Unifier)
  | 0, _, _, _, u => some (false, u)
  | n + 1, depth, a, b, u =>
    match u.heap.follow? (u.heap.vars.size + 2) a, u.heap.follow? (u.heap.vars.size + 2) b with
    | some a, some b =>
      if rebinds u.heap a b then none
      else u.proceed? (strict n (depth + 1)) (unifying depth a b u)
    | _, _ => none

/-- The end of a chain is no bound variable. -/
theorem rebinds_deref (hr : u.heap.Descends rank) :
    rebinds u.heap (u.heap.deref a) (u.heap.deref b) = false := by
  have hfree {t : Value} {v : VarId} (ht : u.heap.deref t = .var v) : u.heap.isBound v = false := by
    simp [Heap.isBound, hr.binding?_of_deref ht]
  unfold rebinds
  rw [Bool.and_eq_false_iff]
  right
  split
  · next v hv => exact hfree hv
  · next v hv _ => exact hfree hv
  · rfl

/-- Binding the end of a chain to another end closes no chain. -/
theorem bind_loopless (hr : u.heap.Descends rank) (hv : u.heap.binding? v = none) (hne : t ≠ .var v)
    (hend : u.heap.deref t = t) : (u.bind v t).2.heap.Loopless := by
  have hfree : u.heap.isBound v = false := by simp [Heap.isBound, hv]
  simp only [bind, hfree, Bool.false_eq_true, if_false]
  exact Heap.loopless_iff.2 (hr.set hv hne hend)

/-- A pair that is settled closes no chain. -/
theorem unifying_settles_loopless (hr : u.heap.Descends rank)
    (hvisit : unifying depth (u.heap.deref a) (u.heap.deref b) u = .settles ok u') :
    u'.heap.Loopless := by
  unfold unifying at hvisit
  split at hvisit
  · cases hvisit
    exact hr.loopless
  next hsame =>
  split at hvisit
  · next v hv =>
    cases hvisit
    refine bind_loopless hr (hr.binding?_of_deref hv) (fun hb => ?_) (hr.deref_deref b)
    rw [hv, hb, Value.same_refl] at hsame
    exact hsame rfl
  · next v hv hne =>
    cases hvisit
    exact bind_loopless hr (hr.binding?_of_deref hv) (hne v) (hr.deref_deref a)
  · rw [meeting_settles hvisit]
    exact hr.loopless
  · cases hvisit
    exact hr.loopless

/-- At any depth, two unifications have the same results where no chain closes, and close none. -/
def Strictly (call? : Value → Value → Unifier → Option (Bool × Unifier))
    (call : Value → Value → Unifier → Bool × Unifier) : Prop :=
  ∀ (a b : Value) (u : Unifier), u.heap.Loopless →
    call? a b u = some (call a b u) ∧ (call a b u).2.heap.Loopless

/-- Then so it is with lists of values. -/
theorem Strictly.pairwise {call? : Value → Value → Unifier → Option (Bool × Unifier)}
    {call : Value → Value → Unifier → Bool × Unifier} (h : Strictly call? call) :
    ∀ (as bs : List Value) (u : Unifier), u.heap.Loopless →
      pairwise? call? as bs u = some (pairwise call as bs u) ∧
        (pairwise call as bs u).2.heap.Loopless := by
  intro as
  induction as with
  | nil => intro bs u ha; exact ⟨rfl, ha⟩
  | cons a as ih =>
    intro bs u ha
    cases bs with
    | nil => exact ⟨rfl, ha⟩
    | cons b bs =>
      obtain ⟨hfirst, ha'⟩ := h a b u ha
      rw [pairwise_cons, pairwise?, hfirst]
      generalize call a b u = first at ha' ⊢
      obtain ⟨_ | _, u₁⟩ := first
      · exact ⟨rfl, ha'⟩
      · exact ih bs u₁ ha'

/-- **Where no chain closes, unification comes to the end of every chain and never finds a bound variable
    to bind**, and no chain closes afterwards, whatever the outcome. -/
theorem strict_eq (n : Nat) : ∀ depth, Strictly (strict n depth) (unify n depth) := by
  induction n with
  | zero => intro depth a b u ha; exact ⟨rfl, ha⟩
  | succ n ih =>
    intro depth a b u ha
    obtain ⟨rank, hr⟩ := ha.exists_descends
    rw [strict, hr.follow? a, hr.follow? b, unify_succ_eq]
    simp only [rebinds_deref hr, Bool.false_eq_true, if_false]
    cases hvisit : unifying depth (u.heap.deref a) (u.heap.deref b) u with
    | settles ok u' => exact ⟨rfl, unifying_settles_loopless hr hvisit⟩
    | enters x y seen => exact (ih (depth + 1)).pairwise _ _ { u with seen } ha

end Unifier

/-! ## §3. Any sequence of turns. -/

namespace Heap

variable {h h' : Heap} {v w : VarId} {a b t : Value}

/-- What may happen to the variables of a heap. -/
inductive Turn (h : Heap) : Heap → Prop where
  /-- Two values are unified; the bindings made stay, also when it fails. -/
  | unify (a b : Value) : Turn h (h.unify a b).2.heap
  /-- A bound variable is unbound. -/
  | unbind {v : VarId} {h' : Heap} (hv : h.unbind? v = .ok h') : Turn h h'
  /-- Cells are made and structures are changed; no variable is bound or unbound. -/
  | build {h' : Heap} (hb : ∀ v, h'.binding? v = h.binding? v) : Turn h h'

/-- **A turn closes no chain.** -/
theorem Turn.loopless (hturn : Turn h h') (ha : h.Loopless) : h'.Loopless := by
  cases hturn with
  | unify a b => exact (Unifier.strict_eq h.walkBound 0 a b ⟨h, [], []⟩ ha).2
  | @unbind v _ hv =>
    obtain ⟨rank, hr⟩ := ha.exists_descends
    unfold unbind? at hv
    split at hv
    · cases hv
      exact (hr.reset v).loopless
    · cases hv
  | build hb =>
    obtain ⟨rank, hr⟩ := ha.exists_descends
    have hr' : h'.Descends rank := fun v w hlink => hr v w (by rwa [← hb v])
    exact hr'.loopless

/-- **Chains never close.**  From a heap in which no chain of variables closes, along any sequence of
    unifications and unbindings, none ever does.  All along, following a value comes to an end, which is
    no bound variable, and a unification never finds a bound variable to bind. -/
theorem loopless_run (ha : h.Loopless) (hrun : Relation.ReflTransGen Turn h h') :
    h'.Loopless ∧
      (∀ t, h'.follow? (h'.vars.size + 2) t = some (h'.deref t) ∧
        ∀ v, h'.deref t = .var v → h'.isBound v = false) ∧
      ∀ a b, Unifier.strict h'.walkBound 0 a b ⟨h', [], []⟩ = some (h'.unify a b) := by
  have ha' : h'.Loopless := by
    induction hrun with
    | refl => exact ha
    | tail _ hturn ih => exact hturn.loopless ih
  obtain ⟨rank, hr⟩ := ha'.exists_descends
  refine ⟨ha', fun t => ⟨hr.follow? t, fun v hv => ?_⟩, fun a b => ?_⟩
  · simp [isBound, hr.binding?_of_deref hv]
  · exact (Unifier.strict_eq h'.walkBound 0 a b ⟨h', [], []⟩ ha').1

/-- The variables `X`, `Y` and `Z`, with `X` bound to `Y`, and the structure `f(X)`. -/
def chained : Heap where
  vars := #[⟨"X", 1, some (.var 1)⟩, ⟨"Y", 2, none⟩, ⟨"Z", 3, none⟩]
  structs := #[⟨"f", [.var 0], .none⟩]

/-- Unifying `Z` with `X` binds `Z` to `Y`, and unifying `Y` with `f(X)` makes a structure that contains
    itself; then `X` is unbound. -/
theorem loopless_run_chained :
    chained.Loopless ∧ ∃ h₁ h₂ h₃, (chained.unify (.var 2) (.var 0)).2.heap = h₁ ∧
      (h₁.unify (.var 1) (.struct 0)).2.heap = h₂ ∧ h₂.unbind? 0 = .ok h₃ ∧
      Relation.ReflTransGen Turn chained h₃ ∧ h₃.Loopless ∧
      (∀ t, h₃.follow? (h₃.vars.size + 2) t = some (h₃.deref t) ∧
        ∀ v, h₃.deref t = .var v → h₃.isBound v = false) ∧
      ∀ a b, Unifier.strict h₃.walkBound 0 a b ⟨h₃, [], []⟩ = some (h₃.unify a b) := by
  have hrank : chained.Descends (fun v => 3 - v) := by
    intro v w hv
    rcases v with _ | _ | _ | v <;> simp [binding?, varCell, chained] at hv
    subst hv
    decide
  obtain ⟨h₃, hunbind⟩ : ∃ h₃, ((chained.unify (.var 2) (.var 0)).2.heap.unify (.var 1)
      (.struct 0)).2.heap.unbind? 0 = .ok h₃ := ⟨_, rfl⟩
  have hrun : Relation.ReflTransGen Turn chained h₃ :=
    ((Relation.ReflTransGen.single (.unify (.var 2) (.var 0))).tail
      (.unify (.var 1) (.struct 0))).tail (.unbind hunbind)
  exact ⟨hrank.loopless, _, _, h₃, rfl, rfl, hunbind, hrun, loopless_run hrank.loopless hrun⟩

end Heap

end PrologMachine
