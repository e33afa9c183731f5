/-
  PrologMachine.Proofs.Heap.MostGeneral ── **UNIFICATION GIVES A MOST GENERAL UNIFIER.**

  Terms stand for possibly infinite trees, and a valuation that respects a heap solves the equations
  that its bindings are.  Unification keeps exactly the solutions under which its two terms are one tree.

    * `Walk.respects`: a solution that makes all pairs equal is kept by a walk, and the walk succeeds.
    * `Walk.agrees`: a solution of the bindings after a successful walk makes all pairs agree down to any
      level.  A pair of structures that was passed over because it was met before is a pair that the
      walk entered, so agreement of the remembered pairs down to a level gives agreement one level
      further.
    * `Heap.unify_most_general` says both of `Heap.unify`.
-/
import PrologMachine.Proofs.Heap.Trees

namespace PrologMachine

namespace Heap

variable {h g : Heap} {K : Set Constant} {P : Value → Prop} {ρ : Valuation} {a b t : Value}
  {x y : StructId} {k : Nat} {v : VarId}

/-! ## §1. Heaps on which terms are trees. -/

/-- The heap is in good shape, its constants are among `K`, and every functor has an argument. -/
structure Plain (K : Set Constant) (h : Heap) : Prop where
  /-- Chains end, and all cells exist. -/
  good : h.Good
  /-- The constants. -/
  constants : h.AllOver K
  /-- No functor is without arguments. -/
  args : ∀ s < h.structs.size, (h.structCell s).args ≠ []

/-- The heap is in good shape, and a part `P` of its values is plain: nothing leads out of it, its
    constants are among `K`, and every functor in it has an argument. -/
structure PlainOn (K : Set Constant) (P : Value → Prop) (h : Heap) : Prop where
  /-- Chains end, and all cells exist. -/
  good : h.Good
  /-- The constants. -/
  constants : ∀ c, P (.const c) → c ∈ K
  /-- Bindings stay in the part. -/
  bindings : ∀ v t, P (.var v) → h.binding? v = some t → P t
  /-- Arguments stay in the part. -/
  args : ∀ s, P (.struct s) → ∀ t ∈ (h.structCell s).args, P t
  /-- No functor is without arguments. -/
  nonempty : ∀ s < h.structs.size, P (.struct s) → (h.structCell s).args ≠ []

/-- The values of a plain heap are a plain part of it. -/
theorem Plain.on (hp : h.Plain K) : h.PlainOn K (Over K) where
  good := hp.good
  constants _ hc := hc
  bindings v t _ hv := hp.constants.bindings v t hv
  args s _ t ht := hp.constants.args s t ht
  nonempty s hs _ := hp.args s hs

/-- A value of the heap that belongs to a part. -/
def Inside (P : Value → Prop) (h : Heap) (t : Value) : Prop := h.Holds t ∧ P t

namespace PlainOn

/-- What is allowed has constants of the given ones only. -/
theorem over_of (hp : h.PlainOn K P) (ht : P t) : Over K t := by
  cases t with
  | const c => exact hp.constants c ht
  | _ => trivial

/-- The end of a chain is allowed. -/
theorem deref (hp : h.PlainOn K P) (ht : P t) : P (h.deref t) := by
  induction t using hp.good.chain_induction with
  | free v hv => rwa [deref_free hv]
  | bound v t hv ih => rw [deref_bound hp.good hv]; exact ih (hp.bindings v t ht hv)
  | const c => exact ht
  | struct s => exact ht
  | absent => exact ht

/-- The end of a chain is inside. -/
theorem inside_deref (hp : h.PlainOn K P) (ht : h.Inside P t) : h.Inside P (h.deref t) :=
  ⟨hp.good.holds_deref ht.1, hp.deref ht.2⟩

/-- The arguments of a structure are inside. -/
theorem inside_args (hp : h.PlainOn K P) (hs : P (.struct x)) :
    ∀ t ∈ (h.structCell x).args, h.Inside P t :=
  fun t ht => ⟨hp.good.args x t ht, hp.args x hs t ht⟩

/-- Binding an unbound variable to the end of another chain. -/
theorem set (hp : h.PlainOn K P) (hfree : h.binding? v = none) (hv : h.Holds (.var v))
    (ht : h.Inside P t) (hne : t ≠ .var v) (hend : h.deref t = t) : (h.set v t).PlainOn K P where
  good := hp.good.set hfree hv ht.1 hne hend
  constants := hp.constants
  bindings w t' hw hbound := by
    rw [binding?_set hv] at hbound
    split at hbound
    · obtain rfl := Option.some.inj hbound
      exact ht.2
    · exact hp.bindings w t' hw hbound
  args := hp.args
  nonempty := hp.nonempty

end PlainOn

/-- One cell is one tree. -/
theorem tree_eq_of_same (hK : EqualOn K) (ha : Over K a) (hb : Over K b) (hab : a.same b = true) :
    g.tree K ρ a = g.tree K ρ b := by
  cases a with
  | var v => cases b <;> simp_all [Value.same]
  | struct s => cases b <;> simp_all [Value.same]
  | absent => cases b <;> simp_all [Value.same]
  | const c =>
    cases b with
    | const d =>
      have heq : c.equal d = true := by
        rw [Constant.equal, show c.same d = true from hab, Bool.true_or]
      refine tree_eq_iff.2 fun p => ?_
      cases p with
      | nil => rw [labelAt_const_nil, labelAt_const_nil, (leafOf_eq_iff hK ha hb).2 heq]
      | cons i p => rfl
    | _ => simp [Value.same] at hab

/-- Without functors that have no arguments, values that are not looked into are equal exactly when
    their trees are. -/
theorem sameLeaf_iff (hK : EqualOn K) (hp : h.PlainOn K P) (ha : h.Inside P a)
    (hb : h.Inside P b) (hleafy : Leafy a b) : h.sameLeaf a b = true ↔ h.tree K ρ a = h.tree K ρ b := by
  have hroot : h.tree K ρ a = h.tree K ρ b → h.labelAt K ρ [] a = h.labelAt K ρ [] b :=
    fun heq => tree_eq_iff.1 heq []
  -- By cases: constants are compared as tokens, and a structure with arguments is no constant.
  cases a with
  | var v => exact hleafy.elim
  | absent => exact ha.1.elim
  | const c =>
    cases b with
    | var w => exact hleafy.elim
    | absent => exact hb.1.elim
    | const d =>
      show c.equal d = true ↔ _
      rw [← leafOf_eq_iff hK (hp.constants c ha.2) (hp.constants d hb.2)]
      refine ⟨fun heq => tree_eq_iff.2 fun p => ?_, fun heq => by simpa using hroot heq⟩
      cases p with
      | nil => rw [labelAt_const_nil, labelAt_const_nil, heq]
      | cons i p => rfl
    | struct y =>
      have hargs := hp.nonempty y hb.1 hb.2
      refine ⟨fun heq => ?_, fun heq => by simpa [leafOf] using hroot heq⟩
      simp [sameLeaf, hargs] at heq
  | struct x =>
    cases b with
    | var w => exact hleafy.elim
    | absent => exact hb.1.elim
    | struct y => exact hleafy.elim
    | const d =>
      have hargs := hp.nonempty x ha.1 ha.2
      refine ⟨fun heq => ?_, fun heq => by simpa [leafOf] using hroot heq⟩
      simp [sameLeaf, hargs] at heq

/-- Structures are one tree exactly when their functors and their arguments are. -/
theorem tree_struct_eq (heq : g.tree K ρ (.struct x) = g.tree K ρ (.struct y)) :
    (g.structCell x).name = (g.structCell y).name ∧
      (g.structCell x).args.length = (g.structCell y).args.length ∧
      ∀ q ∈ (g.structCell x).args.zip (g.structCell y).args, g.tree K ρ q.1 = g.tree K ρ q.2 := by
  have hlabel := tree_eq_iff.1 heq
  have hroot : (g.structCell x).name = (g.structCell y).name ∧
      (g.structCell x).args.length = (g.structCell y).args.length := by simpa using hlabel []
  refine ⟨hroot.1, hroot.2, fun q hq => tree_eq_iff.2 fun p => ?_⟩
  obtain ⟨i, hi⟩ := List.getElem?_of_mem hq
  obtain ⟨hx, hy⟩ := List.getElem?_zip_eq_some.1 hi
  have hat := hlabel (i :: p)
  rwa [labelAt_struct_cons, labelAt_struct_cons, hx, hy] at hat

/-! ## §2. Agreement down to a level. -/

/-- The trees of two values have the same labels above level `k`. -/
def Agrees (g : Heap) (K : Set Constant) (ρ : Valuation) (k : Nat) (a b : Value) : Prop :=
  ∀ p : List Nat, p.length < k → g.labelAt K ρ p a = g.labelAt K ρ p b

/-- The same trees agree down to every level. -/
theorem Agrees.of_tree (heq : g.tree K ρ a = g.tree K ρ b) : g.Agrees K ρ k a b :=
  fun p _ => tree_eq_iff.1 heq p

/-- What agrees down to every level is the same tree. -/
theorem Agrees.tree (h : ∀ k, g.Agrees K ρ k a b) : g.tree K ρ a = g.tree K ρ b :=
  tree_eq_iff.2 fun p => h (p.length + 1) p (Nat.lt_succ_self _)

/-- What agrees down to a level does so above it. -/
theorem Agrees.pred (h : g.Agrees K ρ (k + 1) a b) : g.Agrees K ρ k a b :=
  fun p hp => h p (Nat.lt_succ_of_lt hp)

/-- Structures of one functor agree one level further than their arguments. -/
theorem Agrees.struct (hname : (g.structCell x).name = (g.structCell y).name)
    (hlength : (g.structCell x).args.length = (g.structCell y).args.length)
    (hargs : ∀ q ∈ (g.structCell x).args.zip (g.structCell y).args, g.Agrees K ρ k q.1 q.2) :
    g.Agrees K ρ (k + 1) (.struct x) (.struct y) := by
  intro p hp
  cases p with
  | nil => rw [labelAt_struct_nil, labelAt_struct_nil, hname, hlength]
  | cons i p =>
    rw [labelAt_struct_cons, labelAt_struct_cons]
    by_cases hi : i < (g.structCell x).args.length
    · have hi' : i < (g.structCell y).args.length := hlength ▸ hi
      rw [List.getElem?_eq_getElem hi, List.getElem?_eq_getElem hi']
      exact hargs (_, _) (List.mem_of_getElem? (List.getElem?_zip_eq_some.2
        ⟨List.getElem?_eq_getElem hi, List.getElem?_eq_getElem hi'⟩)) p (Nat.lt_of_succ_lt_succ hp)
    · rw [List.getElem?_eq_none (Nat.le_of_not_lt hi),
        List.getElem?_eq_none (hlength ▸ Nat.le_of_not_lt hi)]

end Heap

namespace Unifier

open Heap (EqualOn)

variable {depth k : Nat} {a b t : Value} {as bs : List Value} {u u' u₁ : Unifier} {ok : Bool}
  {v : VarId} {x y : StructId} {seen : SeenPairs} {K : Set Constant} {P : Value → Prop}
  {ρ : Valuation} {g : Heap}

/-! ## §3. The state along a walk. -/

/-- The state from which a walk over two lists starts. -/
structure Ready (K : Set Constant) (P : Value → Prop) (as bs : List Value) (u : Unifier) :
    Prop where
  /-- The heap. -/
  plain : u.heap.PlainOn K P
  /-- The values on the left. -/
  left : ∀ t ∈ as, u.heap.Inside P t
  /-- The values on the right. -/
  right : ∀ t ∈ bs, u.heap.Inside P t

namespace Ready

/-- The first left value is inside. -/
theorem fst (hr : Ready K P (a :: as) (b :: bs) u) : u.heap.Inside P a := hr.left a (by simp)

/-- The first right value is inside. -/
theorem snd (hr : Ready K P (a :: as) (b :: bs) u) : u.heap.Inside P b := hr.right b (by simp)

/-- Behind the first pair. -/
theorem rest (hr : Ready K P (a :: as) (b :: bs) u) (hext : u.Extends u₁) (hp : u₁.heap.PlainOn K P) :
    Ready K P as bs u₁ where
  plain := hp
  left t ht := ⟨hext.grows.holds (hr.left t (by simp [ht])).1, (hr.left t (by simp [ht])).2⟩
  right t ht := ⟨hext.grows.holds (hr.right t (by simp [ht])).1, (hr.right t (by simp [ht])).2⟩

/-- The cells at the ends of the chains of the first pair. -/
theorem fst_holds (hr : Ready K P (a :: as) (b :: bs) u) (hda : u.heap.deref a = t) : u.heap.Holds t :=
  hda ▸ hr.plain.good.holds_deref hr.fst.1

/-- What the right value ends in is in the heap. -/
theorem snd_holds (hr : Ready K P (a :: as) (b :: bs) u) (hdb : u.heap.deref b = t) : u.heap.Holds t :=
  hdb ▸ hr.plain.good.holds_deref hr.snd.1

/-- What the left value ends in is allowed. -/
theorem fst_inside (hr : Ready K P (a :: as) (b :: bs) u) (hda : u.heap.deref a = t) : P t :=
  hda ▸ hr.plain.deref hr.fst.2

theorem snd_inside (hr : Ready K P (a :: as) (b :: bs) u) (hdb : u.heap.deref b = t) : P t :=
  hdb ▸ hr.plain.deref hr.snd.2

/-- Inside a pair of structures. -/
theorem args (hr : Ready K P (a :: as) (b :: bs) u) (hda : u.heap.deref a = .struct x)
    (hdb : u.heap.deref b = .struct y) (seen : SeenPairs) :
    Ready K P (u.heap.structCell x).args (u.heap.structCell y).args { u with seen } :=
  ⟨hr.plain, hr.plain.inside_args (hr.fst_inside hda), hr.plain.inside_args (hr.snd_inside hdb)⟩

/-- A pair of structures is entered. -/
theorem enter (hr : Ready K P (a :: as) (b :: bs) u) (hda : u.heap.deref a = .struct x)
    (hdb : u.heap.deref b = .struct y) (hseen : u.seen.enter? depth x y = some seen) :
    u.Extends { u with seen } :=
  enter_extends hr.plain.good (hr.fst_holds hda) (hr.snd_holds hdb) hseen

end Ready

/-- A free variable is bound in the heap. -/
theorem bind_heap (hfree : u.heap.binding? v = none) : (u.bind v t).2.heap = u.heap.set v t := by
  simp [bind, Heap.isBound, hfree]

/-- What is known after the left variable was bound. -/
theorem Ready.bindLeft (hr : Ready K P (a :: as) (b :: bs) u)
    (hsame : (u.heap.deref a).same (u.heap.deref b) = false) (hv : u.heap.deref a = .var v) :
    u.Extends (u.bind v (u.heap.deref b)).2 ∧ Ready K P as bs (u.bind v (u.heap.deref b)).2 := by
  have hg := hr.plain.good
  have hext := extends_left hg hr.fst.1 hr.snd.1 hsame hv
  refine ⟨hext, hr.rest hext ?_⟩
  rw [bind_heap (hg.binding?_of_deref hv)]
  refine hr.plain.set (hg.binding?_of_deref hv) (hr.fst_holds hv)
    (hr.plain.inside_deref hr.snd) ?_ (hg.deref_deref b)
  intro heq
  rw [hv, heq, Value.same_refl] at hsame
  cases hsame

/-- What is known after the right variable was bound. -/
theorem Ready.bindRight (hr : Ready K P (a :: as) (b :: bs) u) (ha : ∀ w, u.heap.deref a ≠ .var w)
    (hv : u.heap.deref b = .var v) :
    u.Extends (u.bind v (u.heap.deref a)).2 ∧ Ready K P as bs (u.bind v (u.heap.deref a)).2 := by
  have hg := hr.plain.good
  have hext := extends_right hg hr.fst.1 hr.snd.1 ha hv
  refine ⟨hext, hr.rest hext ?_⟩
  rw [bind_heap (hg.binding?_of_deref hv)]
  exact hr.plain.set (hg.binding?_of_deref hv) (hr.snd_holds hv)
    (hr.plain.inside_deref hr.fst) (ha v) (hg.deref_deref a)

/-- A walk keeps the heap plain. -/
theorem Walk.plain (hw : Walk depth as bs u ok u') (hr : Ready K P as bs u) : u'.heap.PlainOn K P := by
  induction hw with
  | done => exact hr.plain
  | cell _ _ ih => exact ih (hr.rest (.refl hr.plain.good) hr.plain)
  | left hsame ha _ ih => exact ih (hr.bindLeft hsame ha).2
  | right ha hb _ ih => exact ih (hr.bindRight ha hb).2
  | leaf _ _ _ _ ih => exact ih (hr.rest (.refl hr.plain.good) hr.plain)
  | leafDiffers => exact hr.plain
  | structDiffers => exact hr.plain
  | met _ _ _ _ _ _ _ ih => exact ih (hr.rest (.refl hr.plain.good) hr.plain)
  | @enters _ _ _ _ _ _ _ _ _ x y seen ha hb _ _ _ hseen hargs _ ihargs ih =>
    have hin := hr.args ha hb seen
    have hext := (hr.enter ha hb hseen).trans
      (hargs.extends hin.plain.good (fun t ht => (hin.left t ht).1) (fun t ht => (hin.right t ht).1))
    exact ih (hr.rest hext (ihargs hin))
  | argsDiffer ha hb _ _ _ _ _ ihargs => exact ihargs (hr.args ha hb _)

/-- From the state before a pair of structures is entered to the one after its arguments. -/
theorem Ready.through (hr : Ready K P (a :: as) (b :: bs) u) (hda : u.heap.deref a = .struct x)
    (hdb : u.heap.deref b = .struct y) (hseen : u.seen.enter? depth x y = some seen)
    (hargs : Walk (depth + 1) (u.heap.structCell x).args (u.heap.structCell y).args
      { u with seen } ok u₁) : u.Extends u₁ ∧ Ready K P as bs u₁ := by
  have hin := hr.args hda hdb seen
  have hext := (hr.enter hda hdb hseen).trans
    (hargs.extends hin.plain.good (fun t ht => (hin.left t ht).1) (fun t ht => (hin.right t ht).1))
  exact ⟨hext, hr.rest hext (hargs.plain hin)⟩

/-- What a walk leaves of its start state. -/
theorem Ready.extends (hr : Ready K P as bs u) (hw : Walk depth as bs u ok u') : u.Extends u' :=
  hw.extends hr.plain.good (fun t ht => (hr.left t ht).1) (fun t ht => (hr.right t ht).1)

/-- Who respects the later bindings respects the earlier ones. -/
theorem Extends.respects (hext : u.Extends u') (hρ : u'.heap.Respects K ρ) :
    u.heap.Respects K ρ := by
  obtain ⟨_, _, hbinds⟩ := hext.grows.binds
  exact hρ.mono hbinds.structCell fun v t hv => hbinds.keeps hv

/-! ## §4. A walk keeps the solutions. -/

/-- Trees on the heap of the state and on a heap with the same structures. -/
theorem tree_end (hr : Ready K P as bs u) (hcells : ∀ s, u.heap.structCell s = g.structCell s)
    (hρ : u.heap.Respects K ρ) (t : Value) : g.tree K ρ (u.heap.deref t) = g.tree K ρ t := by
  rw [← Heap.tree_congr hcells, ← Heap.tree_congr hcells, Heap.tree_deref hr.plain.good hρ]

/-- **A valuation that respects the bindings and makes all pairs equal is kept, and the walk
    succeeds.** -/
theorem Walk.respects (hw : Walk depth as bs u ok u') (hK : EqualOn K) (hr : Ready K P as bs u)
    (hcells : ∀ s, u.heap.structCell s = g.structCell s) (hρ : u.heap.Respects K ρ)
    (heq : ∀ q ∈ as.zip bs, g.tree K ρ q.1 = g.tree K ρ q.2) :
    ok = true ∧ u'.heap.Respects K ρ := by
  -- The ends of the chains of the first pair are one tree, on the heap of the state too.
  have hends : ∀ {u : Unifier} {a b : Value} {as bs : List Value}, Ready K P (a :: as) (b :: bs) u →
      (∀ s, u.heap.structCell s = g.structCell s) → u.heap.Respects K ρ →
      (∀ q ∈ (a :: as).zip (b :: bs), g.tree K ρ q.1 = g.tree K ρ q.2) →
      u.heap.tree K ρ (u.heap.deref a) = u.heap.tree K ρ (u.heap.deref b) := by
    intro u a b as bs hr hcells hρ heq
    rw [Heap.tree_congr hcells, Heap.tree_congr hcells, tree_end hr hcells hρ, tree_end hr hcells hρ]
    exact heq (a, b) (by simp)
  induction hw with
  | done => exact ⟨rfl, hρ⟩
  | cell _ _ ih =>
    exact ih (hr.rest (.refl hr.plain.good) hr.plain) hcells hρ fun q hq => heq q (by simp [hq])
  | left hsame ha _ ih =>
    obtain ⟨hext, hr'⟩ := hr.bindLeft hsame ha
    refine ih hr' (fun s => (hext.grows.structCell s).trans (hcells s)) ?_
      fun q hq => heq q (by simp [hq])
    have hfirst := hends hr hcells hρ heq
    rw [ha, Heap.tree_var] at hfirst
    rw [bind_heap (hr.plain.good.binding?_of_deref ha)]
    exact hρ.set (hr.fst_holds ha) hfirst
  | right ha hb _ ih =>
    obtain ⟨hext, hr'⟩ := hr.bindRight ha hb
    refine ih hr' (fun s => (hext.grows.structCell s).trans (hcells s)) ?_
      fun q hq => heq q (by simp [hq])
    have hfirst := hends hr hcells hρ heq
    rw [hb, Heap.tree_var] at hfirst
    rw [bind_heap (hr.plain.good.binding?_of_deref hb)]
    exact hρ.set (hr.snd_holds hb) hfirst.symm
  | leaf _ _ _ _ ih =>
    exact ih (hr.rest (.refl hr.plain.good) hr.plain) hcells hρ fun q hq => heq q (by simp [hq])
  | leafDiffers _ hleafy hne =>
    have hsame := (Heap.sameLeaf_iff hK hr.plain (hr.plain.inside_deref hr.fst)
      (hr.plain.inside_deref hr.snd) hleafy).2 (hends hr hcells hρ heq)
    rw [hne] at hsame
    cases hsame
  | structDiffers ha hb _ hne =>
    have hfirst := hends hr hcells hρ heq
    rw [ha, hb] at hfirst
    obtain ⟨hname, hlength, -⟩ := Heap.tree_struct_eq hfirst
    exact (hne.elim (· hname) (· hlength)).elim
  | met _ _ _ _ _ _ _ ih =>
    exact ih (hr.rest (.refl hr.plain.good) hr.plain) hcells hρ fun q hq => heq q (by simp [hq])
  | enters ha hb _ _ _ hseen hargs _ ihargs ih =>
    have hfirst := hends hr hcells hρ heq
    rw [ha, hb, Heap.tree_congr hcells, Heap.tree_congr hcells] at hfirst
    obtain ⟨hext, hr'⟩ := hr.through ha hb hseen hargs
    obtain ⟨-, -, hpairs⟩ := Heap.tree_struct_eq hfirst
    rw [← hcells, ← hcells] at hpairs
    obtain ⟨-, hρ₁⟩ := ihargs (hr.args ha hb _) hcells hρ hpairs
    exact ih hr' (fun s => (hext.grows.structCell s).trans (hcells s)) hρ₁
      fun q hq => heq q (by simp [hq])
  | argsDiffer ha hb _ _ _ _ _ ihargs =>
    have hfirst := hends hr hcells hρ heq
    rw [ha, hb, Heap.tree_congr hcells, Heap.tree_congr hcells] at hfirst
    obtain ⟨-, -, hpairs⟩ := Heap.tree_struct_eq hfirst
    rw [← hcells, ← hcells] at hpairs
    exact ihargs (hr.args ha hb _) hcells hρ hpairs

/-! ## §5. The solutions after a walk make the pairs equal. -/

/-- **A valuation that respects the bindings after a successful walk makes the pairs agree as far as
    the remembered pairs do, and the pairs that were newly remembered one level further.** -/
theorem Walk.agrees (hw : Walk depth as bs u ok u') (hok : ok = true) (hK : EqualOn K)
    (hr : Ready K P as bs u) (hcells : ∀ s, u.heap.structCell s = g.structCell s)
    (hρ : u'.heap.Respects K ρ)
    (hseen : ∀ p ∈ u'.seen, g.Agrees K ρ k (.struct p.1) (.struct p.2)) :
    (∀ q ∈ as.zip bs, g.Agrees K ρ k q.1 q.2) ∧
      ∀ p ∈ u'.seen, p ∈ u.seen ∨ g.Agrees K ρ (k + 1) (.struct p.1) (.struct p.2) := by
  -- A first pair whose chains end in agreeing values agrees.
  have hfirst : ∀ {u : Unifier} {a b : Value} {as bs : List Value}, Ready K P (a :: as) (b :: bs) u →
      (∀ s, u.heap.structCell s = g.structCell s) → u.heap.Respects K ρ →
      g.Agrees K ρ k (u.heap.deref a) (u.heap.deref b) →
      (∀ q ∈ as.zip bs, g.Agrees K ρ k q.1 q.2) →
      ∀ q ∈ (a :: as).zip (b :: bs), g.Agrees K ρ k q.1 q.2 := by
    intro u a b as bs hr hcells hρ hends hrest q hq
    rcases List.mem_cons.1 hq with rfl | hq
    · intro p hp
      rw [← Heap.tree_eq_iff.1 (tree_end hr hcells hρ a) p,
        ← Heap.tree_eq_iff.1 (tree_end hr hcells hρ b) p]
      exact hends p hp
    · exact hrest q hq
  induction hw with
  | done hnil =>
    refine ⟨fun q hq => ?_, fun p hp => .inl hp⟩
    rcases hnil with rfl | rfl <;> simp at hq
  | cell hsame hrest ih =>
    have hr' := hr.rest (.refl hr.plain.good) hr.plain
    obtain ⟨hpairs, hnew⟩ := ih hok hr' hcells hρ hseen
    have hρ₀ := (hr'.extends hrest).respects hρ
    refine ⟨hfirst hr hcells hρ₀ (.of_tree ?_) hpairs, hnew⟩
    exact Heap.tree_eq_of_same hK (hr.plain.over_of (hr.plain.deref hr.fst.2))
      (hr.plain.over_of (hr.plain.deref hr.snd.2)) hsame
  | @left _ _ b _ _ u _ _ v hsame ha hrest ih =>
    obtain ⟨hext, hr'⟩ := hr.bindLeft hsame ha
    have hcells' := fun s => (hext.grows.structCell s).trans (hcells s)
    obtain ⟨hpairs, hnew⟩ := ih hok hr' hcells' hρ hseen
    have hρ₁ := (hr'.extends hrest).respects hρ
    have hfree := hr.plain.good.binding?_of_deref ha
    have hbound := hρ₁ v (u.heap.deref b) (by
      rw [bind_heap hfree, Heap.binding?_set (hr.fst_holds ha), if_pos rfl])
    rw [bind_seen] at hnew
    refine ⟨hfirst hr hcells (hext.respects hρ₁) (.of_tree ?_) hpairs, hnew⟩
    rw [ha, Heap.tree_var, hbound, Heap.tree_congr hcells']
  | @right _ a _ _ _ u _ _ v ha hb hrest ih =>
    obtain ⟨hext, hr'⟩ := hr.bindRight ha hb
    have hcells' := fun s => (hext.grows.structCell s).trans (hcells s)
    obtain ⟨hpairs, hnew⟩ := ih hok hr' hcells' hρ hseen
    have hρ₁ := (hr'.extends hrest).respects hρ
    have hfree := hr.plain.good.binding?_of_deref hb
    have hbound := hρ₁ v (u.heap.deref a) (by
      rw [bind_heap hfree, Heap.binding?_set (hr.snd_holds hb), if_pos rfl])
    rw [bind_seen] at hnew
    refine ⟨hfirst hr hcells (hext.respects hρ₁) (.of_tree ?_) hpairs, hnew⟩
    rw [hb, Heap.tree_var, hbound, Heap.tree_congr hcells']
  | leaf hsame hleafy heq hrest ih =>
    have hr' := hr.rest (.refl hr.plain.good) hr.plain
    obtain ⟨hpairs, hnew⟩ := ih hok hr' hcells hρ hseen
    have hρ₀ := (hr'.extends hrest).respects hρ
    refine ⟨hfirst hr hcells hρ₀ (.of_tree ?_) hpairs, hnew⟩
    rw [← Heap.tree_congr hcells, ← Heap.tree_congr hcells]
    exact (Heap.sameLeaf_iff hK hr.plain (hr.plain.inside_deref hr.fst)
      (hr.plain.inside_deref hr.snd) hleafy).1 heq
  | leafDiffers => cases hok
  | structDiffers => cases hok
  | met ha hb _ _ _ hmet hrest ih =>
    have hr' := hr.rest (.refl hr.plain.good) hr.plain
    obtain ⟨hpairs, hnew⟩ := ih hok hr' hcells hρ hseen
    have hext := hr'.extends hrest
    refine ⟨hfirst hr hcells (hext.respects hρ) ?_ hpairs, hnew⟩
    rw [ha, hb]
    exact hseen _ (hext.seen.subset (enter?_eq_none hmet))
  | enters ha hb _ hname hlength henter hargs hrest ihargs ih =>
    obtain ⟨hext, hr'⟩ := hr.through ha hb henter hargs
    have hrest' := hr'.extends hrest
    obtain ⟨hpairs, hnew⟩ := ih hok hr'
      (fun s => (hext.grows.structCell s).trans (hcells s)) hρ hseen
    obtain ⟨hinner, hnewer⟩ := ihargs rfl (hr.args ha hb _) hcells (hrest'.respects hρ)
      fun p hp => hseen p (hrest'.seen.subset hp)
    rw [hcells, hcells] at hname hlength hinner
    -- The pair itself agrees one level further than its arguments.
    have hpair := Heap.Agrees.struct hname hlength hinner
    refine ⟨hfirst hr hcells (hext.respects (hrest'.respects hρ)) ?_ hpairs, fun p hp => ?_⟩
    · rw [ha, hb]
      exact hpair.pred
    · rcases hnew p hp with hp | hp
      · rcases hnewer p hp with hp | hp
        · rcases enter?_eq_some henter with ⟨-, rfl⟩ | ⟨-, -, rfl⟩
          · exact .inl hp
          · rcases List.mem_cons.1 hp with rfl | hp
            · exact .inr hpair
            · exact .inl hp
        · exact .inr hp
      · exact .inr hp
  | argsDiffer => cases hok

end Unifier

namespace Heap

variable {h : Heap} {K : Set Constant} {P : Value → Prop} {a b : Value}

/-! ## §6. Unification. -/

namespace PlainOn

/-- The state in which a unification starts. -/
theorem ready (hp : h.PlainOn K P) (ha : h.Inside P a) (hb : h.Inside P b) :
    Unifier.Ready K P [a] [b] ⟨h, [], []⟩ :=
  ⟨hp, by simpa using ha, by simpa using hb⟩

/-- Valuations that respect the bindings after a successful unification make its terms one tree. -/
theorem unify_solves (hK : EqualOn K) (hp : h.PlainOn K P) (ha : h.Inside P a)
    (hb : h.Inside P b) (hok : (h.unify a b).1 = true) {ρ : Valuation}
    (hρ : (h.unify a b).2.heap.Respects K ρ) : h.tree K ρ a = h.tree K ρ b := by
  have hwalk := unify_walk hp.good ha.1 hb.1
  have hstep := fun k => hwalk.agrees (k := k) (g := h) hok hK (hp.ready ha hb) (fun _ => rfl) hρ
  -- The remembered pairs agree down to every level: nothing is remembered at the start.
  have hseen : ∀ k, ∀ p ∈ (h.unify a b).2.seen, h.Agrees K ρ k (.struct p.1) (.struct p.2) := by
    intro k
    induction k with
    | zero => intro p _ q hq; exact absurd hq (Nat.not_lt_zero _)
    | succ k ih =>
      intro p hp
      rcases (hstep k ih).2 p hp with hnone | hagree
      · cases hnone
      · exact hagree
  exact Agrees.tree fun k => (hstep k (hseen k)).1 (a, b) (by simp)

/-- Solutions of the old bindings that make the two terms one tree are kept, and the unification
    succeeds. -/
theorem unify_keeps (hK : EqualOn K) (hp : h.PlainOn K P) (ha : h.Inside P a) (hb : h.Inside P b)
    {ρ : Valuation} (hρ : h.Respects K ρ) (heq : h.tree K ρ a = h.tree K ρ b) :
    (h.unify a b).1 = true ∧ (h.unify a b).2.heap.Respects K ρ :=
  (unify_walk hp.good ha.1 hb.1).respects hK (hp.ready ha hb) (fun _ => rfl) hρ (by simpa using heq)

/-- A unification leaves the part plain. -/
theorem unify (hp : h.PlainOn K P) (ha : h.Inside P a) (hb : h.Inside P b) :
    (h.unify a b).2.heap.PlainOn K P :=
  (unify_walk hp.good ha.1 hb.1).plain (hp.ready ha hb)

end PlainOn

/-- The state in which a unification of terms of a plain heap starts. -/
theorem ready_start (hp : h.Plain K) (ha : h.Within K a) (hb : h.Within K b) :
    Unifier.Ready K (Over K) [a] [b] ⟨h, [], []⟩ :=
  hp.on.ready ha hb

/-- What unifies has the same tree under every solution of the heap afterwards. -/
theorem unify_solves (hK : EqualOn K) (hp : h.Plain K) (ha : h.Within K a) (hb : h.Within K b)
    (hok : (h.unify a b).1 = true) {ρ : Valuation} (hρ : (h.unify a b).2.heap.Respects K ρ) :
    h.tree K ρ a = h.tree K ρ b :=
  hp.on.unify_solves hK ha hb hok hρ

/-- **Most general unifier.**  Terms stand for possibly infinite trees, on a heap whose chains end and
    whose functors have arguments; terms may contain themselves.  After a success exactly those
    solutions of the old bindings are left that make the two terms one tree; after a failure there is
    none. -/
theorem unify_most_general (hK : EqualOn K) (hp : h.Plain K) (ha : h.Within K a)
    (hb : h.Within K b) :
    ((h.unify a b).1 = true →
      (∀ ρ : Valuation, h.Respects K ρ → h.tree K ρ a = h.tree K ρ b →
        (h.unify a b).2.heap.Respects K ρ) ∧
      ∀ ρ : Valuation, (h.unify a b).2.heap.Respects K ρ →
        (h.unify a b).2.heap.tree K ρ a = (h.unify a b).2.heap.tree K ρ b) ∧
    ((h.unify a b).1 = false → ∀ ρ : Valuation, h.Respects K ρ → h.tree K ρ a ≠ h.tree K ρ b) := by
  have hready := ready_start hp ha hb
  have hwalk := unify_walk hp.good ha.1 hb.1
  have hkept : ∀ ρ : Valuation, h.Respects K ρ → h.tree K ρ a = h.tree K ρ b →
      (h.unify a b).1 = true ∧ (h.unify a b).2.heap.Respects K ρ := by
    intro ρ hρ heq
    exact hwalk.respects hK hready (fun _ => rfl) hρ (by simpa using heq)
  refine ⟨fun hok => ⟨fun ρ hρ heq => (hkept ρ hρ heq).2, fun ρ hρ => ?_⟩, fun hfail ρ hρ heq => ?_⟩
  · have hcells := (hready.extends hwalk).grows.structCell
    rw [tree_congr hcells, tree_congr hcells]
    exact unify_solves hK hp ha hb hok hρ
  · rw [(hkept ρ hρ heq).1] at hfail
    cases hfail

/-- Two cyclic terms, `X = f(X, a)` and `Y = f(f(Y, Z), a)`. -/
def loops : Heap where
  vars := #[⟨"X", 1, some (.struct 0)⟩, ⟨"Y", 2, some (.struct 1)⟩, ⟨"Z", 3, none⟩]
  structs := #[⟨"f", [.var 0, .const ⟨.atom "a", .code 0 0⟩], .none⟩,
    ⟨"f", [.struct 2, .const ⟨.atom "a", .code 0 0⟩], .none⟩, ⟨"f", [.var 1, .var 2], .none⟩]
  constants := 0
  numbered := 3

theorem loops_plain : loops.Plain {⟨.atom "a", .code 0 0⟩} where
  good :=
    { bindings := by
        intro v t hv
        rcases v with _ | _ | _ | v <;> simp [binding?, varCell, loops] at hv <;> subst hv <;>
          simp [loops]
      args := by
        intro s t ht
        rcases s with _ | _ | _ | s <;> simp [structCell, loops] at ht <;>
          rcases ht with rfl | rfl <;> simp [loops]
      acyclic := ⟨fun _ => 0, fun v w hv => by
        rcases v with _ | _ | _ | v <;> simp [binding?, varCell, loops] at hv⟩ }
  constants :=
    { bindings := by
        intro v t hv
        rcases v with _ | _ | _ | v <;> simp [binding?, varCell, loops] at hv <;> subst hv <;> trivial
      args := by
        intro s t ht
        rcases s with _ | _ | _ | s <;> simp [structCell, loops] at ht <;>
          rcases ht with rfl | rfl <;> simp [Over] }
  args := by
    intro s hs
    rcases s with _ | _ | _ | s
    · simp [structCell, loops]
    · simp [structCell, loops]
    · simp [structCell, loops]
    · have : s + 3 < 3 := hs
      omega

/-- The two cyclic terms unify, in a walk so deep that pairs are remembered; there are solutions, and in
    all of them the terms are one infinite tree. -/
theorem unify_most_general_loops :
    (loops.unify (.var 0) (.var 1)).1 = true ∧
      (∃ ρ : Valuation, (loops.unify (.var 0) (.var 1)).2.heap.Respects {⟨.atom "a", .code 0 0⟩} ρ) ∧
      ∀ ρ : Valuation, (loops.unify (.var 0) (.var 1)).2.heap.Respects {⟨.atom "a", .code 0 0⟩} ρ →
        ρ 0 = ρ 1 := by
  have hok : (loops.unify (.var 0) (.var 1)).1 = true := by decide +kernel
  have hK : EqualOn {(⟨.atom "a", .code 0 0⟩ : Constant)} :=
    ⟨fun c hc d hd h => by rw [hc, hd] at *; exact h,
      fun c hc d hd e he h _ => by rw [hc, hd, he] at *; exact h⟩
  have h0 : loops.Within {⟨.atom "a", .code 0 0⟩} (.var 0) := ⟨by simp [loops], trivial⟩
  have h1 : loops.Within {⟨.atom "a", .code 0 0⟩} (.var 1) := ⟨by simp [loops], trivial⟩
  have hmost := unify_most_general hK loops_plain h0 h1
  obtain ⟨ρ, hρ, -⟩ := exists_respects (K := {⟨.atom "a", .code 0 0⟩})
    (good_unify loops_plain.good h0.1 h1.1) default
  refine ⟨hok, ⟨ρ, hρ⟩, fun ρ hρ => ?_⟩
  have heq := (hmost.1 hok).2 ρ hρ
  rwa [tree_var, tree_var] at heq

end Heap

end PrologMachine
