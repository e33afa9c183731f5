/-
  PrologMachine.Proofs.Heap.Trees ── **TERMS AS POSSIBLY INFINITE TREES.**

  A term on a heap may contain itself, so what it stands for is a tree that need not be finite.  A tree
  is given by the labels of its nodes, a node by the way down to it.  A valuation gives each variable a
  tree; it respects a heap when every bound variable has the tree of its value.

    * `Tree` is a well-formed labelling; `Heap.tree` is the tree of a value under a valuation.
    * Constants are one leaf exactly when they are equal (`Heap.leafOf_eq_iff`).
    * `Heap.exists_respects`: whatever trees the unbound variables are given, one valuation with them
      respects the heap.
-/
import PrologMachine.Proofs.Heap.Walk

namespace PrologMachine

/-! ## §1. Trees. -/

/-- What stands at a node. -/
inductive Label where
  /-- A functor with its number of arguments. -/
  | functor (name : String) (arity : Nat)
  /-- A constant, known by the constants that it equals. -/
  | leaf (equals : Set Constant)

/-- How many nodes hang below. -/
def Label.arity : Label → Nat
  | .functor _ n => n
  | .leaf _ => 0

/-- A possibly infinite tree: the label of each node, which is given by the way down to it. -/
@[ext] structure Tree where
  /-- The labels. -/
  label : List Nat → Option Label
  /-- There is a root. -/
  root : (label []).isSome
  /-- Below a node there are as many nodes as its label says. -/
  nodes : ∀ p i, (label (p ++ [i])).isSome ↔ ∃ l, label p = some l ∧ i < l.arity

/-- A single leaf. -/
instance : Inhabited Tree where
  default :=
    { label := fun p => if p = [] then some (.leaf ∅) else none
      root := rfl
      nodes := by
        intro p i
        by_cases hp : p = [] <;> simp [hp, Label.arity] }

/-- A tree for each variable. -/
abbrev Valuation := VarId → Tree

namespace Heap

variable {h h' : Heap} {K : Set Constant} {ρ σ : Valuation} {s : StructId} {v : VarId} {t : Value}
  {c d : Constant} {p : List Nat} {i : Nat}

/-! ## §2. The tree of a value. -/

/-- The leaf of a constant among the constants `K`. -/
def leafOf (K : Set Constant) (c : Constant) : Label := .leaf {d | d ∈ K ∧ c.equal d = true}

/-- The label of a value at a node, given trees for the variables. -/
def labelAt (h : Heap) (K : Set Constant) (ρ : Valuation) : List Nat → Value → Option Label
  | p, .var v => (ρ v).label p
  | [], .struct s => some (.functor (h.structCell s).name (h.structCell s).args.length)
  | i :: p, .struct s => ((h.structCell s).args[i]?).bind (h.labelAt K ρ p)
  | [], .const c => some (leafOf K c)
  | _ :: _, .const _ => none
  | [], .absent => some (.leaf ∅)
  | _ :: _, .absent => none

@[simp] theorem labelAt_var : h.labelAt K ρ p (.var v) = (ρ v).label p := by
  cases p <;> rfl

@[simp] theorem labelAt_struct_nil : h.labelAt K ρ [] (.struct s) =
    some (.functor (h.structCell s).name (h.structCell s).args.length) := rfl

/-- The labels below a structure are those of its arguments. -/
theorem labelAt_struct_cons : h.labelAt K ρ (i :: p) (.struct s) =
    ((h.structCell s).args[i]?).bind (h.labelAt K ρ p) := rfl

@[simp] theorem labelAt_const_nil : h.labelAt K ρ [] (.const c) = some (leafOf K c) := rfl

/-- Labels depend on a heap through its structures only. -/
theorem labelAt_congr (hcells : ∀ s, h'.structCell s = h.structCell s) (p : List Nat) :
    ∀ t, h'.labelAt K ρ p t = h.labelAt K ρ p t := by
  induction p with
  | nil =>
    intro t
    cases t with
    | struct s => rw [labelAt_struct_nil, labelAt_struct_nil, hcells]
    | _ => rfl
  | cons i p ih =>
    intro t
    cases t with
    | struct s =>
      rw [labelAt_struct_cons, labelAt_struct_cons, hcells]
      cases (h.structCell s).args[i]? with
      | none => rfl
      | some t => exact ih t
    | _ => rfl

/-- Every value has a label at its root. -/
theorem isSome_labelAt_nil (t : Value) : (h.labelAt K ρ [] t).isSome := by
  cases t with
  | var v => exact (ρ v).root
  | _ => rfl

theorem isSome_labelAt_append (p : List Nat) (i : Nat) : ∀ t,
    (h.labelAt K ρ (p ++ [i]) t).isSome ↔ ∃ l, h.labelAt K ρ p t = some l ∧ i < l.arity := by
  -- Step by step down the path, until it meets a variable, whose tree has labels as trees do.
  induction p with
  | nil =>
    intro t
    cases t with
    | var v => exact (ρ v).nodes [] i
    | struct s =>
      rw [List.nil_append, labelAt_struct_cons, labelAt_struct_nil]
      by_cases hi : i < (h.structCell s).args.length
      · have hroot : (h.labelAt K ρ [] (h.structCell s).args[i]).isSome := isSome_labelAt_nil _
        simp [hi, hroot, Label.arity]
      · simp [hi, Label.arity]
    | const c => simp [labelAt, leafOf, Label.arity]
    | absent => simp [labelAt, Label.arity]
  | cons j p ih =>
    intro t
    cases t with
    | var v => exact (ρ v).nodes (j :: p) i
    | struct s =>
      rw [List.cons_append, labelAt_struct_cons, labelAt_struct_cons]
      cases (h.structCell s).args[j]? with
      | none => simp
      | some t => exact ih t
    | const c => simp [labelAt]
    | absent => simp [labelAt]

/-- The tree of a value, given trees for the variables. -/
def tree (h : Heap) (K : Set Constant) (ρ : Valuation) (t : Value) : Tree where
  label p := h.labelAt K ρ p t
  root := isSome_labelAt_nil t
  nodes p i := isSome_labelAt_append p i t

/-- Trees are equal when their labels are. -/
theorem tree_eq_iff {a b : Value} :
    h.tree K ρ a = h'.tree K ρ b ↔ ∀ p, h.labelAt K ρ p a = h'.labelAt K ρ p b :=
  ⟨fun heq p => congrFun (congrArg Tree.label heq) p, fun hp => Tree.ext (funext hp)⟩

@[simp] theorem tree_var : h.tree K ρ (.var v) = ρ v := Tree.ext (funext fun _ => labelAt_var)

/-- Trees do not depend on bindings. -/
theorem tree_congr (hcells : ∀ s, h'.structCell s = h.structCell s) (t : Value) :
    h'.tree K ρ t = h.tree K ρ t :=
  tree_eq_iff.2 fun p => labelAt_congr hcells p t

/-! ## §3. Respecting bindings. -/

/-- Every bound variable has the tree of its value. -/
def Respects (h : Heap) (K : Set Constant) (ρ : Valuation) : Prop :=
  ∀ v t, h.binding? v = some t → ρ v = h.tree K ρ t

/-- Following a chain does not change the tree. -/
theorem tree_deref (hg : h.Good) (hρ : h.Respects K ρ) (t : Value) :
    h.tree K ρ (h.deref t) = h.tree K ρ t := by
  induction t using hg.chain_induction with
  | free v hv => rw [deref_free hv]
  | bound v t hv ih => rw [deref_bound hg hv, ih, tree_var, hρ v t hv]
  | const c => rfl
  | struct s => rfl
  | absent => rfl

/-- Fewer bindings are easier to respect. -/
theorem Respects.mono (hρ : h'.Respects K ρ) (hcells : ∀ s, h'.structCell s = h.structCell s)
    (hkeeps : ∀ v t, h.binding? v = some t → h'.binding? v = some t) : h.Respects K ρ := by
  intro v t hv
  rw [hρ v t (hkeeps v t hv), tree_congr hcells]

/-- Respecting one more binding. -/
theorem Respects.set (hρ : h.Respects K ρ) (hlt : v < h.vars.size) (heq : ρ v = h.tree K ρ t) :
    (h.set v t).Respects K ρ := by
  intro w t' hw
  have hcells : ∀ s, (h.set v t).structCell s = h.structCell s := fun _ => rfl
  rw [tree_congr hcells]
  rw [binding?_set hlt] at hw
  split at hw
  · next hwv =>
    obtain rfl := Option.some.inj hw
    rw [hwv]
    exact heq
  · exact hρ w t' hw

/-! ## §4. Leaves. -/

/-- Equality of constants is symmetric and transitive on `K`; every constant equals itself. -/
structure EqualOn (K : Set Constant) : Prop where
  /-- It is symmetric. -/
  symm : ∀ c ∈ K, ∀ d ∈ K, c.equal d = true → d.equal c = true
  /-- It is transitive. -/
  trans : ∀ c ∈ K, ∀ d ∈ K, ∀ e ∈ K, c.equal d = true → d.equal e = true → c.equal e = true

/-- Constants are one leaf exactly when they are equal. -/
theorem leafOf_eq_iff (hK : EqualOn K) (hc : c ∈ K) (hd : d ∈ K) :
    leafOf K c = leafOf K d ↔ c.equal d = true := by
  constructor
  · intro heq
    have hself : d ∈ {e | e ∈ K ∧ d.equal e = true} := ⟨hd, by simp [Constant.equal, Constant.same]⟩
    rw [← Label.leaf.inj heq] at hself
    exact hself.2
  · intro heq
    have hmem : ∀ e, (e ∈ K ∧ c.equal e = true) ↔ (e ∈ K ∧ d.equal e = true) := fun e =>
      ⟨fun h => ⟨h.1, hK.trans d hd c hc e h.1 (hK.symm c hc d hd heq) h.2⟩,
        fun h => ⟨h.1, hK.trans c hc d hd e h.1 heq h.2⟩⟩
    exact congrArg Label.leaf (Set.ext hmem)

/-- A constant in the value is one of `K`. -/
def Over (K : Set Constant) : Value → Prop
  | .const c => c ∈ K
  | _ => True

/-- All constants of the heap are among `K`. -/
structure AllOver (K : Set Constant) (h : Heap) : Prop where
  /-- Those that variables are bound to. -/
  bindings : ∀ v t, h.binding? v = some t → Over K t
  /-- Those in structures. -/
  args : ∀ s, ∀ t ∈ (h.structCell s).args, Over K t

/-- The end of a chain has the same constants. -/
theorem AllOver.deref (hK : AllOver K h) (hg : h.Good) (ht : Over K t) : Over K (h.deref t) := by
  induction t using hg.chain_induction with
  | free v hv => rw [deref_free hv]; trivial
  | bound v t hv ih => rw [deref_bound hg hv]; exact ih (hK.bindings v t hv)
  | const c => exact ht
  | struct s => trivial
  | absent => trivial

/-- A binding to such a value adds no constant. -/
theorem AllOver.set (hK : AllOver K h) (hlt : v < h.vars.size) (ht : Over K t) :
    AllOver K (h.set v t) where
  bindings w t' hw := by
    rw [binding?_set hlt] at hw
    split at hw
    · obtain rfl := Option.some.inj hw
      exact ht
    · exact hK.bindings w t' hw
  args := hK.args

/-- A value of the heap with constants among `K`. -/
def Within (K : Set Constant) (h : Heap) (t : Value) : Prop := h.Holds t ∧ Over K t

/-! ## §5. Valuations exist. -/

/-- The label of a value at a node when its chain is followed, given trees for unbound variables. -/
def unfoldAt (h : Heap) (K : Set Constant) (σ : Valuation) : List Nat → Value → Option Label
  | [], t => h.labelAt K σ [] (h.deref t)
  | i :: p, t =>
    match h.deref t with
    | .struct s => ((h.structCell s).args[i]?).bind (h.unfoldAt K σ p)
    | t' => h.labelAt K σ (i :: p) t'

/-- Unfolding looks at the end of a chain only. -/
theorem unfoldAt_bound (hg : h.Good) (hv : h.binding? v = some t) :
    h.unfoldAt K σ p (.var v) = h.unfoldAt K σ p t := by
  cases p <;> simp only [unfoldAt, deref_bound hg hv]

theorem isSome_unfoldAt_append (p : List Nat) (i : Nat) : ∀ t,
    (h.unfoldAt K σ (p ++ [i]) t).isSome ↔ ∃ l, h.unfoldAt K σ p t = some l ∧ i < l.arity := by
  -- As for labels, with the chains followed on the way.
  induction p with
  | nil =>
    intro t
    rw [List.nil_append, unfoldAt, unfoldAt, ← isSome_labelAt_append [] i (h.deref t), List.nil_append]
    cases h.deref t with
    | struct s =>
      simp only [labelAt_struct_cons]
      cases (h.structCell s).args[i]? with
      | none => rfl
      | some t' => simp [unfoldAt, isSome_labelAt_nil]
    | _ => rfl
  | cons j p ih =>
    intro t
    rw [List.cons_append, unfoldAt, unfoldAt]
    cases h.deref t with
    | struct s =>
      simp only
      cases (h.structCell s).args[j]? with
      | none => simp
      | some t' => exact ih t'
    | var v => exact isSome_labelAt_append (j :: p) i _
    | const c => exact isSome_labelAt_append (j :: p) i _
    | absent => exact isSome_labelAt_append (j :: p) i _

/-- The trees that the bindings of a heap give all variables, given trees for the unbound ones. -/
def solution (h : Heap) (K : Set Constant) (σ : Valuation) : Valuation := fun v =>
  { label := fun p => h.unfoldAt K σ p (.var v)
    root := isSome_labelAt_nil _
    nodes := fun p i => isSome_unfoldAt_append p i _ }

/-- Under these trees a value has the labels that unfolding it shows. -/
theorem labelAt_solution (p : List Nat) : ∀ t,
    h.labelAt K (h.solution K σ) p t = h.unfoldAt K σ p t := by
  induction p with
  | nil =>
    intro t
    cases t with
    | var v => rfl
    | _ => rfl
  | cons i p ih =>
    intro t
    cases t with
    | var v => rfl
    | struct s =>
      rw [labelAt_struct_cons, unfoldAt, deref_struct]
      simp only
      cases (h.structCell s).args[i]? with
      | none => rfl
      | some t => exact ih t
    | const c => rfl
    | absent => rfl

/-- The trees that the bindings give respect them. -/
theorem solution_respects (hg : h.Good) : h.Respects K (h.solution K σ) := by
  refine fun v t hv => Tree.ext (funext fun p => ?_)
  show h.unfoldAt K σ p (.var v) = h.labelAt K (h.solution K σ) p t
  rw [labelAt_solution, unfoldAt_bound hg hv]

/-- **Whatever trees the unbound variables are given, some valuation with these trees respects the
    heap.** -/
theorem exists_respects (hg : h.Good) (σ : Valuation) :
    ∃ ρ : Valuation, h.Respects K ρ ∧ ∀ v, h.binding? v = none → ρ v = σ v := by
  refine ⟨h.solution K σ, solution_respects hg, fun v hv => Tree.ext (funext fun p => ?_)⟩
  show h.unfoldAt K σ p (.var v) = (σ v).label p
  cases p with
  | nil => rw [unfoldAt, deref_free hv, labelAt_var]
  | cons i p => rw [unfoldAt, deref_free hv]; rfl

end Heap

end PrologMachine
