/-
  PrologMachine.Proofs.Heap.Variants ── **TERMS UP TO A RENAMING OF VARIABLES.**

  Two families of terms, each on a heap of its own, are variants of each other when they have the
  same nodes at the same places, up to one renaming of variables and up to equality of constants.
  They are when they have the same instances: when the trees that the valuations of one heap give
  the first family are those that the valuations of the other heap give the second one.

    * `Heap.nodeAt`: the nodes of a term, chains of bound variables followed.
    * `Heap.Variant`: the same nodes up to a renaming.
    * `Heap.exists_renaming`: families with the same instances are variants.
-/
import PrologMachine.Proofs.Heap.MostGeneral

namespace PrologMachine

/-! ## §1. Nodes. -/

/-- What stands at a node of a term. -/
inductive Node where
  /-- A functor with its number of arguments. -/
  | functor (name : String) (arity : Nat)
  /-- A constant. -/
  | const (c : Constant)
  /-- An unbound variable. -/
  | var (v : VarId)

/-- The nodes are the same up to a renaming of variables and up to equality of constants. -/
inductive Node.Alike (σ : VarId → VarId) : Node → Node → Prop where
  /-- One functor. -/
  | functor {name : String} {arity : Nat} : Alike σ (.functor name arity) (.functor name arity)
  /-- Equal constants. -/
  | const {c d : Constant} (h : c.equal d = true) : Alike σ (.const c) (.const d)
  /-- A variable and its new name. -/
  | var {v : VarId} : Alike σ (.var v) (.var (σ v))

namespace Heap

variable {h h' : Heap} {K : Set Constant} {P P' : Value → Prop} {ρ : Valuation} {t : Value}
  {p : List Nat} {n : Node}

/-- The node at the end of a chain. -/
def node (h : Heap) : Value → Option Node
  | .var v => some (.var v)
  | .struct s => some (.functor (h.structCell s).name (h.structCell s).args.length)
  | .const c => some (.const c)
  | .absent => none

/-- What hangs below the end of a chain. -/
def arguments (h : Heap) : Value → List Value
  | .struct s => (h.structCell s).args
  | _ => []

/-- The node of a term that a way down leads to. -/
def nodeAt (h : Heap) : List Nat → Value → Option Node
  | [], t => h.node (h.deref t)
  | i :: p, t => ((h.arguments (h.deref t))[i]?).bind (h.nodeAt p)

/-- The term `t` on `h` and the term `t'` on `h'` are the same up to a renaming of variables and up
    to equality of constants. -/
def Variant (σ : VarId → VarId) (h : Heap) (t : Value) (h' : Heap) (t' : Value) : Prop :=
  ∀ p, Option.Rel (Node.Alike σ) (h.nodeAt p t) (h'.nodeAt p t')

/-- The nodes of a term in a plain part are nodes of values in it. -/
theorem PlainOn.exists_node (hp : h.PlainOn K P) (p : List Nat) : ∀ {t : Value} {n : Node},
    h.Inside P t → h.nodeAt p t = some n → ∃ u, h.Inside P u ∧ h.node u = some n := by
  -- Along the path: each step leads to an argument, which is inside again.
  induction p with
  | nil =>
    intro t n ht hn
    exact ⟨_, hp.inside_deref ht, hn⟩
  | cons i p ih =>
    intro t n ht hn
    have hd := hp.inside_deref ht
    rw [nodeAt] at hn
    cases hdt : h.deref t with
    | struct s =>
      rw [hdt] at hn hd
      cases harg : (h.structCell s).args[i]? with
      | none => rw [arguments, harg] at hn; cases hn
      | some a =>
        rw [arguments, harg] at hn
        exact ih (hp.inside_args hd.2 a (List.mem_of_getElem? harg)) hn
    | var v => rw [hdt] at hn; cases hn
    | const c => rw [hdt] at hn; cases hn
    | absent => rw [hdt] at hn; cases hn

/-- In a plain part there are no functors without arguments. -/
theorem PlainOn.arity_ne (hp : h.PlainOn K P) {f : String} {k : Nat} (ht : h.Inside P t)
    (hn : h.nodeAt p t = some (.functor f k)) : k ≠ 0 := by
  obtain ⟨u, hu, hn⟩ := hp.exists_node p ht hn
  cases u with
  | struct s =>
    obtain ⟨-, rfl⟩ := Node.functor.inj (Option.some.inj hn)
    exact fun hzero => hp.nonempty s hu.1 hu.2 (List.length_eq_zero_iff.1 hzero)
  | _ => cases hn

/-- A constant at a node of the part is one of the part's constants. -/
theorem PlainOn.const_mem (hp : h.PlainOn K P) {c : Constant} (ht : h.Inside P t)
    (hn : h.nodeAt p t = some (.const c)) : c ∈ K := by
  obtain ⟨u, hu, hn⟩ := hp.exists_node p ht hn
  cases u with
  | const d =>
    obtain rfl := Node.const.inj (Option.some.inj hn)
    exact hp.constants _ hu.2
  | _ => cases hn

/-! ## §2. The labels of nodes. -/

/-- The label of a node, given trees for the variables. -/
def nodeLabel (K : Set Constant) (ρ : Valuation) : Node → Option Label
  | .functor f k => some (.functor f k)
  | .const c => some (leafOf K c)
  | .var v => (ρ v).label []

/-- A valuation that respects the heap gives a term the labels of its nodes. -/
theorem labelAt_of_nodeAt (hg : h.Good) (hρ : h.Respects K ρ) (p : List Nat) :
    ∀ {t : Value} {n : Node}, h.nodeAt p t = some n → h.labelAt K ρ p t = nodeLabel K ρ n := by
  -- Along the path: both sides go to the same argument.
  induction p with
  | nil =>
    intro t n hn
    rw [← tree_eq_iff.1 (tree_deref hg hρ t) []]
    rw [nodeAt] at hn
    cases hdt : h.deref t <;> rw [hdt] at hn <;> cases hn <;> rfl
  | cons i p ih =>
    intro t n hn
    rw [← tree_eq_iff.1 (tree_deref hg hρ t) (i :: p)]
    rw [nodeAt] at hn
    cases hdt : h.deref t with
    | struct s =>
      rw [hdt] at hn
      cases harg : (h.structCell s).args[i]? with
      | none => rw [arguments, harg] at hn; cases hn
      | some a =>
        rw [arguments, harg] at hn
        rw [labelAt_struct_cons, harg]
        exact ih hn
    | var v => rw [hdt] at hn; cases hn
    | const c => rw [hdt] at hn; cases hn
    | absent => rw [hdt] at hn; cases hn

/-- A leaf of its own for each variable: a functor without arguments. -/
def marker (v : VarId) : Tree where
  label
    | [] => some (.functor (String.ofList (List.replicate v 'v')) 0)
    | _ :: _ => none
  root := rfl
  nodes p i := by cases p <;> simp [Label.arity]

/-- When every variable has a leaf of its own, a term has the labels of its nodes and no others. -/
theorem unfoldAt_marker (hg : h.Good) (p : List Nat) : ∀ {t : Value}, h.Holds t →
    h.unfoldAt K marker p t = (h.nodeAt p t).bind (nodeLabel K marker) := by
  -- Along the path: the unfolding and the node are looked up at the same argument.
  induction p with
  | nil =>
    intro t ht
    have hd := hg.holds_deref ht
    rw [unfoldAt, nodeAt]
    cases hdt : h.deref t with
    | absent => rw [hdt] at hd; exact hd.elim
    | _ => rfl
  | cons i p ih =>
    intro t ht
    rw [unfoldAt, nodeAt]
    cases hdt : h.deref t with
    | struct s =>
      simp only [arguments]
      cases harg : (h.structCell s).args[i]? with
      | none => rfl
      | some a => exact ih (hg.args s a (List.mem_of_getElem? harg))
    | var v => rfl
    | const c => rfl
    | absent => rfl

/-- Markers tell variables apart. -/
theorem marker_inj {v w : VarId} (heq : (marker v).label [] = (marker w).label []) : v = w := by
  have hname := (Label.functor.inj (Option.some.inj heq)).1
  have hlength := congrArg (fun s => s.toList.length) hname
  simpa using hlength

/-! ## §3. Families with the same instances. -/

section Families

variable {ι : Type} {a b : ι → Value}

/-- Every instance of the family `a` on `h` is one of the family `b` on `h'`. -/
def InstancesOf (K : Set Constant) (h : Heap) (a : ι → Value) (h' : Heap) (b : ι → Value) : Prop :=
  ∀ ρ : Valuation, h.Respects K ρ → ∃ ρ' : Valuation, h'.Respects K ρ' ∧
    ∀ i, h'.tree K ρ' (b i) = h.tree K ρ (a i)

/-- Where the second family has a node, the first one has a node with the same label, some trees
    given. -/
theorem InstancesOf.exists_label (hinst : InstancesOf K h a h' b) (hg : h.Good) (hg' : h'.Good)
    (ha : ∀ i, h.Holds (a i)) : ∃ ρ' : Valuation, ∀ i p n, h'.nodeAt p (b i) = some n →
      (h.nodeAt p (a i)).bind (nodeLabel K marker) = nodeLabel K ρ' n := by
  obtain ⟨ρ', hρ', htree⟩ := hinst (h.solution K marker) (solution_respects hg)
  refine ⟨ρ', fun i p n hn => ?_⟩
  have hlabel : h'.labelAt K ρ' p (b i) = h.labelAt K (h.solution K marker) p (a i) :=
    congrArg (fun t => t.label p) (htree i)
  rw [← labelAt_of_nodeAt hg' hρ' p hn, hlabel, labelAt_solution, unfoldAt_marker hg p (ha i)]

/-- Two plain parts, and a family of terms in each. -/
structure Parts (K : Set Constant) (P P' : Value → Prop) (h : Heap) (a : ι → Value) (h' : Heap)
    (b : ι → Value) : Prop where
  /-- The one part. -/
  plain : h.PlainOn K P
  /-- The other part. -/
  plain' : h'.PlainOn K P'
  /-- The terms in the one. -/
  left : ∀ i, h.Inside P (a i)
  /-- The terms in the other. -/
  right : ∀ i, h'.Inside P' (b i)

theorem Parts.symm (hparts : Parts K P P' h a h' b) : Parts K P' P h' b h a :=
  ⟨hparts.plain', hparts.plain, hparts.right, hparts.left⟩

/-- Where the second family has a functor or a constant, the first one has it too; where it has a
    variable, the first one has a node. -/
theorem InstancesOf.nodes (hinst : InstancesOf K h a h' b) (hK : EqualOn K)
    (hparts : Parts K P P' h a h' b) (i : ι) (p : List Nat) :
    (∀ f k, h'.nodeAt p (b i) = some (.functor f k) → h.nodeAt p (a i) = some (.functor f k)) ∧
      (∀ d, h'.nodeAt p (b i) = some (.const d) →
        ∃ c, h.nodeAt p (a i) = some (.const c) ∧ c.equal d = true) ∧
      ∀ w, h'.nodeAt p (b i) = some (.var w) → (h.nodeAt p (a i)).isSome := by
  obtain ⟨ρ', hlabel⟩ := hinst.exists_label hparts.plain.good hparts.plain'.good
    fun i => (hparts.left i).1
  -- A label of the one side is a label of the other, and labels tell nodes apart.
  refine ⟨fun f k hn => ?_, fun d hn => ?_, fun w hn => ?_⟩
  · have heq := hlabel i p _ hn
    cases hx : h.nodeAt p (a i) with
    | none => rw [hx] at heq; cases heq
    | some x =>
      rw [hx] at heq
      cases x with
      | functor g j =>
        obtain ⟨rfl, rfl⟩ := Label.functor.inj (Option.some.inj heq)
        rfl
      | const c => cases heq
      | var v =>
        obtain ⟨-, rfl⟩ := Label.functor.inj (Option.some.inj heq)
        exact absurd rfl (hparts.plain'.arity_ne (hparts.right i) hn)
  · have heq := hlabel i p _ hn
    cases hx : h.nodeAt p (a i) with
    | none => rw [hx] at heq; cases heq
    | some x =>
      rw [hx] at heq
      cases x with
      | const c =>
        have hc := hparts.plain.const_mem (hparts.left i) hx
        have hd := hparts.plain'.const_mem (hparts.right i) hn
        exact ⟨c, rfl, (leafOf_eq_iff hK hc hd).1 (Option.some.inj heq)⟩
      | functor g j => cases heq
      | var v => cases heq
  · have heq := hlabel i p _ hn
    have hsome : (nodeLabel K ρ' (.var w)).isSome := (ρ' w).root
    rw [← heq] at hsome
    exact Option.isSome_of_isSome_bind hsome

/-- Where the second family has one variable, the first one has one variable too. -/
theorem InstancesOf.var_eq (hinst : InstancesOf K h a h' b) (hparts : Parts K P P' h a h' b)
    {i j : ι} {p q : List Nat} {v v' w : VarId} (hw : h'.nodeAt p (b i) = some (.var w))
    (hw' : h'.nodeAt q (b j) = some (.var w)) (hv : h.nodeAt p (a i) = some (.var v))
    (hv' : h.nodeAt q (a j) = some (.var v')) : v = v' := by
  obtain ⟨ρ', hlabel⟩ := hinst.exists_label hparts.plain.good hparts.plain'.good
    fun i => (hparts.left i).1
  have heq := hlabel i p _ hw
  have heq' := hlabel j q _ hw'
  rw [hv] at heq
  rw [hv'] at heq'
  exact marker_inj (heq.trans heq'.symm)

/-- Where the one family has a variable, the other one has a variable. -/
theorem Parts.exists_var (hparts : Parts K P P' h a h' b) (hK : EqualOn K)
    (hinst : InstancesOf K h a h' b) (hinst' : InstancesOf K h' b h a) {i : ι} {p : List Nat}
    {v : VarId} (hv : h.nodeAt p (a i) = some (.var v)) :
    ∃ w, h'.nodeAt p (b i) = some (.var w) := by
  obtain ⟨n, hn⟩ := Option.isSome_iff_exists.1
    ((hinst'.nodes hK hparts.symm i p).2.2 v hv)
  obtain ⟨hfunctor, hconst, -⟩ := hinst.nodes hK hparts i p
  cases n with
  | var w => exact ⟨w, hn⟩
  | functor f k => rw [hfunctor f k hn] at hv; cases hv
  | const d =>
    obtain ⟨c, hc, -⟩ := hconst d hn
    rw [hc] at hv
    cases hv

/-- **Families with the same instances are variants of each other**, by one renaming for all their
    terms. -/
theorem exists_renaming (hK : EqualOn K) (hparts : Parts K P P' h a h' b)
    (hinst : InstancesOf K h a h' b) (hinst' : InstancesOf K h' b h a) :
    ∃ σ : VarId → VarId, (∀ i p v j q w, h.nodeAt p (a i) = some (.var v) →
        h.nodeAt q (a j) = some (.var w) → σ v = σ w → v = w) ∧
      ∀ i, Variant σ h (a i) h' (b i) := by
  classical
  let σ : VarId → VarId := fun v => Classical.epsilon fun w =>
    ∃ i p, h.nodeAt p (a i) = some (.var v) ∧ h'.nodeAt p (b i) = some (.var w)
  -- The new name of a variable stands wherever the variable does.
  have hσ : ∀ {i p v}, h.nodeAt p (a i) = some (.var v) →
      h'.nodeAt p (b i) = some (.var (σ v)) := by
    intro i p v hv
    obtain ⟨w, hw⟩ := hparts.exists_var hK hinst hinst' hv
    obtain ⟨j, q, hv', hw'⟩ := Classical.epsilon_spec (p := fun w =>
      ∃ i p, h.nodeAt p (a i) = some (.var v) ∧ h'.nodeAt p (b i) = some (.var w))
      ⟨w, i, p, hv, hw⟩
    rw [hw, hinst'.var_eq hparts.symm hv hv' hw hw']
  refine ⟨σ, fun i p v j q w hv hw heq => ?_, fun i p => ?_⟩
  · have hw' := hσ hw
    rw [← heq] at hw'
    exact hinst.var_eq hparts (hσ hv) hw' hv hw
  · obtain ⟨hfunctor, hconst, hvar⟩ := hinst'.nodes hK hparts.symm i p
    cases hn : h.nodeAt p (a i) with
    | some n =>
      cases n with
      | functor f k =>
        rw [hfunctor f k hn]
        exact .some .functor
      | const c =>
        obtain ⟨d, hd, heq⟩ := hconst c hn
        rw [hd]
        exact .some (.const (hK.symm d (hparts.plain'.const_mem (hparts.right i) hd) c
          (hparts.plain.const_mem (hparts.left i) hn) heq))
      | var v =>
        rw [hσ hn]
        exact .some .var
    | none =>
      cases hn' : h'.nodeAt p (b i) with
      | none => exact .none
      | some n =>
        obtain ⟨hfunctor, hconst, hvar⟩ := hinst.nodes hK hparts i p
        rw [hn] at hfunctor hconst hvar
        cases n with
        | functor f k => cases hfunctor f k hn'
        | const d =>
          obtain ⟨c, hc, -⟩ := hconst d hn'
          cases hc
        | var w => cases hvar w hn'

end Families

end Heap

end PrologMachine
