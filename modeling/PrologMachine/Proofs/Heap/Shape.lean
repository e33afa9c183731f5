/-
  PrologMachine.Proofs.Heap.Shape ── **HEAPS IN GOOD SHAPE.**

  A heap is in good shape when every value in it refers to a cell that exists and no chain of bound
  variables comes back to itself.  Structures may still contain themselves through a variable.

    * `Heap.Good` is the invariant; every run of the machine keeps it.
    * `Heap.deref_bound` and `Heap.deref_free` open `deref` one link at a time, so that no proof
      has to look at its bound on the length of a chain.
    * `Heap.Part`: what a value consists of.
    * `Heap.Good.set` is the one way in which a search binds a variable.
-/
import PrologMachine.Heap.Basic
import Mathlib

namespace PrologMachine

namespace Heap

variable {h : Heap} {v w : VarId} {s : StructId} {t u : Value}

/-! ## §1. Values that exist. -/

/-- The value refers to a cell of the heap. -/
def Holds (h : Heap) : Value → Prop
  | .var v => v < h.vars.size
  | .struct s => s < h.structs.size
  | .const _ => True
  | .absent => False

@[simp] theorem holds_var : h.Holds (.var v) ↔ v < h.vars.size := Iff.rfl

@[simp] theorem holds_struct : h.Holds (.struct s) ↔ s < h.structs.size := Iff.rfl

@[simp] theorem holds_const {c : Constant} : h.Holds (.const c) := trivial

@[simp] theorem not_holds_absent : ¬ h.Holds .absent := id

/-- Values keep existing while a heap grows. -/
theorem Holds.mono {h' : Heap} (ht : h.Holds t) (hv : h.vars.size ≤ h'.vars.size)
    (hs : h.structs.size ≤ h'.structs.size) : h'.Holds t := by
  cases t with
  | var v => exact Nat.lt_of_lt_of_le ht hv
  | struct s => exact Nat.lt_of_lt_of_le ht hs
  | const c => trivial
  | absent => exact ht

/-- A variable that does not exist is not bound. -/
theorem binding?_eq_none (hv : h.vars.size ≤ v) : h.binding? v = none := by
  simp [binding?, varCell, Array.getElem?_eq_none hv]

/-- A variable that is bound exists. -/
theorem lt_size_of_binding? (hv : h.binding? v = some t) : v < h.vars.size := by
  by_contra hn
  rw [binding?_eq_none (Nat.le_of_not_lt hn)] at hv
  exact absurd hv (by simp)

/-! ## §2. Good shape. -/

/-- Every link from one variable to another goes down in rank. -/
def Descends (h : Heap) (rank : VarId → Nat) : Prop :=
  ∀ v w, h.binding? v = some (.var w) → rank w < rank v

/-- The heap refers to its own cells only, and chains of variables end. -/
structure Good (h : Heap) : Prop where
  /-- Variables are bound to values that exist. -/
  bindings : ∀ v t, h.binding? v = some t → h.Holds t
  /-- Structures have arguments that exist. -/
  args : ∀ s, ∀ t ∈ (h.structCell s).args, h.Holds t
  /-- No chain of variables comes back to itself. -/
  acyclic : ∃ rank, h.Descends rank

/-- The empty heap is in good shape, whatever numbers it has handed out. -/
theorem good_empty (constants numbered : Nat) : Good { constants, numbered } where
  bindings v t hv := by simp [binding?, varCell] at hv
  args s t ht := by simp [structCell] at ht
  acyclic := ⟨fun _ => 0, fun v w hv => by simp [binding?, varCell] at hv⟩

/-! ## §3. Following chains. -/

/-- The bound variables that a chain from a variable can visit; it has no more links. -/
private def below (h : Heap) (rank : VarId → Nat) (v : VarId) : Finset Nat :=
  (Finset.range h.vars.size).filter (fun u => h.isBound u ∧ rank u ≤ rank v)

/-- There are no more variables below one than there are variables. -/
private theorem card_below_le (h : Heap) (rank : VarId → Nat) (v : VarId) :
    (h.below rank v).card ≤ h.vars.size := by
  calc (h.below rank v).card ≤ (Finset.range h.vars.size).card := Finset.card_filter_le _ _
    _ = h.vars.size := Finset.card_range _

/-- A bound variable is below itself. -/
private theorem mem_below (rank : VarId → Nat) (hv : h.binding? v = some t) :
    v ∈ h.below rank v :=
  Finset.mem_filter.2
    ⟨Finset.mem_range.2 (lt_size_of_binding? hv), by rw [isBound, hv]; rfl, Nat.le_refl _⟩

/-- A step along a chain leaves a variable behind. -/
private theorem card_below_lt {rank : VarId → Nat} (hr : h.Descends rank)
    (hv : h.binding? v = some (.var w)) : (h.below rank w).card < (h.below rank v).card := by
  have hlt : rank w < rank v := hr v w hv
  refine Finset.card_lt_card ⟨fun u hu => ?_, fun hsub => ?_⟩
  · simp only [below, Finset.mem_filter] at hu ⊢
    exact ⟨hu.1, hu.2.1, hu.2.2.trans hlt.le⟩
  · have hmem := hsub (mem_below rank hv)
    simp only [below, Finset.mem_filter] at hmem
    omega

/-- With enough steps and an origin that is not met again, a chase does not depend on either. -/
private theorem chase_eq {rank : VarId → Nat} (hr : h.Descends rank) :
    ∀ (n n' : Nat) (o o' v : VarId), (h.below rank v).card ≤ n → (h.below rank v).card ≤ n' →
      rank v ≤ rank o → rank v ≤ rank o' → h.chase o n v = h.chase o' n' v := by
  intro n
  induction n with
  | zero =>
    intro n' o o' v hn _ _ _
    -- The fuel is never used up, since every step leaves a variable behind.
    cases hv : h.binding? v with
    | none => cases n' <;> simp [chase, hv]
    | some t =>
      have := Finset.card_pos.2 ⟨v, mem_below rank hv⟩
      omega
  | succ n ih =>
    intro n' o o' v hn hn' ho ho'
    cases hv : h.binding? v with
    | none => cases n' <;> simp [chase, hv]
    | some t =>
      have hpos := Finset.card_pos.2 ⟨v, mem_below rank hv⟩
      obtain ⟨n', rfl⟩ : ∃ k, n' = k + 1 := ⟨n' - 1, by omega⟩
      cases t with
      | var w =>
        have hlt : rank w < rank v := hr v w hv
        have hcard := card_below_lt hr hv
        have hwo : w ≠ o := by rintro rfl; omega
        have hwo' : w ≠ o' := by rintro rfl; omega
        simp only [chase, hv, hwo, hwo', if_false]
        exact ih n' o o' w (by omega) (by omega) (by omega) (by omega)
      | const c => simp [chase, hv]
      | struct s => simp [chase, hv]
      | absent => simp [chase, hv]

@[simp] theorem deref_const {c : Constant} : h.deref (.const c) = .const c := rfl

@[simp] theorem deref_struct : h.deref (.struct s) = .struct s := rfl

@[simp] theorem deref_absent : h.deref .absent = .absent := rfl

/-- An unbound variable stands for itself. -/
theorem deref_free (hv : h.binding? v = none) : h.deref (.var v) = .var v := by
  simp [deref, chase, hv]

/-- **A bound variable stands for what its value stands for**, where chains of variables end. -/
theorem Descends.deref_bound {rank : VarId → Nat} (hr : h.Descends rank)
    (hv : h.binding? v = some t) : h.deref (.var v) = h.deref t := by
  cases t with
  | var w =>
    have hlt : rank w < rank v := hr v w hv
    have hwv : w ≠ v := by rintro rfl; omega
    have hcard := card_below_lt hr hv
    have hle := card_below_le h rank v
    have hstep : h.chase v (h.vars.size + 1) v = h.chase v h.vars.size w := by
      simp [chase, hv, hwv]
    show h.chase v (h.vars.size + 1) v = h.chase w (h.vars.size + 1) w
    rw [hstep]
    exact chase_eq hr _ _ v w w (by omega) (by omega) hlt.le le_rfl
  | const c => simp [deref, chase, hv]
  | struct s => simp [deref, chase, hv]
  | absent => simp [deref, chase, hv]

/-- A bound variable ends where its binding ends. -/
theorem deref_bound (hg : h.Good) (hv : h.binding? v = some t) :
    h.deref (.var v) = h.deref t :=
  have ⟨_, hr⟩ := hg.acyclic
  hr.deref_bound hv

/-- Induction along chains: what holds of unbound variables and of values that are no variables,
    and passes from a value to the variables bound to it, holds of all values. -/
theorem Descends.chain_induction {rank : VarId → Nat} (hr : h.Descends rank) {P : Value → Prop}
    (free : ∀ v, h.binding? v = none → P (.var v))
    (bound : ∀ v t, h.binding? v = some t → P t → P (.var v))
    (const : ∀ c, P (.const c)) (struct : ∀ s, P (.struct s)) (absent : P .absent) :
    ∀ t, P t := by
  -- By strong induction on the rank of a variable, since a chain goes down in rank.
  have hvar : ∀ n v, rank v = n → P (.var v) := by
    intro n
    induction n using Nat.strong_induction_on with
    | _ n ih =>
      rintro v rfl
      cases hv : h.binding? v with
      | none => exact free v hv
      | some t =>
        refine bound v t hv ?_
        cases t with
        | var w => exact ih (rank w) (hr v w hv) w rfl
        | const c => exact const c
        | struct s => exact struct s
        | absent => exact absent
  intro t
  cases t with
  | var v => exact hvar _ v rfl
  | const c => exact const c
  | struct s => exact struct s
  | absent => exact absent

/-- The same in a heap in good shape. -/
theorem Good.chain_induction (hg : h.Good) {P : Value → Prop}
    (free : ∀ v, h.binding? v = none → P (.var v))
    (bound : ∀ v t, h.binding? v = some t → P t → P (.var v))
    (const : ∀ c, P (.const c)) (struct : ∀ s, P (.struct s)) (absent : P .absent) (t : Value) :
    P t :=
  have ⟨_, hr⟩ := hg.acyclic
  hr.chain_induction free bound const struct absent t

/-- What a value stands for exists. -/
theorem Good.holds_deref (hg : h.Good) (ht : h.Holds t) : h.Holds (h.deref t) := by
  induction t using hg.chain_induction with
  | free v hv => simpa [deref_free hv] using ht
  | bound v t hv ih => simpa [deref_bound hg hv] using ih (hg.bindings v t hv)
  | const c => trivial
  | struct s => exact ht
  | absent => exact ht

/-- A value never stands for a bound variable, where chains of variables end. -/
theorem Descends.binding?_of_deref {rank : VarId → Nat} (hr : h.Descends rank)
    (ht : h.deref t = .var v) : h.binding? v = none := by
  induction t using hr.chain_induction with
  | free w hw =>
    rw [deref_free hw] at ht
    obtain rfl := Value.var.inj ht
    exact hw
  | bound w t hw ih => exact ih (by rwa [hr.deref_bound hw] at ht)
  | const c => simp at ht
  | struct s => simp at ht
  | absent => simp at ht

/-- The end of a chain is its own end. -/
theorem Descends.deref_deref {rank : VarId → Nat} (hr : h.Descends rank) (t : Value) :
    h.deref (h.deref t) = h.deref t := by
  cases hd : h.deref t with
  | var v => exact deref_free (hr.binding?_of_deref hd)
  | const c => rfl
  | struct s => rfl
  | absent => rfl

/-- A chain that ends in a variable ends in an unbound one. -/
theorem Good.binding?_of_deref (hg : h.Good) (ht : h.deref t = .var v) : h.binding? v = none :=
  have ⟨_, hr⟩ := hg.acyclic
  hr.binding?_of_deref ht

/-- The end of a chain is its own end. -/
theorem Good.deref_deref (hg : h.Good) (t : Value) : h.deref (h.deref t) = h.deref t :=
  have ⟨_, hr⟩ := hg.acyclic
  hr.deref_deref t

/-! ## §4. What a value consists of. -/

/-- The values that `t` consists of: itself, what bound variables in it stand for, and the arguments
    of structures in it. -/
inductive Part (h : Heap) (t : Value) : Value → Prop where
  /-- The value itself. -/
  | whole : Part h t t
  /-- The value of a bound variable. -/
  | bound {v : VarId} {u : Value} (hv : Part h t (.var v)) (hu : h.binding? v = some u) : Part h t u
  /-- An argument. -/
  | arg {s : StructId} {u : Value} (hs : Part h t (.struct s)) (hu : u ∈ (h.structCell s).args) :
    Part h t u

/-- A part of what is in the heap is in the heap. -/
theorem Part.holds (hg : h.Good) (ht : h.Holds t) (hu : h.Part t u) : h.Holds u := by
  cases hu with
  | whole => exact ht
  | bound _ hv => exact hg.bindings _ _ hv
  | arg _ ha => exact hg.args _ _ ha

/-- What `u` consists of is part of what contains `u`. -/
theorem Part.trans {a : Value} (hu : h.Part t u) (ha : h.Part u a) : h.Part t a := by
  induction ha with
  | whole => exact hu
  | bound _ hv ih => exact ih.bound hv
  | arg _ ha ih => exact ih.arg ha

end Heap

end PrologMachine
