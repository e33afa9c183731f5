/-
  PrologMachine.Proofs.Heap.Change ── **WHAT THE HEAP OPERATIONS CHANGE.**

  Each operation on a heap is described by what it does to the three things that the machine looks
  at: how many cells there are, what a variable is bound to, and what a structure consists of.

    * Making a cell leaves the old cells alone and keeps the heap in good shape.
    * `Descends.set`, `Good.set`: binding an unbound variable to a value that has been followed to its
      end.
    * `Descends.reset`, `Good.reset`: taking a binding back.
-/
import PrologMachine.Proofs.Heap.Shape

namespace PrologMachine

namespace Heap

variable {h : Heap} {u v w : VarId} {s s' : StructId} {t : Value}

/-! ## §1. Making cells. -/

@[simp] theorem vars_size_newVar {name : String} {id : Int} :
    (h.newVar name id).2.vars.size = h.vars.size + 1 := by simp [newVar]

@[simp] theorem structs_newVar {name : String} {id : Int} :
    (h.newVar name id).2.structs = h.structs := rfl

@[simp] theorem structCell_newVar {name : String} {id : Int} :
    (h.newVar name id).2.structCell s = h.structCell s := rfl

@[simp] theorem binding?_newVar {name : String} {id : Int} :
    (h.newVar name id).2.binding? v = h.binding? v := by
  rcases Nat.lt_trichotomy v h.vars.size with hv | hv | hv
  · simp [newVar, binding?, varCell, Array.getElem?_push, Nat.ne_of_lt hv]
  · subst hv; simp [newVar, binding?, varCell]
  · rw [binding?_eq_none (by simp; omega), binding?_eq_none (by omega)]

@[simp] theorem fresh_fst {name : String} : (h.fresh name).1 = h.vars.size := rfl

@[simp] theorem vars_size_fresh {name : String} :
    (h.fresh name).2.vars.size = h.vars.size + 1 := vars_size_newVar

@[simp] theorem structs_fresh {name : String} : (h.fresh name).2.structs = h.structs := rfl

@[simp] theorem structCell_fresh {name : String} :
    (h.fresh name).2.structCell s = h.structCell s := rfl

@[simp] theorem binding?_fresh {name : String} : (h.fresh name).2.binding? v = h.binding? v :=
  binding?_newVar

@[simp] theorem newStruct_fst {name : String} {args : List Value} {attrs : Attrs} :
    (h.newStruct name args attrs).1 = h.structs.size := rfl

@[simp] theorem vars_newStruct {name : String} {args : List Value} {attrs : Attrs} :
    (h.newStruct name args attrs).2.vars = h.vars := rfl

@[simp] theorem structs_size_newStruct {name : String} {args : List Value} {attrs : Attrs} :
    (h.newStruct name args attrs).2.structs.size = h.structs.size + 1 := by simp [newStruct]

@[simp] theorem binding?_newStruct {name : String} {args : List Value} {attrs : Attrs} :
    (h.newStruct name args attrs).2.binding? v = h.binding? v := rfl

/-- The structures after one is made. -/
theorem structCell_newStruct {name : String} {args : List Value} {attrs : Attrs} :
    (h.newStruct name args attrs).2.structCell s =
      if s = h.structs.size then ⟨name, args, attrs⟩ else h.structCell s := by
  simp only [newStruct, structCell, Array.getElem?_push]
  split <;> rfl

@[simp] theorem newConst_fst {a : Atomic} : (h.newConst a).1 = ⟨a, .heap h.constants⟩ := rfl

@[simp] theorem vars_newConst {a : Atomic} : (h.newConst a).2.vars = h.vars := rfl

@[simp] theorem structs_newConst {a : Atomic} : (h.newConst a).2.structs = h.structs := rfl

@[simp] theorem binding?_newConst {a : Atomic} : (h.newConst a).2.binding? v = h.binding? v := rfl

@[simp] theorem structCell_newConst {a : Atomic} :
    (h.newConst a).2.structCell s = h.structCell s := rfl

/-! ## §2. Changing cells. -/

@[simp] theorem vars_pushArg : (h.pushArg s t).vars = h.vars := rfl

@[simp] theorem structs_size_pushArg : (h.pushArg s t).structs.size = h.structs.size := by
  simp [pushArg]

@[simp] theorem binding?_pushArg : (h.pushArg s t).binding? v = h.binding? v := rfl

/-- Other structures do not get the argument. -/
theorem structCell_pushArg_of_ne (hs : s' ≠ s) :
    (h.pushArg s t).structCell s' = h.structCell s' := by
  simp [pushArg, structCell, Array.getElem?_modify, hs.symm]

/-- The argument is put behind the others. -/
theorem structCell_pushArg_self (hs : s < h.structs.size) :
    (h.pushArg s t).structCell s =
      { h.structCell s with args := (h.structCell s).args ++ [t] } := by
  simp [pushArg, structCell, Array.getElem_modify, hs]

@[simp] theorem structs_set : (h.set v t).structs = h.structs := rfl

@[simp] theorem structCell_set : (h.set v t).structCell s = h.structCell s := rfl

@[simp] theorem vars_size_set : (h.set v t).vars.size = h.vars.size := by simp [set]

/-- The bindings after a variable is bound. -/
theorem binding?_set (hv : v < h.vars.size) :
    (h.set v t).binding? u = if u = v then some t else h.binding? u := by
  by_cases huv : u = v
  · subst huv; simp [set, binding?, varCell, Array.getElem_modify, hv]
  · simp [set, binding?, varCell, Array.getElem?_modify, huv, Ne.symm huv]

/-- There is nothing to bind where there is no cell. -/
theorem binding?_set_of_le (hv : h.vars.size ≤ v) : (h.set v t).binding? u = h.binding? u := by
  rcases Nat.lt_or_ge u h.vars.size with hu | hu
  · have huv : v ≠ u := Nat.ne_of_gt (Nat.lt_of_lt_of_le hu hv)
    simp [set, binding?, varCell, Array.getElem?_modify, huv]
  · rw [binding?_eq_none hu, binding?_eq_none (by simpa using hu)]

@[simp] theorem structs_reset : (h.reset v).structs = h.structs := rfl

@[simp] theorem structCell_reset : (h.reset v).structCell s = h.structCell s := rfl

@[simp] theorem vars_size_reset : (h.reset v).vars.size = h.vars.size := by simp [reset]

/-- The bindings after a variable is unbound. -/
theorem binding?_reset : (h.reset v).binding? u = if u = v then none else h.binding? u := by
  by_cases huv : u = v
  · subst huv
    by_cases hu : u < h.vars.size
    · simp [reset, binding?, varCell, Array.getElem_modify, hu]
    · rw [binding?_eq_none (by simpa using hu)]; simp
  · simp [reset, binding?, varCell, Array.getElem?_modify, huv, Ne.symm huv]

@[simp] theorem structs_resetAll {vs : List VarId} : (h.resetAll vs).structs = h.structs := by
  induction vs generalizing h with
  | nil => rfl
  | cons v vs ih => exact ih (h := h.reset v)

@[simp] theorem vars_size_resetAll {vs : List VarId} :
    (h.resetAll vs).vars.size = h.vars.size := by
  induction vs generalizing h with
  | nil => rfl
  | cons v vs ih =>
    show ((h.reset v).resetAll vs).vars.size = _
    rw [ih, vars_size_reset]

/-- The bindings after several are. -/
theorem binding?_resetAll {vs : List VarId} :
    (h.resetAll vs).binding? u = if u ∈ vs then none else h.binding? u := by
  induction vs generalizing h with
  | nil => simp [resetAll]
  | cons v vs ih =>
    show ((h.reset v).resetAll vs).binding? u = _
    rw [ih, binding?_reset]
    by_cases huv : u = v <;> by_cases hm : u ∈ vs <;> simp [huv, hm]

@[simp] theorem structCell_resetAll {vs : List VarId} :
    (h.resetAll vs).structCell s = h.structCell s := by
  simp [structCell]

/-! ## §3. Good shape is kept. -/

/-- A new variable leaves the heap in good shape. -/
theorem Good.newVar (hg : h.Good) (name : String) (id : Int) : (h.newVar name id).2.Good where
  bindings v t hv := (hg.bindings v t (by simpa using hv)).mono (by simp) (by simp)
  args s t ht := (hg.args s t (by simpa using ht)).mono (by simp) (by simp)
  acyclic := hg.acyclic.imp fun rank hr v w hv => hr v w (by simpa using hv)

theorem Good.fresh (hg : h.Good) (name : String) : (h.fresh name).2.Good :=
  have hgood : { h with numbered := h.numbered + 1 }.Good := ⟨hg.bindings, hg.args, hg.acyclic⟩
  hgood.newVar name _

/-- A new structure over values of the heap. -/
theorem Good.newStruct (hg : h.Good) (name : String) {args : List Value} {attrs : Attrs}
    (hargs : ∀ t ∈ args, h.Holds t) : (h.newStruct name args attrs).2.Good where
  bindings v t hv := (hg.bindings v t hv).mono (by simp) (by simp)
  args s t ht := by
    rw [structCell_newStruct] at ht
    split at ht
    · exact (hargs t ht).mono (by simp) (by simp)
    · exact (hg.args s t ht).mono (by simp) (by simp)
  acyclic := hg.acyclic

theorem Good.newConst (hg : h.Good) (a : Atomic) : (h.newConst a).2.Good where
  bindings v t hv := (hg.bindings v t (by simpa using hv)).mono (by simp) (by simp)
  args s t ht := (hg.args s t (by simpa using ht)).mono (by simp) (by simp)
  acyclic := hg.acyclic.imp fun rank hr v w hv => hr v w (by simpa using hv)

theorem Good.pushArg (hg : h.Good) (ht : h.Holds t) (s : StructId) : (h.pushArg s t).Good where
  bindings v t hv := (hg.bindings v t (by simpa using hv)).mono (by simp) (by simp)
  args s' t' ht' := by
    by_cases hss : s' = s
    · subst hss
      by_cases hs : s' < h.structs.size
      · rw [structCell_pushArg_self hs] at ht'
        rcases List.mem_append.1 ht' with hmem | hmem
        · exact (hg.args s' t' hmem).mono (by simp) (by simp)
        · obtain rfl : t' = t := by simpa using hmem
          exact ht.mono (by simp) (by simp)
      · simp [structCell, Heap.pushArg, hs] at ht'
    · rw [structCell_pushArg_of_ne hss] at ht'
      exact (hg.args s' t' ht').mono (by simp) (by simp)
  acyclic := hg.acyclic.imp fun rank hr v w hv => hr v w (by simpa using hv)

/-- **Binding an unbound variable to a value at the end of its chain** makes no chain come back.
    The variables whose chain ended in `v` are lifted above the value. -/
theorem Descends.set {rank : VarId → Nat} (hr : h.Descends rank) (hv : h.binding? v = none)
    (hne : t ≠ .var v) (hend : h.deref t = t) : ∃ rank', (h.set v t).Descends rank' := by
  rcases Nat.lt_or_ge v h.vars.size with hlt | hge
  swap
  · exact ⟨rank, fun u w hu => hr u w (by rwa [binding?_set_of_le hge] at hu)⟩
  classical
  -- Chains that lead to the variable are lifted above the end of the new link.
  obtain ⟨top, htop⟩ : ∃ top, ∀ w, t = .var w → rank w < top := by
    cases t with
    | var w => exact ⟨rank w + 1, fun w' hw' => by simp_all⟩
    | struct s => exact ⟨0, nofun⟩
    | const c => exact ⟨0, nofun⟩
    | absent => exact ⟨0, nofun⟩
  refine ⟨fun u => rank u + if h.deref (.var u) = .var v then top else 0, fun u w hu => ?_⟩
  rw [binding?_set hlt] at hu
  by_cases huv : u = v
  · -- The new link: its target does not lead to `v`, and `v` is lifted above it.
    subst huv
    obtain rfl : t = .var w := by simpa using hu
    have hw : ¬ h.deref (.var w) = .var u := by rw [hend]; exact hne
    simp only [hw, if_false, deref_free hv, if_true]
    have hw := htop w rfl
    omega
  · -- An old link: both ends lead to the same place, so both are lifted or neither is.
    rw [if_neg huv] at hu
    have hsame : h.deref (.var u) = h.deref (.var w) := hr.deref_bound hu
    have hlt := hr u w hu
    show rank w + _ < rank u + _
    rw [hsame]
    omega

/-- Taking a binding back takes a link away. -/
theorem Descends.reset {rank : VarId → Nat} (hr : h.Descends rank) (v : VarId) :
    (h.reset v).Descends rank := fun u w hu => by
  rw [binding?_reset] at hu
  split at hu
  · simp at hu
  · exact hr u w hu

/-- Binding an unbound variable to a value at the end of its chain. -/
theorem Good.set (hg : h.Good) (hv : h.binding? v = none) (hlt : v < h.vars.size)
    (ht : h.Holds t) (hne : t ≠ .var v) (hend : h.deref t = t) : (h.set v t).Good where
  bindings u t' hu := by
    rw [binding?_set hlt] at hu
    refine Holds.mono ?_ (by simp : h.vars.size ≤ _) (by simp : h.structs.size ≤ _)
    split at hu
    · obtain rfl := Option.some.inj hu
      exact ht
    · exact hg.bindings u t' hu
  args s t' ht' := (hg.args s t' (by simpa using ht')).mono (by simp) (by simp)
  acyclic :=
    have ⟨_, hr⟩ := hg.acyclic
    hr.set hv hne hend

/-- Unbinding a variable leaves the heap in good shape. -/
theorem Good.reset (hg : h.Good) (v : VarId) : (h.reset v).Good where
  bindings u t hu := by
    rw [binding?_reset] at hu
    split at hu
    · simp at hu
    · exact (hg.bindings u t hu).mono (by simp) (by simp)
  args s t ht := (hg.args s t (by simpa using ht)).mono (by simp) (by simp)
  acyclic := hg.acyclic.imp fun _ hr => hr.reset v

theorem Good.resetAll (hg : h.Good) (vs : List VarId) : (h.resetAll vs).Good := by
  induction vs generalizing h with
  | nil => exact hg
  | cons v vs ih => exact ih (hg.reset v)

end Heap

end PrologMachine
