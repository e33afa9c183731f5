/-
  PrologMachine.Proofs.Heap.Growth ── **CELLS THAT STAY.**

  A goal makes cells and binds some of those that were there; when it is given up, its bindings are
  undone.

    * `Heap.Grown`: all cells but the variables in a list are what they were, beside new ones.
    * `Grown.trans`, `Grown.set`, `Grown.resetAll`: one change after the other, binding, unbinding.
-/
import PrologMachine.Proofs.Heap.Change

namespace PrologMachine

namespace Heap

variable {h h' h'' : Heap} {v : VarId} {vs : List VarId} {u : Value} {t : Term}

theorem binding?_set_of_ne {v' : VarId} (hne : v' ≠ v) : (h.set v u).binding? v' = h.binding? v' := by
  simp [Heap.set, binding?, varCell, Array.getElem?_modify, Ne.symm hne]

theorem structCell_of_get {s : StructId} {cell : StructCell} (hs : h.structs[s]? = some cell) :
    h.structCell s = cell := by
  simp [structCell, hs]

/-- The cells of `h` are what they were but for the variables in `vs`, beside new ones. -/
structure Grown (vs : List VarId) (h h' : Heap) : Prop where
  /-- Variables are not lost. -/
  size : h.vars.size ≤ h'.vars.size
  /-- They have the values they had. -/
  bindings : ∀ v < h.vars.size, v ∉ vs → h'.binding? v = h.binding? v
  /-- Structures are what they were. -/
  structs : ∀ (s : StructId) cell, h.structs[s]? = some cell → h'.structs[s]? = some cell

namespace Grown

protected theorem refl (vs : List VarId) (h : Heap) : Grown vs h h :=
  ⟨le_rfl, fun _ _ _ => rfl, fun _ _ h => h⟩

theorem mono {vs' : List VarId} (hg : Grown vs h h') (hvs : vs ⊆ vs') : Grown vs' h h' :=
  ⟨hg.size, fun v hv hnot => hg.bindings v hv fun hin => hnot (hvs hin), hg.structs⟩

/-- The second change may concern variables that were new after the first. -/
protected theorem trans {vs' : List VarId} (h₁ : Grown vs h h') (h₂ : Grown vs' h' h'')
    (hvs : ∀ v ∈ vs', v ∈ vs ∨ h.vars.size ≤ v) : Grown vs h h'' where
  size := h₁.size.trans h₂.size
  bindings v hv hvs' := by
    have hnot : v ∉ vs' := fun hin => (hvs v hin).elim hvs' (Nat.not_le.2 hv)
    exact (h₂.bindings v (hv.trans_le h₁.size) hnot).trans (h₁.bindings v hv hvs')
  structs s cell hs := h₂.structs s cell (h₁.structs s cell hs)

/-- A variable in `vs` or a new one is bound. -/
theorem set (hg : Grown vs h h') (hv : v ∈ vs ∨ h.vars.size ≤ v) : Grown vs h (h'.set v u) where
  size := by rw [vars_size_set]; exact hg.size
  bindings v' hv' hvs := by
    have hne : v' ≠ v := by
      rintro rfl
      exact hv.elim hvs (Nat.not_le.2 hv')
    rw [binding?_set_of_ne hne]
    exact hg.bindings v' hv' hvs
  structs := hg.structs

/-- Cells that were there are the same cells. -/
theorem of_cells (hvars : ∀ v < h.vars.size, h'.vars[v]? = h.vars[v]?)
    (hstructs : ∀ (s : StructId) cell, h.structs[s]? = some cell → h'.structs[s]? = some cell) :
    Grown vs h h' where
  size := by
    by_contra hsize
    have hlast := hvars h'.vars.size (Nat.not_le.1 hsize)
    rw [Array.getElem?_size, Array.getElem?_eq_getElem (Nat.not_le.1 hsize)] at hlast
    cases hlast
  bindings v hv _ := by simp only [binding?, varCell, hvars v hv]
  structs := hstructs

/-- All that was bound is unbound again. -/
theorem resetAll {us : List VarId} (hg : Grown vs h h') (hfree : ∀ v ∈ vs, h.binding? v = none)
    (hvs : ∀ v ∈ vs, v ∈ us) (hus : ∀ v ∈ us, v ∈ vs ∨ h.vars.size ≤ v) :
    Grown [] h (h'.resetAll us) where
  size := by rw [vars_size_resetAll]; exact hg.size
  bindings v hv _ := by
    rw [binding?_resetAll]
    by_cases hmem : v ∈ vs
    · rw [if_pos (hvs v hmem), hfree v hmem]
    · rw [if_neg fun hin => (hus v hin).elim hmem (Nat.not_le.2 hv)]
      exact hg.bindings v hv hmem
  structs s cell hs := by rw [structs_resetAll]; exact hg.structs s cell hs

end Grown

end Heap

end PrologMachine
