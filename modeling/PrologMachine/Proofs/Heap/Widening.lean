/-
  PrologMachine.Proofs.Heap.Widening ── **HEAPS THAT GET NEW CELLS.**

  While code prepares something, the heap gets new cells: variables that are not bound yet, and
  structures.  All that could be asked of a value before has the same answer afterwards.

    * `Heap.Widens`: the second heap is the first one with new cells.
    * `Heap.Widens.deref`, `Heap.Widens.text`: what a value stands for, and how it is written.
-/
import PrologMachine.Proofs.Heap.Change
import PrologMachine.Proofs.Heap.Writing

namespace PrologMachine

namespace Heap

variable {h h' h'' : Heap} {v : VarId} {s : StructId} {t u : Value}

/-! ## §1. New cells. -/

/-- Values stand for the same when the same is bound. -/
theorem deref_of_same (hg : h.Good) (hg' : h'.Good) (hsame : ∀ v, h'.binding? v = h.binding? v)
    (t : Value) : h'.deref t = h.deref t := by
  induction t using hg.chain_induction with
  | free v hv => rw [deref_free hv, deref_free ((hsame v).trans hv)]
  | bound v t hv ih => rw [deref_bound hg hv, deref_bound hg' ((hsame v).trans hv), ih]
  | const c => rfl
  | struct s => rfl
  | absent => rfl

/-- The second heap has the cells of the first one, as they were, and new ones.  New variables are
    not bound. -/
structure Widens (h h' : Heap) : Prop where
  /-- Variables stay. -/
  vars : h.vars.size ≤ h'.vars.size
  /-- Structures stay. -/
  structs : h.structs.size ≤ h'.structs.size
  /-- Variables are what they were. -/
  varCell : ∀ v < h.vars.size, h'.varCell v = h.varCell v
  /-- Structures are what they were. -/
  structCell : ∀ s < h.structs.size, h'.structCell s = h.structCell s
  /-- New variables are unbound. -/
  unbound : ∀ v, h.vars.size ≤ v → h'.binding? v = none

namespace Widens

protected theorem refl (h : Heap) : h.Widens h :=
  ⟨Nat.le_refl _, Nat.le_refl _, fun _ _ => rfl, fun _ _ => rfl, fun _ => binding?_eq_none⟩

/-- New cells bind nothing. -/
theorem binding? (hw : h.Widens h') (v : VarId) : h'.binding? v = h.binding? v := by
  by_cases hv : v < h.vars.size
  · rw [Heap.binding?, hw.varCell v hv, Heap.binding?]
  · rw [hw.unbound v (Nat.le_of_not_lt hv), binding?_eq_none (Nat.le_of_not_lt hv)]

protected theorem trans (hw : h.Widens h') (hw' : h'.Widens h'') : h.Widens h'' where
  vars := hw.vars.trans hw'.vars
  structs := hw.structs.trans hw'.structs
  varCell v hv := (hw'.varCell v (hv.trans_le hw.vars)).trans (hw.varCell v hv)
  structCell s hs := (hw'.structCell s (hs.trans_le hw.structs)).trans (hw.structCell s hs)
  unbound v hv := (hw'.binding? v).trans (hw.unbound v hv)

theorem fresh (h : Heap) (name : String) : h.Widens (h.fresh name).2 where
  vars := by simp
  structs := by simp
  varCell v hv := by
    simp [Heap.varCell, Heap.fresh, newVar, Array.getElem?_push, Nat.ne_of_lt hv]
  structCell _ _ := rfl
  unbound v hv := by rw [binding?_fresh, binding?_eq_none hv]

theorem newStruct (h : Heap) (name : String) (args : List Value) (attrs : Attrs) :
    h.Widens (h.newStruct name args attrs).2 where
  vars := by simp
  structs := by simp
  varCell _ _ := rfl
  structCell s hs := by rw [structCell_newStruct, if_neg (Nat.ne_of_lt hs)]
  unbound v hv := by rw [binding?_newStruct, binding?_eq_none hv]

theorem newConst (h : Heap) (a : Atomic) : h.Widens (h.newConst a).2 :=
  ⟨Nat.le_refl _, Nat.le_refl _, fun _ _ => rfl, fun _ _ => rfl, fun _ => binding?_eq_none⟩

/-- A new structure may still get arguments. -/
theorem pushArg (hw : h.Widens h') (hs : h.structs.size ≤ s) (t : Value) :
    h.Widens (h'.pushArg s t) where
  vars := hw.vars
  structs := by simpa using hw.structs
  varCell := hw.varCell
  structCell s' hs' := by
    rw [structCell_pushArg_of_ne (Nat.ne_of_lt (hs'.trans_le hs)), hw.structCell s' hs']
  unbound v hv := by rw [binding?_pushArg, hw.unbound v hv]

/-! ## §2. Old values. -/

/-- A value stands for what it stood for. -/
theorem deref (hw : h.Widens h') (hg : h.Good) (hg' : h'.Good) (t : Value) :
    h'.deref t = h.deref t :=
  deref_of_same hg hg' hw.binding? t

/-- Chains end where they ended. -/
theorem ends (hw : h.Widens h') (hg : h.Good) (ht : h.Holds t) (hend : h.Ends t u) :
    h'.Ends t u ∧ h.Holds u := by
  induction hend with
  | free hv => exact ⟨.free ((hw.binding? _).trans hv), ht⟩
  | bound hv _ ih =>
    obtain ⟨hend, hu⟩ := ih (hg.bindings _ _ hv)
    exact ⟨.bound ((hw.binding? _).trans hv) hend, hu⟩
  | const => exact ⟨.const, ht⟩
  | struct => exact ⟨.struct, ht⟩
  | absent => exact ht.elim

theorem cell? (hw : h.Widens h') (hs : s < h.structs.size) : h'.cell? s = h.cell? s := by
  rw [Heap.cell?, hw.structCell s hs, Heap.cell?]

end Widens

/-- The values of a task exist. -/
def Task.Held (h : Heap) : Task → Prop
  | .value t => h.Holds t
  | .root u => h.Holds u
  | .rest ts => ∀ t ∈ ts, h.Holds t
  | .tail _ u => h.Holds u

namespace Widens

/-- **The writer does what it did.** -/
theorem writes (hw : h.Widens h') (hg : h.Good) {mark : Option (List Char)}
    {O O' : Finset StructId} {k : Task} {cs : List Char} (hrun : h.Writes mark O k cs O')
    (hk : k.Held h) : h'.Writes mark O k cs O' := by
  have hpair {s : StructId} {x xs : Value} (hcell : h.cell? s = some (x, xs)) :
      h.Holds x ∧ h.Holds xs := by
    have hall := hg.args s
    rw [(cell?_eq_some.1 hcell).2] at hall
    exact ⟨hall x (by simp), hall xs (by simp)⟩
  -- By the run of the writer, which looks at old cells only.
  induction hrun with
  | value hend _ ih =>
    obtain ⟨hend', hu⟩ := hw.ends hg hk hend
    exact .value hend' (ih hu)
  | absent => exact hk.elim
  | var => rw [← hw.varCell _ hk]; exact .var
  | const => exact .const
  | again hs hmark => exact .again hs hmark
  | list hs hcell _ hend _ ihx ihxs =>
    obtain ⟨hx, hxs⟩ := hpair hcell
    obtain ⟨hend', hu⟩ := hw.ends hg hxs hend
    exact .list hs ((hw.cell? hk).trans hcell) (ihx hx) hend' (ihxs hu)
  | atom hs hargs =>
    rw [← hw.structCell _ hk] at hargs ⊢
    exact .atom hs hargs
  | @compound _ _ _ s _ _ _ _ hs hcell hargs _ _ ihx ihxs =>
    have hall := hg.args s
    rw [hargs] at hall
    rw [← hw.structCell s hk] at hargs ⊢
    exact .compound hs ((hw.cell? hk).trans hcell) hargs (ihx (hall _ List.mem_cons_self))
      (ihxs fun y hy => hall y (List.mem_cons_of_mem _ hy))
  | restNil => exact .restNil
  | restCons _ _ ihx ihxs =>
    exact .restCons (ihx (hk _ List.mem_cons_self))
      (ihxs fun y hy => hk y (List.mem_cons_of_mem _ hy))
  | tailAgain hs hcell hmark => exact .tailAgain hs ((hw.cell? hk).trans hcell) hmark
  | tailCell hs hcell _ hend _ ihx ihxs =>
    obtain ⟨hx, hxs⟩ := hpair hcell
    obtain ⟨hend', hu⟩ := hw.ends hg hxs hend
    exact .tailCell hs ((hw.cell? hk).trans hcell) (ihx hx) hend' (ihxs hu)
  | tailNil hc => exact .tailNil hc
  | tailEnd hnil hcell _ ih =>
    refine .tailEnd hnil (fun s hs => ?_) (ih hk)
    subst hs
    exact (hw.cell? hk).trans (hcell s rfl)

/-- **A value is written as it was written.** -/
theorem text (hw : h.Widens h') (hg : h.Good) (hg' : h'.Good) (ht : h.Holds t) :
    h'.text t = h.text t := by
  obtain ⟨rank, hr⟩ := hg.acyclic
  obtain ⟨rank', hr'⟩ := hg'.acyclic
  have hrun := hw.writes hg ((writes_iff hr t).2 ⟨rfl, rfl⟩) ht
  exact String.toList_inj.1 ((writes_iff hr' t).1 hrun).1.symm

end Widens

end Heap

end PrologMachine
