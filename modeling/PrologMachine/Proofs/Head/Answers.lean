/-
  PrologMachine.Proofs.Head.Answers ── **WHAT DECODING A HEAD DOES TO SOLUTIONS.**

  Decoding binds variables and gives names values.  What matters of that is which trees for variables
  and names still fit: those that did before and satisfy one more condition.

    * `Scope.Answers`: from one scope to a later one, with a condition on the trees of names.
    * `Scope.Sound.unified`: unification makes two values one tree or shows that no trees fit.
    * `Scope.Sound.written`: an unbound variable bound to a copy of a pattern has a tree that the
      pattern describes.
-/
import PrologMachine.Proofs.Head.Pattern

namespace PrologMachine

/-! ## §1. The parts of a tree. -/

/-- The trees below the root. -/
noncomputable def Tree.parts (T : Tree) : List Tree := Classical.epsilon fun Ts => ∃ f, T = .node f Ts

@[simp] theorem Tree.parts_node (f : String) (Ts : List Tree) : (Tree.node f Ts).parts = Ts := by
  obtain ⟨g, heq⟩ := Classical.epsilon_spec (p := fun Us => ∃ g, Tree.node f Ts = .node g Us)
    ⟨Ts, f, rfl⟩
  exact (Tree.node_inj heq).2.symm

/-! ## §2. Conditions on the trees of names. -/

namespace Scope

variable {K : Set Constant} {P : Value → Prop} {Γ Γ' Γ'' : Assignment → Prop} {c c' c'' : Scope}
  {ρ : Valuation} {θ : Assignment} {x : String} {t u : Value} {v : VarId} {p : Pattern}

/-- No trees fit the scope and satisfy the condition. -/
def Refutes (K : Set Constant) (Γ : Assignment → Prop) (c : Scope) : Prop :=
  ∀ ρ θ, c.Models K ρ θ → ¬ Γ θ

/-- The trees that fit the later scope are those that fit the earlier one and satisfy the condition. -/
structure Answers (K : Set Constant) (P : Value → Prop) (Γ : Assignment → Prop) (c c' : Scope) :
    Prop where
  /-- The heap grows, and names keep their values. -/
  grows : c.Grows c'
  /-- All is in the part. -/
  sound : c'.Sound K P
  /-- Trees with the condition still fit. -/
  keeps : ∀ ρ θ, c.Models K ρ θ → Γ θ →
    ∃ ρ' : Valuation, (∀ v < c.heap.vars.size, ρ' v = ρ v) ∧ c'.Models K ρ' θ
  /-- No others fit. -/
  solves : ∀ ρ θ, c'.Models K ρ θ → Γ θ

/-- One condition after the other. -/
theorem Answers.trans (h : Answers K P Γ c c') (h' : Answers K P Γ' c' c'') (hs : c.Sound K P)
    (hboth : ∀ ρ θ, c.Models K ρ θ → (Γ'' θ ↔ Γ θ ∧ Γ' θ)) : Answers K P Γ'' c c'' where
  grows := h.grows.trans h'.grows
  sound := h'.sound
  keeps ρ θ hm hΓ := by
    obtain ⟨hΓ₁, hΓ₂⟩ := (hboth ρ θ hm).1 hΓ
    obtain ⟨ρ₁, hagree₁, hm₁⟩ := h.keeps ρ θ hm hΓ₁
    obtain ⟨ρ₂, hagree₂, hm₂⟩ := h'.keeps ρ₁ θ hm₁ hΓ₂
    exact ⟨ρ₂, fun v hv => (hagree₂ v (hv.trans_le h.grows.heap.vars)).trans (hagree₁ v hv), hm₂⟩
  solves ρ θ hm := by
    have hm₁ := h'.grows.models h.sound hm
    exact (hboth ρ θ (h.grows.models hs hm₁)).2 ⟨h.solves ρ θ hm₁, h'.solves ρ θ hm⟩

/-- A condition that cannot be satisfied behind another one. -/
theorem Answers.refutes (h : Answers K P Γ c c') (h' : c'.Refutes K Γ')
    (hboth : ∀ ρ θ, c.Models K ρ θ → (Γ'' θ ↔ Γ θ ∧ Γ' θ)) : c.Refutes K Γ'' := by
  intro ρ θ hm hΓ
  obtain ⟨hΓ₁, hΓ₂⟩ := (hboth ρ θ hm).1 hΓ
  obtain ⟨ρ₁, -, hm₁⟩ := h.keeps ρ θ hm hΓ₁
  exact h' ρ₁ θ hm₁ hΓ₂

/-- A condition that holds anyway. -/
theorem Answers.refl (hs : c.Sound K P) (hΓ : ∀ ρ θ, c.Models K ρ θ → Γ θ) : Answers K P Γ c c :=
  ⟨.refl c, hs, fun ρ _ hm _ => ⟨ρ, fun _ _ => rfl, hm⟩, fun ρ θ hm => hΓ ρ θ hm⟩

/-- A new name for a value. -/
theorem Sound.named (hs : c.Sound K P) (hx : c.env x = none) (ht : c.heap.Inside P t)
    (hΓ : ∀ ρ θ, c.Models K ρ θ → (Γ θ ↔ c.heap.tree K ρ t = θ x)) :
    Answers K P Γ c (c.put x t) where
  grows := .put hx t
  sound := hs.put ht
  keeps ρ θ hm h := ⟨ρ, fun _ _ => rfl, hm.put ((hΓ ρ θ hm).1 h)⟩
  solves ρ θ hm := by
    refine (hΓ ρ θ ((Grows.put hx t).models hs hm)).2 (hm.names x t ?_)
    simp [Scope.put]

/-- Unification that succeeds makes two values one tree. -/
theorem Sound.unified (hK : Heap.EqualOn K) (hs : c.Sound K P) (ht : c.heap.Inside P t)
    (hu : c.heap.Inside P u)
    (hΓ : ∀ ρ θ, c.Models K ρ θ → (Γ θ ↔ c.heap.tree K ρ t = c.heap.tree K ρ u))
    (hok : (c.heap.unify t u).1 = true) :
    Answers K P Γ c (c.withHeap (c.heap.unify t u).2.heap) := by
  have hl := (Heap.unify_binds hs.plain.good ht.1 hu.1).later
  have hgrows : c.Grows (c.withHeap (c.heap.unify t u).2.heap) := .later hl
  exact
    { grows := hgrows
      sound := hs.later hl (hs.plain.unify ht hu)
      keeps := fun ρ θ hm h => by
        have hρ := (hs.plain.unify_keeps hK ht hu hm.respects ((hΓ ρ θ hm).1 h)).2
        refine ⟨ρ, fun _ _ => rfl, hρ, fun x a hx => ?_⟩
        rw [← hm.names x a hx]
        exact hl.tree hs.plain.good (hs.env x a hx).1 fun _ _ => rfl
      solves := fun ρ θ hm =>
        (hΓ ρ θ (hgrows.models hs hm)).2 (hs.plain.unify_solves hK ht hu hok hm.respects) }

/-- Unification that fails shows that two values cannot be one tree. -/
theorem Sound.ununified (hK : Heap.EqualOn K) (hs : c.Sound K P) (ht : c.heap.Inside P t)
    (hu : c.heap.Inside P u)
    (hΓ : ∀ ρ θ, c.Models K ρ θ → (Γ θ ↔ c.heap.tree K ρ t = c.heap.tree K ρ u))
    (hfail : (c.heap.unify t u).1 = false) : c.Refutes K Γ := by
  intro ρ θ hm h
  have hok := (hs.plain.unify_keeps hK ht hu hm.respects ((hΓ ρ θ hm).1 h)).1
  rw [hfail] at hok
  cases hok

/-- **An unbound variable that is bound to a copy of a pattern.** -/
theorem Sound.written (hs : c.Sound K P) (hx : c.env x = some t) (hd : c.heap.deref t = .var v)
    (hload : Pattern.Loads K P [p] c [u] c') (hne : u ≠ .var v) (hend : c'.heap.deref u = u) :
    Answers K P (fun θ => p.Describes K θ (θ x)) c (c'.withHeap (c'.heap.set v u)) := by
  have hfree : c'.heap.binding? v = none := by
    rw [hload.free]
    exact hs.plain.good.binding?_of_deref hd
  have hv : v < c.heap.vars.size := by
    have := hs.plain.good.holds_deref (hs.env x t hx).1
    rwa [hd] at this
  have hv' : v < c'.heap.vars.size := hv.trans_le hload.grows.heap.vars
  have hu : c'.heap.Inside P u := hload.inside u (List.mem_singleton_self u)
  have hl : c'.heap.Later (c'.heap.set v u) := (Heap.Binds.set hfree hv' u).later
  have hgrows : c'.Grows (c'.withHeap (c'.heap.set v u)) := .later hl
  have hcells : ∀ s, (c'.heap.set v u).structCell s = c'.heap.structCell s := fun _ => rfl
  -- The tree of the name is that of the variable.
  have hname : ∀ ρ θ, c.Models K ρ θ → θ x = ρ v := by
    intro ρ θ hm
    rw [← hm.names x t hx, ← Heap.tree_deref hs.plain.good hm.respects t, hd, Heap.tree_var]
  exact
    { grows := hload.grows.trans hgrows
      sound := hload.sound.later hl (hload.sound.plain.set hfree hv' hu hne hend)
      keeps := fun ρ θ hm h => by
        obtain ⟨ρ', hagree, hm', htree⟩ := hload.keeps ρ θ [θ x] hm
          (Pattern.describesAll_singleton.2 h)
        have htree : c'.heap.tree K ρ' u = θ x := by simpa using htree
        refine ⟨ρ', hagree, ⟨hm'.respects.set hv' ?_, fun y a hy => ?_⟩⟩
        · rw [htree, hname ρ θ hm, hagree v hv]
        · rw [← hm'.names y a hy]
          exact Heap.tree_congr hcells a
      solves := fun ρ θ hm => by
        have hm' := hgrows.models hload.sound hm
        have hdescribed := Pattern.describesAll_singleton.1 (hload.describes ρ θ hm')
        have hbound : ρ v = c'.heap.tree K ρ u := by
          rw [hm.respects v u (by simp [withHeap, Heap.binding?_set hv'])]
          exact Heap.tree_congr hcells u
        rw [hname ρ θ (hload.grows.models hs hm'), hbound]
        exact hdescribed }

end Scope

end PrologMachine
