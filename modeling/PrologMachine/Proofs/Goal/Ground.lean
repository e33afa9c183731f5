/-
  PrologMachine.Proofs.Goal.Ground ── **GROUND TERMS ON THE HEAP.**

  A ground term is built from constants and structures only.  Once it is on the heap no binding and
  no new cell changes what it is.

    * `Term.Ground`, `Term.plain`: ground terms, and terms as they are at run time.
    * `Term.Rigid`: the value is the ground term; `Rigid.stands`, `Rigid.mono`.
    * `Heap.Stands.bound`, `Heap.unify_free`: variables bound to values.
-/
import PrologMachine.Proofs.Goal.Construction
import PrologMachine.Proofs.Heap.Finite

namespace PrologMachine

namespace Term

variable {h h' : Heap} {σ : String → Option Value} {t : Term} {ts : List Term} {u : Value}
  {us : List Value} {vs : List VarId}

mutual

/-- The term has no variables, and nothing is missing in it. -/
def Ground : Term → Prop
  | .var _ _ => False
  | .const _ _ => True
  | .app _ args _ _ => GroundAll args
  | .absent => False

/-- All of the terms are ground. -/
def GroundAll : List Term → Prop
  | [] => True
  | t :: ts => t.Ground ∧ GroundAll ts

end

mutual

/-- No variable has a name in a ground term. -/
theorem Ground.names : ∀ {t : Term}, t.Ground → t.names = []
  | .var _ _, ht => (Ground.eq_1 _ _ ▸ ht : False).elim
  | .const _ _, _ => by rw [Term.names]
  | .app _ args _ _, ht => by
    rw [Ground] at ht
    rw [Term.names, GroundAll.names ht]
  | .absent, ht => (Ground.eq_4 ▸ ht : False).elim

theorem GroundAll.names : ∀ {ts : List Term}, GroundAll ts → namesAll ts = []
  | [], _ => by rw [namesAll]
  | t :: ts, ht => by
    rw [GroundAll] at ht
    rw [namesAll, ht.1.names, GroundAll.names ht.2]
    rfl

end

/-- A list of ground terms is ground. -/
theorem ground_ofList {p : Int} (h : ∀ t ∈ ts, t.Ground) : (ofList ts (.const .nil p)).Ground := by
  induction ts with
  | nil => rw [ofList, List.foldr_nil, Ground]; trivial
  | cons t ts ih =>
    rw [ofList, List.foldr_cons, cons, Ground, GroundAll, GroundAll, GroundAll]
    exact ⟨h t List.mem_cons_self, ih fun t' ht' => h t' (List.mem_cons_of_mem t ht'), trivial⟩

mutual

/-- The term without positions and marks; a compound without arguments is an atom. -/
def plain : Term → Term
  | .var x id => .var x id
  | .const a _ => .const a (-1)
  | .app f [] _ _ => .const (.atom f) (-1)
  | .app f (a :: as) _ _ => .app f (plainAll (a :: as)) .none (-1)
  | .absent => .absent

/-- All of the terms without positions and marks. -/
def plainAll : List Term → List Term
  | [] => []
  | t :: ts => t.plain :: plainAll ts

end

/-- The value is the ground term. -/
def Rigid (h : Heap) (t : Term) (u : Value) : Prop := Denotes h (fun _ => none) t u []

/-- The values are the ground terms, one by one. -/
def RigidAll (h : Heap) (ts : List Term) (us : List Value) : Prop :=
  DenotesAll h (fun _ => none) ts us []

theorem rigidAll_cons : RigidAll h (t :: ts) us ↔
    ∃ u us', us = u :: us' ∧ Rigid h t u ∧ RigidAll h ts us' := by
  rw [RigidAll, DenotesAll]
  constructor
  · rintro ⟨u, us', vs₁, vs₂, rfl, hvs, ht, hts⟩
    obtain ⟨rfl, rfl⟩ := List.append_eq_nil_iff.1 hvs.symm
    exact ⟨u, us', rfl, ht, hts⟩
  · rintro ⟨u, us', rfl, ht, hts⟩
    exact ⟨u, us', [], [], rfl, rfl, ht, hts⟩

/-- It stays the term when structures stay. -/
theorem Rigid.mono (ht : Rigid h t u)
    (hh : ∀ (s : StructId) cell, h.structs[s]? = some cell → h'.structs[s]? = some cell) :
    Rigid h' t u :=
  Denotes.mono hh (fun _ _ hx => hx) ht

mutual

/-- What a ground term denotes is the ground term, whatever variables stand for. -/
theorem Denotes.rigid : ∀ {t : Term} {u : Value} {vs : List VarId}, t.Ground → Denotes h σ t u vs →
    Rigid h t u ∧ vs = []
  | .var _ _, _, _, hground, _ => (Ground.eq_1 _ _ ▸ hground : False).elim
  | .const a _, u, vs, _, ht => by
    rw [Denotes] at ht
    obtain ⟨k, hu, hk, hvs⟩ := ht
    refine ⟨?_, hvs⟩
    rw [Rigid, Denotes]
    exact ⟨k, hu, hk, rfl⟩
  | .app f args _ _, u, vs, hground, ht => by
    rw [Ground] at hground
    rw [Denotes] at ht
    rw [Rigid, Denotes]
    rcases ht with ⟨rfl, k, hu, hk, hvs⟩ | ⟨hne, s, us, hu, hcell, hargs⟩
    · exact ⟨.inl ⟨rfl, k, hu, hk, rfl⟩, hvs⟩
    · obtain ⟨hrigid, hvs⟩ := DenotesAll.rigid hground hargs
      exact ⟨.inr ⟨hne, s, us, hu, hcell, hrigid⟩, hvs⟩
  | .absent, _, _, hground, _ => (Ground.eq_4 ▸ hground : False).elim

theorem DenotesAll.rigid : ∀ {ts : List Term} {us : List Value} {vs : List VarId}, GroundAll ts →
    DenotesAll h σ ts us vs → RigidAll h ts us ∧ vs = []
  | [], us, vs, _, ht => by
    rw [DenotesAll] at ht
    refine ⟨?_, ht.2⟩
    rw [RigidAll, DenotesAll]
    exact ⟨ht.1, rfl⟩
  | t :: ts, us, vs, hground, ht => by
    rw [GroundAll] at hground
    rw [DenotesAll] at ht
    obtain ⟨u, us', vs₁, vs₂, hus, hvs, ht, hts⟩ := ht
    obtain ⟨hrigid, rfl⟩ := Denotes.rigid hground.1 ht
    obtain ⟨hrest, rfl⟩ := DenotesAll.rigid hground.2 hts
    exact ⟨rigidAll_cons.2 ⟨u, us', hus, hrigid, hrest⟩, hvs⟩

end

mutual

/-- **The value stands for the term.** -/
theorem Rigid.stands : ∀ {t : Term} {u : Value}, Rigid h t u → h.Stands u t.plain
  | .var x _, u, ht => by
    rw [Rigid, Denotes] at ht
    split at ht
    · obtain ⟨v, -, hvs⟩ := ht
      cases hvs
    · cases ht.1
  | .const a _, u, ht => by
    rw [Rigid, Denotes] at ht
    obtain ⟨k, rfl, rfl, -⟩ := ht
    rw [plain]
    exact .const .const
  | .app f [] _ _, u, ht => by
    rw [Rigid, Denotes] at ht
    rcases ht with ⟨-, k, rfl, hk, -⟩ | ⟨hne, -⟩
    · rw [plain, ← hk]
      exact .const .const
    · exact absurd rfl hne
  | .app f (a :: as) _ _, u, ht => by
    rw [Rigid, Denotes] at ht
    rcases ht with ⟨hnil, -⟩ | ⟨-, s, us, rfl, hcell, hargs⟩
    · cases hnil
    · have hstruct : h.structCell s = ⟨f, us, .none⟩ := by simp [Heap.structCell, hcell]
      have hall : List.Forall₂ h.Stands (h.structCell s).args (plainAll (a :: as)) := by
        rw [hstruct]
        exact RigidAll.stands hargs
      have hs := Heap.Stands.struct (.struct : h.Ends (.struct s) (.struct s)) hall
      rw [hstruct] at hs
      rw [plain]
      exact hs
  | .absent, u, ht => by
    rw [Rigid, Denotes] at ht
    obtain ⟨v, -, hvs⟩ := ht
    cases hvs

theorem RigidAll.stands : ∀ {ts : List Term} {us : List Value}, RigidAll h ts us →
    List.Forall₂ h.Stands us (plainAll ts)
  | [], us, ht => by
    rw [RigidAll, DenotesAll] at ht
    obtain ⟨rfl, -⟩ := ht
    exact .nil
  | t :: ts, us, ht => by
    obtain ⟨u, us', rfl, ht, hts⟩ := rigidAll_cons.1 ht
    exact .cons (Rigid.stands ht) (RigidAll.stands hts)

end

/-- A ground value is no variable. -/
theorem Rigid.not_var (ht : Rigid h t u) : (∃ k, u = .const k) ∨ ∃ s, u = .struct s := by
  cases t with
  | var x id =>
    rw [Rigid, Denotes] at ht
    split at ht
    · obtain ⟨v, -, hvs⟩ := ht
      cases hvs
    · cases ht.1
  | const a pos =>
    rw [Rigid, Denotes] at ht
    obtain ⟨k, hu, -⟩ := ht
    exact .inl ⟨k, hu⟩
  | app f args attrs pos =>
    rw [Rigid, Denotes] at ht
    rcases ht with ⟨-, k, hu, -⟩ | ⟨-, s, us, hu, -⟩
    · exact .inl ⟨k, hu⟩
    · exact .inr ⟨s, hu⟩
  | absent =>
    rw [Rigid, Denotes] at ht
    obtain ⟨v, -, hvs⟩ := ht
    cases hvs

end Term

namespace Heap

variable {h : Heap} {v : VarId} {u : Value} {t : Term}

/-- A variable stands for what its value stands for. -/
theorem Stands.bound (hv : h.binding? v = some u) (hu : h.Stands u t) : h.Stands (.var v) t := by
  cases hu with
  | var hend => exact .var (.bound hv hend)
  | const hend => exact .const (.bound hv hend)
  | absent hend => exact .absent (.bound hv hend)
  | struct hend hargs => exact .struct (.bound hv hend) hargs

/-- An unbound variable is bound to a constant or a structure. -/
theorem unify_free (hv : h.binding? v = none) (hu : (∃ k, u = .const k) ∨ ∃ s, u = .struct s) :
    h.unify (.var v) u = (true, ⟨h.set v u, [v], []⟩) := by
  have hfree : h.deref (.var v) = .var v := deref_free hv
  have hbound : h.isBound v = false := by simp [isBound, hv]
  rcases hu with ⟨k, rfl⟩ | ⟨s, rfl⟩
  · simp [unify, walkBound, Unifier.unify, Value.same, hfree, Unifier.bind, hbound]
  · simp [unify, walkBound, Unifier.unify, Value.same, hfree, Unifier.bind, hbound]

end Heap

end PrologMachine
