/-
  PrologMachine.Proofs.Goal.Patterns ── **GOALS AS PATTERNS.**

  A goal is a pattern as a head is one, with its constants in the cells of its code.  The code builds
  inside out, so constants inside of structures are numbered before those beside them.

    * `Goal.pattern`: the goal as a pattern, and the number of the next constant.
    * `Pattern.Depicts`: a value on the heap is the pattern, given the values of its names.
    * `Depicts.describes`, `Depicts.stands`: such a value stands for what the pattern describes.
-/
import PrologMachine.Code.Build
import PrologMachine.Proofs.Head.Equations
import PrologMachine.Proofs.Heap.Growth

namespace PrologMachine

/-! ## §1. Goals as patterns. -/

namespace Term

/-- A term that is passed as it is; its constant has number `n`. -/
def leafPattern (compiler n : Nat) : Term → Pattern
  | .var x _ => if isAnonymous x then .void else .var x
  | .const a _ => .const ⟨a, .code compiler n⟩
  | .app f _ _ _ => .const ⟨.atom f, .code compiler n⟩
  | .absent => .void

/-- How many constants that takes. -/
def leafConstants : Term → Nat
  | .const _ _ => 1
  | .app _ _ _ _ => 1
  | _ => 0

/-- Arguments, of which those that were built before are patterns already, and the number of the next
    constant. -/
def argPatterns (compiler : Nat) : Nat → List Term → List (Option Pattern) → List Pattern × Nat
  | n, _ :: ts, some p :: ps =>
    let rest := argPatterns compiler n ts ps
    (p :: rest.1, rest.2)
  | n, t :: ts, none :: ps =>
    let rest := argPatterns compiler (n + t.leafConstants) ts ps
    (t.leafPattern compiler n :: rest.1, rest.2)
  | n, _, _ => ([], n)

/-- The structures among terms, and the number of the next constant. -/
def nestedPatterns (compiler : Nat) : Nat → List Term → List (Option Pattern) × Nat
  | n, [] => ([], n)
  | n, .app f (a :: as) _ _ :: ts =>
    let below := nestedPatterns compiler n (a :: as)
    let own := argPatterns compiler below.2 (a :: as) below.1
    let rest := nestedPatterns compiler own.2 ts
    (some (.struct f own.1) :: rest.1, rest.2)
  | n, _ :: ts =>
    let rest := nestedPatterns compiler n ts
    (none :: rest.1, rest.2)

/-- Terms as patterns in the order in which a goal is built, and the number of the next constant. -/
def builtPatterns (compiler n : Nat) (ts : List Term) : List Pattern × Nat :=
  let below := nestedPatterns compiler n ts
  argPatterns compiler below.2 ts below.1

end Term

/-- A goal as a pattern; its constants have the numbers from `n` on. -/
def Goal.pattern (compiler n : Nat) (g : Goal) : Pattern :=
  .struct g.name (Term.builtPatterns compiler n g.args).1

/-- The number of the first constant behind a goal. -/
def Goal.nextConstant (compiler n : Nat) (g : Goal) : Nat := (Term.builtPatterns compiler n g.args).2

namespace Term

variable {compiler n : Nat} {ts : List Term} {ps : List (Option Pattern)} {x : String}

theorem nestedPatterns_nil : nestedPatterns compiler n [] = ([], n) := by
  rw [nestedPatterns]

/-- A structure with arguments is a nested pattern; those below it come first. -/
theorem nestedPatterns_structure (f : String) (a : Term) (as : List Term) (attrs : Attrs) (pos : Int) :
    nestedPatterns compiler n (.app f (a :: as) attrs pos :: ts) =
      (some (.struct f (builtPatterns compiler n (a :: as)).1) ::
        (nestedPatterns compiler (builtPatterns compiler n (a :: as)).2 ts).1,
        (nestedPatterns compiler (builtPatterns compiler n (a :: as)).2 ts).2) := by
  rw [nestedPatterns]
  rfl

theorem nestedPatterns_other {t : Term}
    (ht : ∀ f a as attrs pos, t = .app f (a :: as) attrs pos → False) :
    nestedPatterns compiler n (t :: ts) =
      (none :: (nestedPatterns compiler n ts).1, (nestedPatterns compiler n ts).2) := by
  rw [nestedPatterns]
  exact ht

/-- There is a place for each term. -/
theorem length_nestedPatterns (compiler n : Nat) (ts : List Term) :
    (nestedPatterns compiler n ts).1.length = ts.length := by
  fun_induction nestedPatterns compiler n ts with
  | case1 => rfl
  | case2 n f a as attrs pos ts below own rest _ ih => exact congrArg (· + 1) ih
  | case3 n t ts _ rest ih => exact congrArg (· + 1) ih

/-- There is a pattern for each argument. -/
theorem length_argPatterns (compiler n : Nat) (ts : List Term) (ps : List (Option Pattern)) :
    ps.length = ts.length → (argPatterns compiler n ts ps).1.length = ts.length := by
  fun_induction argPatterns compiler n ts ps with
  | case1 n t ts p ps rest ih => exact fun h => congrArg (· + 1) (ih (Nat.succ.inj h))
  | case2 n t ts ps rest ih => exact fun h => congrArg (· + 1) (ih (Nat.succ.inj h))
  | case3 ts n ps h₁ h₂ =>
    intro h
    match ts, ps with
    | [], _ => rfl
    | t :: ts, some p :: ps => exact (h₁ t ts p ps rfl rfl).elim
    | t :: ts, none :: ps => exact (h₂ t ts ps rfl rfl).elim
    | t :: ts, [] => exact absurd h (Nat.zero_ne_add_one _)

/-- A goal has as many patterns as arguments. -/
theorem length_builtPatterns (compiler n : Nat) (ts : List Term) :
    (builtPatterns compiler n ts).1.length = ts.length :=
  length_argPatterns compiler _ ts _ (length_nestedPatterns compiler n ts)

/-- Patterns of arguments are complete. -/
theorem argPatterns_full (compiler n : Nat) (ts : List Term) (ps : List (Option Pattern)) :
    (∀ p, some p ∈ ps → p.Full Set.univ) →
      Pattern.FullAll Set.univ (argPatterns compiler n ts ps).1 := by
  fun_induction argPatterns compiler n ts ps with
  | case1 n t ts p ps rest ih =>
    exact fun hps => ⟨hps p List.mem_cons_self, ih fun q hq => hps q (List.mem_cons_of_mem _ hq)⟩
  | case2 n t ts ps rest ih =>
    refine fun hps => ⟨?_, ih fun q hq => hps q (List.mem_cons_of_mem _ hq)⟩
    cases t with
    | var x id =>
      rw [leafPattern]
      split <;> trivial
    | _ => trivial
  | case3 => exact fun _ => trivial

theorem nestedPatterns_full (compiler n : Nat) (ts : List Term) :
    ∀ p, some p ∈ (nestedPatterns compiler n ts).1 → p.Full Set.univ := by
  fun_induction nestedPatterns compiler n ts with
  | case1 => exact fun p hp => absurd hp List.not_mem_nil
  | case2 n f a as attrs pos ts below own rest ihbelow ih =>
    intro p hp
    rcases List.mem_cons.1 hp with hp | hp
    · obtain rfl := Option.some.inj hp
      refine ⟨fun hnil => ?_, argPatterns_full compiler _ _ _ ihbelow⟩
      have hlength := length_builtPatterns compiler n (a :: as)
      rw [show (builtPatterns compiler n (a :: as)).1 = [] from hnil] at hlength
      exact Nat.zero_ne_add_one _ hlength
    · exact ih p hp
  | case3 n t ts _ rest ih => exact fun p hp => ih p ((List.mem_cons.1 hp).resolve_left nofun)

/-- In the patterns of a goal every functor has arguments. -/
theorem builtPatterns_full (compiler n : Nat) (ts : List Term) :
    Pattern.FullAll Set.univ (builtPatterns compiler n ts).1 :=
  argPatterns_full compiler _ ts _ (nestedPatterns_full compiler n ts)

end Term

namespace Pattern

mutual

/-- A pattern whose functors have arguments is full for all sets with its constants. -/
theorem Full.of_constants {K : Set Constant} : ∀ {p : Pattern}, p.Full Set.univ →
    (∀ c ∈ p.constants, c ∈ K) → p.Full K
  | .var _, _, _ => trivial
  | .void, _, _ => trivial
  | .const c, _, hK => hK c (List.mem_singleton_self c)
  | .struct _ _, h, hK => ⟨h.1, FullAll.of_constants h.2 hK⟩

/-- Complete patterns with such constants are complete over them. -/
theorem FullAll.of_constants {K : Set Constant} : ∀ {ps : List Pattern}, FullAll Set.univ ps →
    (∀ c ∈ constantsAll ps, c ∈ K) → FullAll K ps
  | [], _, _ => trivial
  | _ :: _, h, hK => ⟨Full.of_constants h.1 fun c hc => hK c (List.mem_append_left _ hc),
      FullAll.of_constants h.2 fun c hc => hK c (List.mem_append_right _ hc)⟩

end

end Pattern

/-! ## §2. Values that are patterns. -/

namespace Pattern

mutual

/-- The value is the pattern, where `σ` gives the values of names.  The list has the cells of the
    anonymous variables. -/
def Depicts (h : Heap) (σ : String → Option Value) : Pattern → Value → List VarId → Prop
  | .var x, u, vs => σ x = some u ∧ vs = []
  | .void, u, vs => ∃ v, u = .var v ∧ vs = [v]
  | .const c, u, vs => u = .const c ∧ vs = []
  | .struct f ps, u, vs => ∃ s us, u = .struct s ∧ h.structs[s]? = some ⟨f, us, .none⟩ ∧
      DepictsAll h σ ps us vs

/-- The values are the patterns, one by one. -/
def DepictsAll (h : Heap) (σ : String → Option Value) : List Pattern → List Value → List VarId → Prop
  | [], us, vs => us = [] ∧ vs = []
  | p :: ps, us, vs => ∃ u us' vs₁ vs₂, us = u :: us' ∧ vs = vs₁ ++ vs₂ ∧ Depicts h σ p u vs₁ ∧
      DepictsAll h σ ps us' vs₂

end

variable {h h' : Heap} {σ σ' : String → Option Value} {K : Set Constant} {ρ : Valuation}
  {θ : Assignment}

mutual

/-- A value stays the pattern when structures and variables stay. -/
theorem Depicts.mono (hh : ∀ (s : StructId) cell, h.structs[s]? = some cell → h'.structs[s]? = some cell)
    (hσ : ∀ x u, σ x = some u → σ' x = some u) :
    ∀ {p : Pattern} {u : Value} {vs : List VarId}, Depicts h σ p u vs → Depicts h' σ' p u vs
  | .var x, u, vs, hp => by
    rw [Depicts] at hp ⊢
    exact ⟨hσ x u hp.1, hp.2⟩
  | .void, u, vs, hp => by
    rw [Depicts] at hp ⊢
    exact hp
  | .const c, u, vs, hp => by
    rw [Depicts] at hp ⊢
    exact hp
  | .struct f ps, u, vs, hp => by
    rw [Depicts] at hp ⊢
    obtain ⟨s, us, hu, hcell, hps⟩ := hp
    exact ⟨s, us, hu, hh s _ hcell, DepictsAll.mono hh hσ hps⟩

/-- Values depict the same patterns in a later heap. -/
theorem DepictsAll.mono (hh : ∀ (s : StructId) cell, h.structs[s]? = some cell → h'.structs[s]? = some cell)
    (hσ : ∀ x u, σ x = some u → σ' x = some u) :
    ∀ {ps : List Pattern} {us : List Value} {vs : List VarId}, DepictsAll h σ ps us vs →
      DepictsAll h' σ' ps us vs
  | [], us, vs, hp => by
    rw [DepictsAll] at hp ⊢
    exact hp
  | p :: ps, us, vs, hp => by
    rw [DepictsAll] at hp ⊢
    obtain ⟨u, us', vs₁, vs₂, hus, hvs, hp, hps⟩ := hp
    exact ⟨u, us', vs₁, vs₂, hus, hvs, Depicts.mono hh hσ hp, DepictsAll.mono hh hσ hps⟩

end

/-- There is a value for each pattern. -/
theorem DepictsAll.length : ∀ {ps : List Pattern} {us : List Value} {vs : List VarId},
    DepictsAll h σ ps us vs → us.length = ps.length
  | [], us, vs, hp => by
    rw [DepictsAll] at hp
    rw [hp.1]
    rfl
  | p :: ps, us, vs, hp => by
    rw [DepictsAll] at hp
    obtain ⟨u, us', vs₁, vs₂, rfl, -, -, hps⟩ := hp
    exact congrArg (· + 1) (DepictsAll.length hps)

mutual

/-- **The tree of such a value is described by the pattern.** -/
theorem Depicts.describes (hσ : ∀ x u, σ x = some u → h.tree K ρ u = θ x) :
    ∀ {p : Pattern} {u : Value} {vs : List VarId}, Depicts h σ p u vs → p.Describes K θ (h.tree K ρ u)
  | .var x, u, vs, hp => by
    rw [Depicts] at hp
    exact hσ x u hp.1
  | .void, u, vs, _ => trivial
  | .const c, u, vs, hp => by
    rw [Depicts] at hp
    rw [hp.1]
    exact Heap.tree_const
  | .struct f ps, u, vs, hp => by
    rw [Depicts] at hp
    obtain ⟨s, us, rfl, hcell, hps⟩ := hp
    rw [Heap.tree_struct, Heap.structCell_of_get hcell]
    exact ⟨_, rfl, DepictsAll.describes hσ hps⟩

/-- Depicted patterns describe the trees of their values. -/
theorem DepictsAll.describes (hσ : ∀ x u, σ x = some u → h.tree K ρ u = θ x) :
    ∀ {ps : List Pattern} {us : List Value} {vs : List VarId}, DepictsAll h σ ps us vs →
      DescribesAll K θ ps (us.map (h.tree K ρ))
  | [], us, vs, hp => by
    rw [DepictsAll] at hp
    rw [hp.1]
    rfl
  | p :: ps, us, vs, hp => by
    rw [DepictsAll] at hp
    obtain ⟨u, us', vs₁, vs₂, rfl, -, hp, hps⟩ := hp
    exact ⟨_, _, List.map_cons, Depicts.describes hσ hp, DepictsAll.describes hσ hps⟩

end

/-- Trees for the cells of anonymous variables with which the value has the tree `T`, whatever other
    variables stand for, as long as names have their trees. -/
def Fillable (h : Heap) (σ : String → Option Value) (K : Set Constant) (θ : Assignment)
    (names : List String) (u : Value) (vs : List VarId) (T : Tree) : Prop :=
  ∃ Us : List Tree, Us.length = vs.length ∧ ∀ ρ : Valuation, vs.map ρ = Us →
    (∀ x ∈ names, ∀ t, σ x = some t → h.tree K ρ t = θ x) → h.tree K ρ u = T

/-- The same for several values. -/
def FillableAll (h : Heap) (σ : String → Option Value) (K : Set Constant) (θ : Assignment)
    (names : List String) (us : List Value) (vs : List VarId) (Ts : List Tree) : Prop :=
  ∃ Us : List Tree, Us.length = vs.length ∧ ∀ ρ : Valuation, vs.map ρ = Us →
    (∀ x ∈ names, ∀ t, σ x = some t → h.tree K ρ t = θ x) → us.map (h.tree K ρ) = Ts

mutual

/-- **What the pattern describes, such a value can stand for.** -/
theorem Depicts.fillable : ∀ {p : Pattern} {u : Value} {vs : List VarId} {T : Tree},
    Depicts h σ p u vs → p.Describes K θ T → Fillable h σ K θ p.names u vs T
  | .var x, u, vs, T, hp, hT => by
    rw [Depicts] at hp
    obtain ⟨hx, rfl⟩ := hp
    exact ⟨[], rfl, fun ρ _ hθ => (hθ x (List.mem_singleton_self x) u hx).trans hT.symm⟩
  -- A new variable takes the one tree it is given.
  | .void, u, vs, T, hp, _ => by
    rw [Depicts] at hp
    obtain ⟨v, rfl, rfl⟩ := hp
    exact ⟨[T], rfl, fun ρ hρ _ => by rw [Heap.tree_var]; exact List.head_eq_of_cons_eq hρ⟩
  | .const c, u, vs, T, hp, hT => by
    rw [Depicts] at hp
    obtain ⟨rfl, rfl⟩ := hp
    exact ⟨[], rfl, fun ρ _ _ => Heap.tree_const.trans hT.symm⟩
  -- The trees of the arguments are put together.
  | .struct f ps, u, vs, T, hp, hT => by
    rw [Depicts] at hp
    obtain ⟨s, us, rfl, hcell, hps⟩ := hp
    obtain ⟨Ts, rfl, hTs⟩ := hT
    obtain ⟨Us, hlength, hUs⟩ := DepictsAll.fillable hps hTs
    refine ⟨Us, hlength, fun ρ hρ hθ => ?_⟩
    rw [Heap.tree_struct, Heap.structCell_of_get hcell]
    exact congrArg (Tree.node f) (hUs ρ hρ hθ)

/-- Depicted patterns can be filled with the trees that they describe. -/
theorem DepictsAll.fillable : ∀ {ps : List Pattern} {us : List Value} {vs : List VarId} {Ts : List Tree},
    DepictsAll h σ ps us vs → DescribesAll K θ ps Ts → FillableAll h σ K θ (namesAll ps) us vs Ts
  | [], us, vs, Ts, hp, hTs => by
    rw [DepictsAll] at hp
    obtain ⟨rfl, rfl⟩ := hp
    obtain rfl : Ts = [] := hTs
    exact ⟨[], rfl, fun _ _ _ => rfl⟩
  | p :: ps, us, vs, Ts, hp, hTs => by
    rw [DepictsAll] at hp
    obtain ⟨u, us', vs₁, vs₂, rfl, rfl, hp, hps⟩ := hp
    obtain ⟨T, Us, rfl, hT, hUs⟩ := hTs
    obtain ⟨As, hlengthA, hA⟩ := Depicts.fillable hp hT
    obtain ⟨Bs, hlengthB, hB⟩ := DepictsAll.fillable hps hUs
    refine ⟨As ++ Bs, by rw [List.length_append, List.length_append, hlengthA, hlengthB], fun ρ hρ hθ => ?_⟩
    rw [List.map_append] at hρ
    obtain ⟨hρA, hρB⟩ := List.append_inj hρ (by rw [List.length_map, hlengthA])
    rw [List.map_cons, hA ρ hρA fun x hx => hθ x (List.mem_append_left _ hx),
      hB ρ hρB fun x hx => hθ x (List.mem_append_right _ hx)]

end

mutual

/-- **A value that is a pattern belongs to a plain part of the heap**, if the values of names do. -/
theorem Depicts.plain : ∀ {p : Pattern} {u : Value} {vs : List VarId} {P : Value → Prop},
    Depicts h σ p u vs → h.PlainOn K P → p.Full K → (∀ x t, σ x = some t → P t) →
    (∀ v ∈ vs, P (.var v)) → (∀ c ∈ K, P (.const c)) →
    ∃ P' : Value → Prop, h.PlainOn K P' ∧ P' u ∧ ∀ t, P t → P' t
  | .var x, u, vs, P, hp, hP, _, hσ, _, _ => by
    rw [Depicts] at hp
    exact ⟨P, hP, hσ x u hp.1, fun _ => id⟩
  | .void, u, vs, P, hp, hP, _, _, hvs, _ => by
    rw [Depicts] at hp
    obtain ⟨v, rfl, rfl⟩ := hp
    exact ⟨P, hP, hvs v (List.mem_singleton_self v), fun _ => id⟩
  | .const c, u, vs, P, hp, hP, hfull, _, _, hK => by
    rw [Depicts] at hp
    rw [hp.1]
    exact ⟨P, hP, hK c hfull, fun _ => id⟩
  | .struct f ps, u, vs, P, hp, hP, hfull, hσ, hvs, hK => by
    rw [Depicts] at hp
    obtain ⟨s, us, rfl, hcell, hps⟩ := hp
    -- What is allowed for the arguments is allowed, and the structure itself in addition.
    obtain ⟨P', hP', hus, hsub⟩ := DepictsAll.plain hps hP hfull.2 hσ hvs hK
    have hcell' := Heap.structCell_of_get hcell
    refine ⟨fun t => P' t ∨ t = .struct s, ?_, .inr rfl, fun t ht => .inl (hsub t ht)⟩
    exact
      { good := hP'.good
        constants := fun c hc => hP'.constants c (hc.resolve_right nofun)
        bindings := fun v t hv hb => .inl (hP'.bindings v t (hv.resolve_right nofun) hb)
        args := fun s' hs' t ht => by
          rcases hs' with hs' | hs'
          · exact .inl (hP'.args s' hs' t ht)
          · obtain rfl := Value.struct.inj hs'
            rw [hcell'] at ht
            exact .inl (hus t ht)
        nonempty := fun s' hlt hs' => by
          rcases hs' with hs' | hs'
          · exact hP'.nonempty s' hlt hs'
          · obtain rfl := Value.struct.inj hs'
            rw [hcell']
            intro hnil
            exact hfull.1 (List.length_eq_zero_iff.1 (by
              rw [← DepictsAll.length hps, show us = [] from hnil, List.length_nil])) }

theorem DepictsAll.plain : ∀ {ps : List Pattern} {us : List Value} {vs : List VarId} {P : Value → Prop},
    DepictsAll h σ ps us vs → h.PlainOn K P → FullAll K ps → (∀ x t, σ x = some t → P t) →
    (∀ v ∈ vs, P (.var v)) → (∀ c ∈ K, P (.const c)) →
    ∃ P' : Value → Prop, h.PlainOn K P' ∧ (∀ u ∈ us, P' u) ∧ ∀ t, P t → P' t
  | [], us, vs, P, hp, hP, _, _, _, _ => by
    rw [DepictsAll] at hp
    rw [hp.1]
    exact ⟨P, hP, fun _ hu => absurd hu List.not_mem_nil, fun _ => id⟩
  | p :: ps, us, vs, P, hp, hP, hfull, hσ, hvs, hK => by
    rw [DepictsAll] at hp
    obtain ⟨u, us', vs₁, vs₂, rfl, rfl, hp, hps⟩ := hp
    obtain ⟨P₁, hP₁, hu, hsub₁⟩ := Depicts.plain hp hP hfull.1 hσ
      (fun v hv => hvs v (List.mem_append_left _ hv)) hK
    obtain ⟨P₂, hP₂, hus, hsub₂⟩ := DepictsAll.plain hps hP₁ hfull.2
      (fun x t hx => hsub₁ t (hσ x t hx)) (fun v hv => hsub₁ _ (hvs v (List.mem_append_right _ hv)))
      fun c hc => hsub₁ _ (hK c hc)
    refine ⟨P₂, hP₂, fun t ht => ?_, fun t ht => hsub₂ t (hsub₁ t ht)⟩
    rcases List.mem_cons.1 ht with rfl | ht
    · exact hsub₂ t hu
    · exact hus t ht

end

mutual

/-- All names of a pattern that a value is have values. -/
theorem Depicts.names : ∀ {p : Pattern} {u : Value} {vs : List VarId}, Depicts h σ p u vs →
    ∀ x ∈ p.names, (σ x).isSome
  | .var x, u, vs, hp, y, hy => by
    rw [Depicts] at hp
    obtain rfl := List.mem_singleton.1 hy
    rw [hp.1]
    rfl
  | .void, u, vs, _, y, hy => absurd hy List.not_mem_nil
  | .const c, u, vs, _, y, hy => absurd hy List.not_mem_nil
  | .struct f ps, u, vs, hp, y, hy => by
    rw [Depicts] at hp
    obtain ⟨s, us, -, -, hps⟩ := hp
    exact DepictsAll.names hps y hy

/-- All names of depicted patterns have values. -/
theorem DepictsAll.names : ∀ {ps : List Pattern} {us : List Value} {vs : List VarId},
    DepictsAll h σ ps us vs → ∀ x ∈ namesAll ps, (σ x).isSome
  | [], us, vs, _, y, hy => absurd hy List.not_mem_nil
  | p :: ps, us, vs, hp, y, hy => by
    rw [DepictsAll] at hp
    obtain ⟨u, us', vs₁, vs₂, -, -, hp, hps⟩ := hp
    rcases List.mem_append.1 hy with hy | hy
    · exact Depicts.names hp y hy
    · exact DepictsAll.names hps y hy

end

end Pattern

end PrologMachine
