/-
  PrologMachine.Proofs.Resolution.Store ── **WHAT THE HEAP SAYS OF A RESOLVENT.**

  A clause that was entered has a frame, in which the names of its copy have values.  The heap and these
  values stand for what was unified so far: the trees that fit them are those that make the two parts of
  each pair one tree.

    * `Fits`: trees for the cells and for the variables of all copies.
    * `Store`: what fits is what solves the pairs; `Store.extend`, it is so when more cells are there.
    * `Poses`: a structure stands for a goal of the resolvent.
    * `Store.built`: building a goal.
    * `Poses.resolved`, `Poses.refuted`: a head that matches the goal, and one that does not.
-/
import PrologMachine.Proofs.Goal.Patterns
import PrologMachine.Proofs.Head.Unification
import PrologMachine.Proofs.Resolution.Search

namespace PrologMachine

/-! ## §1. Heaps with more cells. -/

namespace Heap

/-- The second heap has the cells of the first, bound as they were, and other ones that are unbound. -/
structure Extends (h h' : Heap) : Prop where
  /-- The cells are there. -/
  later : h.Later h'
  /-- The same is bound. -/
  same : ∀ v, h'.binding? v = h.binding? v
  /-- It is in good shape. -/
  good : h'.Good

/-- A part of a heap, and the cells that an extension does not have yet. -/
def Old (P : Value → Prop) (h h' : Heap) : Value → Prop
  | .struct s => P (.struct s) ∧ (s < h.structs.size ∨ h'.structs.size ≤ s)
  | t => P t

variable {h h' : Heap} {K : Set Constant} {P : Value → Prop} {t : Value}

/-- A value of the part is old or not in the new part. -/
theorem Old.of_holds (ht : h.Inside P t) : Old P h h' t := by
  cases t with
  | struct s => exact ⟨ht.2, .inl ht.1⟩
  | _ => exact ht.2

/-- An extended heap keeps the part. -/
theorem Extends.inside (hx : h.Extends h') (ht : h.Inside P t) : h'.Inside (Old P h h') t :=
  ⟨hx.later.holds ht.1, .of_holds ht⟩

/-- What was plain stays plain. -/
theorem PlainOn.extend (hp : h.PlainOn K P) (hx : h.Extends h') : h'.PlainOn K (Old P h h') where
  good := hx.good
  constants := hp.constants
  bindings v t hv hb := by
    rw [hx.same] at hb
    exact .of_holds ⟨hp.good.bindings v t hb, hp.bindings v t hv hb⟩
  args s hs t ht := by
    rcases hs.2 with hold | hnew
    · rw [hx.later.cells s hold] at ht
      exact .of_holds (hp.inside_args hs.1 t ht)
    · rw [structCell, Array.getElem?_eq_none hnew] at ht
      exact absurd ht List.not_mem_nil
  nonempty s hlt hs := by
    have hold := hs.2.resolve_right (Nat.not_le.2 hlt)
    rw [hx.later.cells s hold]
    exact hp.nonempty s hold hs.1

end Heap

/-! ## §2. Stores. -/

/-- The values of the names of each copy. -/
abbrev Copies := Nat → String → Option Value

open Heap Resolvent

/-- Trees for the cells of a heap and for the variables of all copies, which fit each other. -/
structure Fits (K : Set Constant) (env : Copies) (h : Heap) (ρ : Valuation) (Θ : Instances) : Prop where
  /-- Bound variables have the trees of their values. -/
  respects : h.Respects K ρ
  /-- So have names. -/
  names : ∀ k x t, env k x = some t → h.tree K ρ t = Θ k x

/-- The heap and the values of the copies stand for the pairs `eqs`.  `P` is the part of the heap that
    matters. -/
structure Store (K : Set Constant) (eqs : List (Part × Part)) (env : Copies) (P : Value → Prop) (h : Heap) :
    Prop where
  /-- The part is plain. -/
  plain : h.PlainOn K P
  /-- Values are in it. -/
  values : ∀ k x t, env k x = some t → h.Inside P t
  /-- New variables are in it. -/
  vars : ∀ v, h.vars.size ≤ v → P (.var v)
  /-- New structures are in it. -/
  structs : ∀ s, h.structs.size ≤ s → P (.struct s)
  /-- The constants are in it. -/
  constants : ∀ c ∈ K, P (.const c)
  /-- What fits solves the pairs, and the other way around. -/
  fits : ∀ Θ, Unifies K Θ eqs ↔ ∃ ρ, Fits K env h ρ Θ

/-- The structure `s` stands for the part `g`, whenever the pairs are solved. -/
structure Poses (K : Set Constant) (eqs : List (Part × Part)) (env : Copies) (P : Value → Prop) (h : Heap)
    (g : Part) (s : StructId) : Prop extends Store K eqs env P h where
  /-- The structure is there. -/
  lt : s < h.structs.size
  /-- It is in the part that matters, unless it has no arguments. -/
  inside : (h.structCell s).args ≠ [] → P (.struct s)
  /-- Its name and its number of arguments. -/
  signature : g.2.signature = ⟨(h.structCell s).name, (h.structCell s).args.length⟩
  /-- Its tree is one that the part can stand for. -/
  stands : ∀ ρ Θ, Fits K env h ρ Θ → g.Stands K Θ (h.tree K ρ (.struct s))
  /-- All such trees are possible. -/
  fills : ∀ Θ T, Unifies K Θ eqs → g.Stands K Θ T → ∃ ρ, Fits K env h ρ Θ ∧ h.tree K ρ (.struct s) = T

variable {K : Set Constant} {eqs : List (Part × Part)} {env env' : Copies} {P : Value → Prop} {h h' : Heap}
  {g : Part} {s : StructId} {ρ ρ' : Valuation} {Θ : Instances}

namespace Store

/-- Before anything is unified nothing has a value. -/
theorem initial (hg : h.Good) (hnone : ∀ k x, env k x = none) :
    Store K [] env (fun t => match t with
      | .var v => h.vars.size ≤ v
      | .struct s => h.structs.size ≤ s
      | .const c => c ∈ K
      | .absent => False) h where
  plain :=
    { good := hg
      constants := fun _ hc => hc
      bindings := fun v t hv hb => by
        rw [binding?_eq_none hv] at hb
        cases hb
      args := fun s hs t ht => by
        rw [structCell, Array.getElem?_eq_none hs] at ht
        exact absurd ht List.not_mem_nil
      nonempty := fun s hlt hs => absurd hlt (Nat.not_lt.2 hs) }
  values k x t hx := by
    rw [hnone] at hx
    cases hx
  vars _ hv := hv
  structs _ hs := hs
  constants _ hc := hc
  -- No name has a value yet, so that any assignment fits.
  fits Θ := by
    refine ⟨fun _ => ?_, fun _ e he => absurd he List.not_mem_nil⟩
    obtain ⟨ρ, hρ, -⟩ := exists_respects (K := K) hg default
    refine ⟨ρ, hρ, fun k x t hx => ?_⟩
    rw [hnone] at hx
    cases hx

/-- Some trees fit. -/
theorem exists_fits (hs : Store K eqs env P h) : ∃ ρ Θ, Fits K env h ρ Θ := by
  obtain ⟨ρ, hρ, -⟩ := exists_respects (K := K) hs.plain.good default
  exact ⟨ρ, fun k x => ((env k x).map (h.tree K ρ)).getD default, hρ, fun k x t hx => by simp [hx]⟩

/-- What a store stands for can be solved. -/
theorem solvable (hs : Store K eqs env P h) : ∃ Θ, Unifies K Θ eqs := by
  obtain ⟨ρ, Θ, hΘ⟩ := hs.exists_fits
  exact ⟨Θ, (hs.fits Θ).2 ⟨ρ, hΘ⟩⟩

/-- What fits an extension fits. -/
theorem fits_of_extends (hs : Store K eqs env P h) (hx : h.Extends h') (hf : Fits K env h' ρ Θ) :
    Fits K env h ρ Θ where
  respects := hx.later.respects hs.plain.good hf.respects
  names k x t ht := by
    rw [← hf.names k x t ht]
    exact (hx.later.tree hs.plain.good (hs.values k x t ht).1 fun _ _ => rfl).symm

/-- What fits the cells that were there fits an extension, whatever new cells stand for. -/
theorem fits_extends (hs : Store K eqs env P h) (hx : h.Extends h') (hf : Fits K env h ρ Θ)
    (hagree : ∀ v < h.vars.size, ρ' v = ρ v) : Fits K env h' ρ' Θ where
  respects := hx.later.respects_of hs.plain.good hx.same hagree hf.respects
  names k x t ht := by
    rw [← hf.names k x t ht]
    exact hx.later.tree hs.plain.good (hs.values k x t ht).1 hagree

/-- **More cells do not matter.** -/
theorem extend (hs : Store K eqs env P h) (hx : h.Extends h') : Store K eqs env (Old P h h') h' where
  plain := hs.plain.extend hx
  values k x t ht := hx.inside (hs.values k x t ht)
  vars v hv := hs.vars v (hx.later.vars.trans hv)
  structs s hle := ⟨hs.structs s (hx.later.structs.trans hle), .inr hle⟩
  constants := hs.constants
  fits Θ := by
    rw [hs.fits]
    exact exists_congr fun ρ => ⟨fun hf => hs.fits_extends hx hf fun _ _ => rfl, hs.fits_of_extends hx⟩

end Store

/-- **A goal stays the goal when there are more cells.** -/
theorem Poses.extend (hp : Poses K eqs env P h g s) (hx : h.Extends h') :
    Poses K eqs env (Old P h h') h' g s := by
  have hcell := hx.later.cells s hp.lt
  have htree : ∀ ρ, h'.tree K ρ (.struct s) = h.tree K ρ (.struct s) := fun ρ =>
    hx.later.tree (t := .struct s) hp.plain.good hp.lt fun _ _ => rfl
  exact
    { toStore := hp.toStore.extend hx
      lt := hp.lt.trans_le hx.later.structs
      inside := fun hne => ⟨hp.inside (hcell ▸ hne), .inl hp.lt⟩
      signature := hcell.symm ▸ hp.signature
      stands := fun ρ Θ hf => by
        rw [htree]
        exact hp.stands ρ Θ (hp.fits_of_extends hx hf)
      fills := fun Θ T hΘ hT => by
        obtain ⟨ρ, hf, heq⟩ := hp.fills Θ T hΘ hT
        exact ⟨ρ, hp.fits_extends hx hf fun _ _ => rfl, (htree ρ).trans heq⟩ }

/-! ## §3. Building a goal. -/

/-- The values of names before and after a goal was built: old ones stay, and each new one is a new cell.
    The cells `vs` are new as well. -/
structure Renews (h h' : Heap) (σ σ' : String → Option Value) (vs : List VarId) : Prop where
  /-- Values stay. -/
  old : ∀ x t, σ x = some t → σ' x = some t
  /-- New values are new cells. -/
  new : ∀ x t, σ' x = some t → σ x = some t ∨ ∃ v, t = .var v ∧ h.vars.size ≤ v ∧ v < h'.vars.size
  /-- No two names have the same new cell. -/
  distinct : ∀ x y v, h.vars.size ≤ v → σ' x = some (.var v) → σ' y = some (.var v) → x = y
  /-- The other cells are new. -/
  others : ∀ v ∈ vs, h.vars.size ≤ v ∧ v < h'.vars.size
  /-- They are different. -/
  nodup : vs.Nodup
  /-- No name has one of them. -/
  apart : ∀ v ∈ vs, ∀ x, σ' x ≠ some (.var v)

/-- A value of a copy after those of one copy were replaced. -/
theorem Copies.update_eq_some {σ : String → Option Value} {j k : Nat} {x : String} {t : Value} :
    Function.update env k σ j x = some t ↔ j = k ∧ σ x = some t ∨ j ≠ k ∧ env j x = some t := by
  by_cases hj : j = k
  · subst hj
    simp
  · simp [hj]

/-- Copies keep their values when one of them gets new ones. -/
theorem Renews.update {σ' : String → Option Value} {vs : List VarId} {j k : Nat} {x : String} {t : Value}
    (hr : Renews h h' (env k) σ' vs) (hx : env j x = some t) : Function.update env k σ' j x = some t := by
  by_cases hj : j = k
  · exact Copies.update_eq_some.2 (.inl ⟨hj, hr.old x t (hj ▸ hx)⟩)
  · exact Copies.update_eq_some.2 (.inr ⟨hj, hx⟩)

/-- Different variables can be given any trees. -/
theorem exists_map_eq {vs : List VarId} (hvs : vs.Nodup) : ∀ {Us : List Tree}, Us.length = vs.length →
    ∃ ρ : Valuation, vs.map ρ = Us := by
  induction vs with
  | nil =>
    intro Us hlength
    exact ⟨default, (List.length_eq_zero_iff.1 hlength).symm⟩
  | cons v vs ih =>
    intro Us hlength
    obtain ⟨hnot, hvs⟩ := List.nodup_cons.1 hvs
    match Us with
    | U :: Us =>
      obtain ⟨ρ, hρ⟩ := ih hvs (Nat.succ.inj hlength)
      refine ⟨fun w => if w = v then U else ρ w, ?_⟩
      rw [List.map_cons, if_pos rfl, ← hρ]
      refine congrArg (U :: ·) (List.map_congr_left fun w hw => if_neg ?_)
      rintro rfl
      exact hnot hw

variable {σ σ' : String → Option Value} {vs : List VarId} {k : Nat} {f : String} {ps : List Pattern}

open Classical in
/-- Trees for the new cells. -/
theorem Renews.exists_valuation (hr : Renews h h' σ σ' vs) (ρ : Valuation) (θ : Assignment) {Us : List Tree}
    (hlength : Us.length = vs.length) :
    ∃ ρ' : Valuation, (∀ v < h.vars.size, ρ' v = ρ v) ∧
      (∀ x v, h.vars.size ≤ v → σ' x = some (.var v) → ρ' v = θ x) ∧ vs.map ρ' = Us := by
  obtain ⟨ρ₁, hρ₁⟩ := exists_map_eq hr.nodup hlength
  refine ⟨fun v => if v < h.vars.size then ρ v else
    if hx : ∃ x, σ' x = some (.var v) then θ hx.choose else ρ₁ v, fun v hv => if_pos hv, ?_, ?_⟩
  · intro x v hv hx
    have hsome : ∃ x, σ' x = some (.var v) := ⟨x, hx⟩
    simp only [if_neg (Nat.not_lt.2 hv), dif_pos hsome]
    rw [hr.distinct _ x v hv hsome.choose_spec hx]
  · rw [← hρ₁]
    refine List.map_congr_left fun v hv => ?_
    have hnone : ¬ ∃ x, σ' x = some (.var v) := fun ⟨x, hx⟩ => hr.apart v hv x hx
    simp only [if_neg (Nat.not_lt.2 (hr.others v hv).1), dif_neg hnone]

namespace Store

/-- What fits before a goal is built can be given trees for the new cells. -/
theorem exists_built (hs : Store K eqs env P h) (hx : h.Extends h') (hr : Renews h h' (env k) σ' vs)
    (hf : Fits K env h ρ Θ) {Us : List Tree} (hlength : Us.length = vs.length) :
    ∃ ρ', Fits K (Function.update env k σ') h' ρ' Θ ∧ vs.map ρ' = Us := by
  obtain ⟨ρ', hagree, hnew, hothers⟩ := hr.exists_valuation ρ (Θ k) hlength
  have hold := hs.fits_extends hx hf hagree
  refine ⟨ρ', ⟨hold.respects, fun k' x t ht => ?_⟩, hothers⟩
  rcases Copies.update_eq_some.1 ht with ⟨rfl, hσ⟩ | ⟨-, ht⟩
  · rcases hr.new x t hσ with ht | ⟨v, rfl, hv, -⟩
    · exact hold.names _ x t ht
    · rw [tree_var]
      exact hnew x v hv hσ
  · exact hold.names k' x t ht

/-- What fits afterwards fits before. -/
theorem fits_of_built (hs : Store K eqs env P h) (hx : h.Extends h') (hr : Renews h h' (env k) σ' vs)
    (hf : Fits K (Function.update env k σ') h' ρ Θ) : Fits K env h ρ Θ :=
  hs.fits_of_extends hx ⟨hf.respects, fun k' x t ht => hf.names k' x t (hr.update ht)⟩

/-- **New names do not matter.** -/
theorem built (hs : Store K eqs env P h) (hx : h.Extends h') (hr : Renews h h' (env k) σ' vs) :
    Store K eqs (Function.update env k σ') (Old P h h') h' where
  plain := hs.plain.extend hx
  values k' x t ht := by
    -- A name of the new copy has a value from before or a new variable.
    rcases Copies.update_eq_some.1 ht with ⟨rfl, hσ⟩ | ⟨-, ht⟩
    · rcases hr.new x t hσ with ht | ⟨v, rfl, hv, hv'⟩
      · exact hx.inside (hs.values _ x t ht)
      · exact ⟨hv', hs.vars v hv⟩
    · exact hx.inside (hs.values k' x t ht)
  vars := (hs.extend hx).vars
  structs := (hs.extend hx).structs
  constants := hs.constants
  fits Θ := by
    rw [hs.fits]
    -- The new variables may be given any trees, so that nothing is ruled out.
    constructor
    · rintro ⟨ρ, hf⟩
      obtain ⟨Us, hlength⟩ : ∃ Us : List Tree, Us.length = vs.length := ⟨vs.map ρ, List.length_map _⟩
      obtain ⟨ρ', hf', -⟩ := hs.exists_built hx hr hf hlength
      exact ⟨ρ', hf'⟩
    · rintro ⟨ρ, hf⟩
      exact ⟨ρ, hs.fits_of_built hx hr hf⟩

/-- The part that matters may be larger. -/
theorem mono {P' : Value → Prop} (hs : Store K eqs env P h) (hp : h.PlainOn K P') (hsub : ∀ t, P t → P' t) :
    Store K eqs env P' h where
  plain := hp
  values k x t ht := ⟨(hs.values k x t ht).1, hsub t (hs.values k x t ht).2⟩
  vars v hv := hsub _ (hs.vars v hv)
  structs s hle := hsub _ (hs.structs s hle)
  constants c hc := hsub _ (hs.constants c hc)
  fits := hs.fits

/-- **A goal that was built stands for its pattern.** -/
theorem poses (hs : Store K eqs env P h) (hx : h.Extends h') (hr : Renews h h' (env k) σ' vs)
    (hdepicts : (Pattern.struct f ps).Depicts h' σ' (.struct s) vs) (hfull : Pattern.FullAll K ps) :
    ∃ P', Poses K eqs (Function.update env k σ') P' h' (k, .struct f ps) s := by
  have hbuilt := hs.built hx hr
  have hcell : (h'.structCell s).name = f ∧ (h'.structCell s).args.length = ps.length ∧
      s < h'.structs.size := by
    rw [Pattern.Depicts] at hdepicts
    obtain ⟨s', us, heq, hcell, hps⟩ := hdepicts
    obtain rfl := Value.struct.inj heq
    rw [structCell_of_get hcell]
    exact ⟨rfl, hps.length, (Array.getElem?_eq_some_iff.1 hcell).1⟩
  obtain ⟨hname, hargs, hlt⟩ := hcell
  have hnames : ∀ {ρ Θ}, Fits K (Function.update env k σ') h' ρ Θ →
      ∀ x u, σ' x = some u → h'.tree K ρ u = Θ k x := by
    intro ρ Θ hf x u hu
    refine hf.names k x u ?_
    rwa [Function.update_self]
  -- The goal itself is in the part that matters, unless it has no arguments.
  obtain ⟨P', hplain, hgoal, hsub⟩ : ∃ P' : Value → Prop, h'.PlainOn K P' ∧
      ((h'.structCell s).args ≠ [] → P' (.struct s)) ∧ ∀ t, Old P h h' t → P' t := by
    by_cases hne : ps = []
    · refine ⟨_, hbuilt.plain, fun hnot => ?_, fun _ => id⟩
      rw [hne, List.length_nil, List.length_eq_zero_iff] at hargs
      exact absurd hargs hnot
    · obtain ⟨P', hplain, hgoal, hsub⟩ := hdepicts.plain hbuilt.plain ⟨hne, hfull⟩
        (fun x t ht => (hbuilt.values k x t (by rwa [Function.update_self])).2)
        (fun v hv => hs.vars v (hr.others v hv).1) hbuilt.constants
      exact ⟨P', hplain, fun _ => hgoal, hsub⟩
  exact ⟨P',
    { toStore := hbuilt.mono hplain hsub
      lt := hlt
      inside := hgoal
      signature := by rw [hname, hargs]; rfl
      stands := fun ρ Θ hf => hdepicts.describes (hnames hf)
      fills := fun Θ T hΘ hT => by
        obtain ⟨ρ, hf⟩ := (hs.fits Θ).1 hΘ
        obtain ⟨Us, hlength, hUs⟩ := hdepicts.fillable (θ := Θ k) hT
        obtain ⟨ρ', hf', hothers⟩ := hs.exists_built hx hr hf hlength
        exact ⟨ρ', hf', hUs ρ' hothers fun x _ u hu => hnames hf' x u hu⟩ }⟩

end Store

/-! ## §4. Matching a head. -/

/-- The condition `Γ` on the trees of names says of the structure `s` that the pattern `p` describes it,
    apart from what `Γ` says of names that `p` does not have. -/
structure Matching (K : Set Constant) (Γ : Assignment → Prop) (c : Scope) (p : Pattern) (s : StructId) :
    Prop where
  /-- Trees that make the pattern describe it give trees with the condition. -/
  solves : ∀ ρ θ, c.heap.Respects K ρ → p.Describes K θ (c.heap.tree K ρ (.struct s)) →
    ∃ θ' : Assignment, (∀ x ∈ p.names, θ' x = θ x) ∧ c.Models K ρ θ' ∧ Γ θ'
  /-- The condition makes the pattern describe it. -/
  describes : ∀ ρ θ, c.Models K ρ θ → Γ θ → p.Describes K θ (c.heap.tree K ρ (.struct s))

/-- The values of the names of a pattern. -/
def Pattern.named (p : Pattern) (σ : String → Option Value) (x : String) : Option Value :=
  if x ∈ p.names then σ x else none

theorem Pattern.named_eq_some {p : Pattern} {σ : String → Option Value} {x : String} {t : Value} :
    p.named σ x = some t ↔ x ∈ p.names ∧ σ x = some t :=
  Option.ite_none_right_eq_some

namespace Poses

variable {c c' : Scope} {Γ : Assignment → Prop} {p : Pattern}

/-- Solutions of one more pair. -/
theorem unifies_cons {e : Part × Part} :
    Unifies K Θ (e :: eqs) ↔ (∃ T, e.1.Stands K Θ T ∧ e.2.Stands K Θ T) ∧ Unifies K Θ eqs :=
  List.forall_mem_cons

/-- What makes the head describe the goal fits the heap before the head was matched. -/
theorem exists_solution (hp : Poses K eqs env P c.heap g s) (hm : Matching K Γ c p s)
    (hΘ : Unifies K Θ ((g, (k, p)) :: eqs)) :
    ∃ ρ θ, Fits K env c.heap ρ Θ ∧ (∀ x ∈ p.names, θ x = Θ k x) ∧ c.Models K ρ θ ∧ Γ θ := by
  obtain ⟨⟨T, hgoal, hhead⟩, heqs⟩ := unifies_cons.1 hΘ
  obtain ⟨ρ, hf, rfl⟩ := hp.fills Θ T heqs hgoal
  obtain ⟨θ, hagree, hmodels, hΓ⟩ := hm.solves ρ (Θ k) hf.respects hhead
  exact ⟨ρ, θ, hf, hagree, hmodels, hΓ⟩

/-- **A head that does not match**: the pairs with that of the goal and the head have no solution. -/
theorem refuted (hp : Poses K eqs env P c.heap g s) (hm : Matching K Γ c p s) (href : c.Refutes K Γ) :
    ¬ ∃ Θ, Unifies K Θ ((g, (k, p)) :: eqs) := by
  rintro ⟨Θ, hΘ⟩
  obtain ⟨ρ, θ, -, -, hmodels, hΓ⟩ := hp.exists_solution hm hΘ
  exact href ρ θ hmodels hΓ

/-- **A head that matches**: the names in it have values now, and the pairs with that of the goal and the
    head are what the heap stands for. -/
theorem resolved (hp : Poses K eqs env P c.heap g s) (hm : Matching K Γ c p s) (hs : c.Sound K P)
    (hanswers : Scope.Answers K P Γ c c') (hfresh : ∀ x, env k x = none)
    (hnames : ∀ x ∈ p.names, (c'.env x).isSome) :
    Store K ((g, (k, p)) :: eqs) (Function.update env k (p.named c'.env)) P c'.heap where
  plain := hanswers.sound.plain
  values k' x t ht := by
    rcases Copies.update_eq_some.1 ht with ⟨-, ht⟩ | ⟨-, ht⟩
    · exact hanswers.sound.env x t (Pattern.named_eq_some.1 ht).2
    · exact hanswers.grows.heap.inside (hp.values k' x t ht)
  vars := hanswers.sound.vars
  structs := hanswers.sound.structs
  constants := hanswers.sound.constants
  fits Θ := by
    have hlater := hanswers.grows.heap
    constructor
    -- A solution of the head and the equations gives the names of the clause their values.
    · intro hΘ
      obtain ⟨ρ, θ, hf, hagree, hmodels, hΓ⟩ := hp.exists_solution hm hΘ
      obtain ⟨ρ', hsame, hmodels'⟩ := hanswers.keeps ρ θ hmodels hΓ
      refine ⟨ρ', hmodels'.respects, fun k' x t ht => ?_⟩
      rcases Copies.update_eq_some.1 ht with ⟨rfl, hσ⟩ | ⟨-, ht⟩
      · obtain ⟨hx, ht⟩ := Pattern.named_eq_some.1 hσ
        rw [hmodels'.names x t ht, hagree x hx]
      · rw [hlater.tree hp.plain.good (hp.values k' x t ht).1 hsame, hf.names k' x t ht]
    -- What fits the new values fits the old ones, and describes the goal by the head.
    · rintro ⟨ρ, hf⟩
      have hrespects := hlater.respects hp.plain.good hf.respects
      have hold : Fits K env c.heap ρ Θ := by
        refine ⟨hrespects, fun k' x t ht => ?_⟩
        rw [← hlater.tree hp.plain.good (hp.values k' x t ht).1 fun _ _ => rfl]
        refine hf.names k' x t (Copies.update_eq_some.2 (.inr ⟨?_, ht⟩))
        rintro rfl
        rw [hfresh] at ht
        cases ht
      obtain ⟨θ, hmodels⟩ := Scope.exists_models hf.respects
      have hdescribes := hm.describes ρ θ (hanswers.grows.models hs hmodels) (hanswers.solves ρ θ hmodels)
      refine unifies_cons.2 ⟨⟨_, hp.stands ρ Θ hold, ?_⟩, (hp.fits Θ).2 ⟨ρ, hold⟩⟩
      refine (Pattern.describes_congr p fun x hx => ?_).1 hdescribes
      obtain ⟨t, ht⟩ := Option.isSome_iff_exists.1 (hnames x hx)
      rw [← hmodels.names x t ht]
      exact hf.names k x t (Copies.update_eq_some.2 (.inl ⟨rfl, Pattern.named_eq_some.2 ⟨hx, ht⟩⟩))

end Poses

end PrologMachine
