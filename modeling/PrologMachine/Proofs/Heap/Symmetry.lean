/-
  PrologMachine.Proofs.Heap.Symmetry ── **UNIFICATION IS SYMMETRIC.**

  Unifying two terms and unifying them in the other order go through the same pairs.  Where two unbound
  variables meet, the two walks link them in opposite directions, so their heaps differ; but the chains
  of each value still end alike.

    * `Heap.Alike`: chains end in the same cells, except that where they end in unbound variables only
      the classes of variables that end together are the same.
    * `Unifier.unify_mirrors`: the two walks keep their heaps alike and end with one outcome.
    * `Heap.unify_symmetric`: what `Heap.identical` says of terms afterwards is the same too.
-/
import PrologMachine.Proofs.Heap.Trees

namespace PrologMachine

namespace Heap

variable {h h' g : Heap} {K : Set Constant} {v w : VarId} {a b s t : Value}

/-! ## §1. Where chains end after a binding. -/

/-- A chain that ended in the variable now ends in its value, the other chains end as before. -/
theorem deref_set (hg : h.Good) (hv : h.binding? v = none) (hlt : v < h.vars.size) (ht : h.Holds t)
    (hne : t ≠ .var v) (hend : h.deref t = t) (s : Value) :
    (h.deref s = .var v → (h.set v t).deref s = t) ∧
      (h.deref s ≠ .var v → (h.set v t).deref s = h.deref s) := by
  have hg' := hg.set hv hlt ht hne hend
  -- Chains of the old heap are followed; only those that end in the variable go on to its value.
  induction s using hg.chain_induction with
  | free u hu =>
    rw [deref_free hu]
    constructor
    · intro huv
      obtain rfl := Value.var.inj huv
      rw [deref_bound hg' (by rw [binding?_set hlt, if_pos rfl])]
      cases t with
      | var x =>
        have hxu : x ≠ u := fun hxu => hne (by rw [hxu])
        exact deref_free (by rw [binding?_set hlt, if_neg hxu, hg.binding?_of_deref hend])
      | _ => rfl
    · intro huv
      have huv' : u ≠ v := fun heq => huv (by rw [heq])
      exact deref_free (by rw [binding?_set hlt, if_neg huv', hu])
  | bound u s hu ih =>
    have huv : u ≠ v := by
      rintro rfl
      rw [hv] at hu
      cases hu
    rw [deref_bound hg hu, deref_bound hg' (t := s) (by rw [binding?_set hlt, if_neg huv, hu])]
    exact ih
  | const c => exact ⟨fun heq => (by cases heq), fun _ => rfl⟩
  | struct x => exact ⟨fun heq => (by cases heq), fun _ => rfl⟩
  | absent => exact ⟨fun heq => (by cases heq), fun _ => rfl⟩

/-! ## §2. Heaps with the same terms. -/

/-- Both heaps have the same cells, and chains end alike in them: in the same cell, or both in unbound
    variables, and then together with the same other chains. -/
structure Alike (h h' : Heap) : Prop where
  /-- The variables. -/
  size : h'.vars.size = h.vars.size
  /-- The structures. -/
  structs : h'.structs = h.structs
  /-- Chains end in the same cell, or both in unbound variables. -/
  ends : ∀ t, h'.deref t = h.deref t ∨ ∃ v w, h.deref t = .var v ∧ h'.deref t = .var w
  /-- The same chains end together. -/
  together : ∀ s t, h'.deref s = h'.deref t ↔ h.deref s = h.deref t

namespace Alike

protected theorem refl (h : Heap) : h.Alike h := ⟨rfl, rfl, fun _ => .inl rfl, fun _ _ => .rfl⟩

protected theorem symm (hl : h.Alike h') : h'.Alike h where
  size := hl.size.symm
  structs := hl.structs.symm
  ends t := (hl.ends t).imp Eq.symm fun ⟨v, w, hv, hw⟩ => ⟨w, v, hw, hv⟩
  together s t := (hl.together s t).symm

/-- The structures are the same. -/
theorem structCell (hl : h.Alike h') (x : StructId) : h'.structCell x = h.structCell x := by
  simp [Heap.structCell, hl.structs]

/-- A chain that ends in a variable does so in both. -/
theorem var (hl : h.Alike h') (hv : h.deref t = .var v) : ∃ w, h'.deref t = .var w := by
  rcases hl.ends t with heq | ⟨_, w, -, hw⟩
  · exact ⟨v, heq.trans hv⟩
  · exact ⟨w, hw⟩

/-- A chain that ends in no variable ends in the same cell. -/
theorem eq (hl : h.Alike h') (hne : ∀ v, h.deref t ≠ .var v) : h'.deref t = h.deref t := by
  rcases hl.ends t with heq | ⟨v, _, hv, -⟩
  · exact heq
  · exact absurd hv (hne v)

/-- The same chains end in one cell. -/
theorem same (hl : h.Alike h') (s t : Value) :
    (h'.deref s).same (h'.deref t) = (h.deref s).same (h.deref t) := by
  have htogether := hl.together s t
  rcases hl.ends s with hs | ⟨v, v', hs, hs'⟩ <;> rcases hl.ends t with ht | ⟨w, w', ht, ht'⟩
  · rw [hs, ht]
  · rw [hs, ht, ht']
    rw [hs, ht, ht'] at htogether
    cases hd : h.deref s <;> simp_all [Value.same]
  · rw [ht, hs, hs']
    rw [ht, hs, hs'] at htogether
    cases hd : h.deref t <;> simp_all [Value.same]
  · rw [hs, hs', ht, ht']
    rw [hs, hs', ht, ht'] at htogether
    simp only [Value.var.injEq] at htogether
    simp only [Value.same]
    grind

end Alike

/-- After two classes of chains are joined, chains end together if they did before or are in the
    two classes. -/
theorem together_join {e e' : Value → Value} (hjoin : ∀ s, (e s = e a → e' s = e b) ∧
    (e s ≠ e a → e' s = e s)) (s t : Value) :
    e' s = e' t ↔ e s = e t ∨ (e s = e a ∨ e s = e b) ∧ (e t = e a ∨ e t = e b) := by
  have hs := hjoin s
  have ht := hjoin t
  by_cases hsa : e s = e a <;> by_cases hta : e t = e a <;> grind

/-- **Binding the class of `a` to the cell where `b` ends.** -/
theorem Alike.bind (hl : h.Alike h') {v' : VarId}
    (hs : ∀ s, (h.deref s = h.deref a → (h.set v (h.deref b)).deref s = h.deref b) ∧
      (h.deref s ≠ h.deref a → (h.set v (h.deref b)).deref s = h.deref s))
    (hs' : ∀ s, (h'.deref s = h'.deref a → (h'.set v' (h'.deref b)).deref s = h'.deref b) ∧
      (h'.deref s ≠ h'.deref a → (h'.set v' (h'.deref b)).deref s = h'.deref s)) :
    (h.set v (h.deref b)).Alike (h'.set v' (h'.deref b)) where
  size := by simpa using hl.size
  structs := hl.structs
  ends t := by
    by_cases hta : h.deref t = h.deref a
    · rw [(hs t).1 hta, (hs' t).1 ((hl.together t a).2 hta)]
      exact hl.ends b
    · rw [(hs t).2 hta, (hs' t).2 (mt (hl.together t a).1 hta)]
      exact hl.ends t
  together s t := by
    rw [together_join hs, together_join hs', hl.together, hl.together, hl.together, hl.together,
      hl.together]

/-- **Linking two variables in opposite directions.** -/
theorem Alike.cross (hl : h.Alike h') {v' : VarId} (ha : h.deref a = .var v) (hb : h.deref b = .var w)
    (hs : ∀ s, (h.deref s = h.deref a → (h.set v (h.deref b)).deref s = h.deref b) ∧
      (h.deref s ≠ h.deref a → (h.set v (h.deref b)).deref s = h.deref s))
    (hs' : ∀ s, (h'.deref s = h'.deref b → (h'.set v' (h'.deref a)).deref s = h'.deref a) ∧
      (h'.deref s ≠ h'.deref b → (h'.set v' (h'.deref a)).deref s = h'.deref s)) :
    (h.set v (h.deref b)).Alike (h'.set v' (h'.deref a)) where
  size := by simpa using hl.size
  structs := hl.structs
  ends t := by
    obtain ⟨x, hx⟩ := hl.var ha
    obtain ⟨y, hy⟩ := hl.var hb
    by_cases hta : h.deref t = h.deref a
    · -- The chain is in the class of `a`, which ends in variables in both heaps.
      right
      have hta' := (hl.together t a).2 hta
      by_cases htb' : h'.deref t = h'.deref b
      · exact ⟨w, x, by rw [(hs t).1 hta, hb], by rw [(hs' t).1 htb', hx]⟩
      · exact ⟨w, x, by rw [(hs t).1 hta, hb], by rw [(hs' t).2 htb', hta', hx]⟩
    -- The chain ended elsewhere, in the class of `b` or in neither.
    · rw [(hs t).2 hta]
      by_cases htb : h.deref t = h.deref b
      · exact .inr ⟨w, x, by rw [htb, hb], by rw [(hs' t).1 ((hl.together t b).2 htb), hx]⟩
      · rw [(hs' t).2 (mt (hl.together t b).1 htb)]
        exact hl.ends t
  together s t := by
    rw [together_join hs, together_join hs', hl.together, hl.together, hl.together, hl.together,
      hl.together]
    tauto

/-- **Comparison does not tell alike heaps apart.** -/
theorem Alike.compare (hl : h.Alike h') (n : Nat) : ∀ (depth : Nat) (s t : Value) (seen : SeenPairs),
    h'.compare n depth s t seen = h.compare n depth s t seen := by
  induction n with
  | zero => intro depth s t seen; rfl
  | succ n ih =>
    intro depth s t seen
    rw [Heap.compare, Heap.compare]
    simp only [hl.same s t, hl.structCell]
    have hsame := hl.same s t
    rcases hl.ends s with hs | ⟨v, v', hs, hs'⟩ <;> rcases hl.ends t with ht | ⟨w, w', ht, ht'⟩
    · rw [hs, ht]
      have hpairs : h'.compare n (depth + 1) = h.compare n (depth + 1) := by
        funext s t seen
        exact ih (depth + 1) s t seen
      rw [hpairs]
    · rw [hs, ht, ht']
      cases h.deref s <;> rfl
    · rw [ht, hs, hs']
    · rw [hs, hs']

/-- Comparison has one outcome on both heaps. -/
theorem Alike.identical (hl : h.Alike h') (s t : Value) : h'.identical s t = h.identical s t := by
  have hbound : h'.walkBound = h.walkBound := by rw [walkBound, walkBound, hl.structs]
  rw [Heap.identical, Heap.identical, hbound, hl.compare]

end Heap

namespace Unifier

variable {depth n : Nat} {a b t : Value} {as bs : List Value} {u w u' w' : Unifier} {v : VarId}
  {x y : StructId} {K : Set Constant} {g : Heap}

/-! ## §3. Two walks side by side. -/

/-- Two walks over the cells of `g` whose heaps are alike and whose remembered pairs are swapped. -/
structure Mirrors (K : Set Constant) (g : Heap) (u w : Unifier) : Prop where
  /-- The left heap is in good shape. -/
  good : u.heap.Good
  /-- So is the right one. -/
  good' : w.heap.Good
  /-- Chains end alike. -/
  alike : u.heap.Alike w.heap
  /-- The constants on the left. -/
  constants : u.heap.AllOver K
  /-- The constants on the right. -/
  constants' : w.heap.AllOver K
  /-- The pairs. -/
  seen : w.seen = u.seen.map Prod.swap
  /-- The variables. -/
  size : u.heap.vars.size = g.vars.size
  /-- The structures. -/
  structs : u.heap.structs = g.structs

namespace Mirrors

protected theorem symm (hm : Mirrors K g u w) : Mirrors K g w u where
  good := hm.good'
  good' := hm.good
  alike := hm.alike.symm
  constants := hm.constants'
  constants' := hm.constants
  seen := by rw [hm.seen, List.map_map]; simp
  size := hm.alike.size.trans hm.size
  structs := hm.alike.structs.trans hm.structs

/-- What is inside is in the heap. -/
theorem holds (hm : Mirrors K g u w) (ht : g.Within K t) : u.heap.Holds t :=
  ht.1.mono (Nat.le_of_eq hm.size.symm) (by rw [hm.structs])

/-- What a value ends in is a variable, a structure or one of the constants. -/
theorem over_deref (hm : Mirrors K g u w) (ht : g.Within K t) : Heap.Over K (u.heap.deref t) :=
  hm.constants.deref hm.good ht.2

/-- Where chains end after the end of `a` was bound to the end of `b`. -/
theorem ends_bind (hm : Mirrors K g u w) (ha : g.Within K a) (hb : g.Within K b)
    (hv : u.heap.deref a = .var v) (hne : u.heap.deref b ≠ .var v) (s : Value) :
    (u.heap.deref s = u.heap.deref a → (u.heap.set v (u.heap.deref b)).deref s = u.heap.deref b) ∧
      (u.heap.deref s ≠ u.heap.deref a →
        (u.heap.set v (u.heap.deref b)).deref s = u.heap.deref s) := by
  rw [hv]
  have hlt : u.heap.Holds (.var v) := hv ▸ hm.good.holds_deref (hm.holds ha)
  exact Heap.deref_set hm.good (hm.good.binding?_of_deref hv) hlt (hm.good.holds_deref (hm.holds hb))
    hne (hm.good.deref_deref b) s

/-- The heap stays good when a variable is bound. -/
theorem good_bind (hm : Mirrors K g u w) (ha : g.Within K a) (hb : g.Within K b)
    (hv : u.heap.deref a = .var v) (hne : u.heap.deref b ≠ .var v) :
    (u.heap.set v (u.heap.deref b)).Good := by
  have hlt : u.heap.Holds (.var v) := hv ▸ hm.good.holds_deref (hm.holds ha)
  exact hm.good.set (hm.good.binding?_of_deref hv) hlt (hm.good.holds_deref (hm.holds hb)) hne
    (hm.good.deref_deref b)

/-- It keeps its constants. -/
theorem over_bind (hm : Mirrors K g u w) (ha : g.Within K a) (hb : g.Within K b)
    (hv : u.heap.deref a = .var v) : (u.heap.set v (u.heap.deref b)).AllOver K := by
  have hlt : u.heap.Holds (.var v) := hv ▸ hm.good.holds_deref (hm.holds ha)
  exact hm.constants.set hlt (hm.over_deref hb)

/-- An unbound variable is bound. -/
theorem bind_eq (hm : Mirrors K g u w) (hv : u.heap.deref a = .var v) :
    u.bind v t = (true, { u with heap := u.heap.set v t, bound := v :: u.bound }) := by
  simp [Unifier.bind, Heap.isBound, hm.good.binding?_of_deref hv]

end Mirrors

/-- Two outcomes that agree, in states that mirror each other. -/
def Reflects (K : Set Constant) (g : Heap) (r r' : Bool × Unifier) : Prop :=
  r.1 = r'.1 ∧ Mirrors K g r.2 r'.2

theorem Reflects.symm {r r' : Bool × Unifier} (h : Reflects K g r r') : Reflects K g r' r :=
  ⟨h.1.symm, h.2.symm⟩

/-- The pairs are entered the other way round. -/
theorem enter?_swap (pairs : SeenPairs) : SeenPairs.enter? (pairs.map Prod.swap) depth y x =
    (pairs.enter? depth x y).map (List.map Prod.swap) := by
  have hmem : (List.map Prod.swap pairs).contains (y, x) = pairs.contains (x, y) := by
    rw [Bool.eq_iff_iff, List.contains_iff_mem, List.contains_iff_mem, List.mem_map]
    constructor
    · rintro ⟨p, hp, heq⟩
      have : p = (x, y) := by rw [← Prod.swap_swap p, heq]; rfl
      exact this ▸ hp
    · intro hp
      exact ⟨_, hp, rfl⟩
  unfold SeenPairs.enter?
  rw [hmem]
  split
  · rfl
  · split <;> rfl

/-- A variable meets a value that is no variable: both walks bind the variable to the value. -/
theorem Mirrors.bind (hm : Mirrors K g u w) (ha : g.Within K a) (hb : g.Within K b)
    (hv : u.heap.deref a = .var v) (hne : ∀ v, u.heap.deref b ≠ .var v) {v' : VarId}
    (hv' : w.heap.deref a = .var v') :
    Reflects K g (u.bind v (u.heap.deref b)) (w.bind v' (w.heap.deref b)) := by
  have hne' : ∀ v, w.heap.deref b ≠ .var v := by
    intro v
    rw [hm.alike.eq hne]
    exact hne v
  rw [hm.bind_eq hv, hm.symm.bind_eq hv']
  exact ⟨rfl,
    { good := hm.good_bind ha hb hv (hne v)
      good' := hm.symm.good_bind ha hb hv' (hne' v')
      alike := hm.alike.bind (hm.ends_bind ha hb hv (hne v)) (hm.symm.ends_bind ha hb hv' (hne' v'))
      constants := hm.over_bind ha hb hv
      constants' := hm.symm.over_bind ha hb hv'
      seen := hm.seen
      size := by simpa using hm.size
      structs := hm.structs }⟩

/-- Two variables meet: the walks link them in opposite directions. -/
theorem Mirrors.cross (hm : Mirrors K g u w) (ha : g.Within K a) (hb : g.Within K b)
    {v₁ v₂ v₂' : VarId} (hv₁ : u.heap.deref a = .var v₁) (hv₂ : u.heap.deref b = .var v₂)
    (hv₂' : w.heap.deref b = .var v₂') (hne : u.heap.deref a ≠ u.heap.deref b) :
    Reflects K g (u.bind v₁ (u.heap.deref b)) (w.bind v₂' (w.heap.deref a)) := by
  have hne₁ : u.heap.deref b ≠ .var v₁ := fun heq => hne (hv₁.trans heq.symm)
  have hne₂ : w.heap.deref a ≠ .var v₂' := by
    intro heq
    exact hne ((hm.alike.together a b).1 (heq.trans hv₂'.symm))
  rw [hm.bind_eq hv₁, hm.symm.bind_eq hv₂']
  exact ⟨rfl,
    { good := hm.good_bind ha hb hv₁ hne₁
      good' := hm.symm.good_bind hb ha hv₂' hne₂
      alike := hm.alike.cross hv₁ hv₂ (hm.ends_bind ha hb hv₁ hne₁)
        (hm.symm.ends_bind hb ha hv₂' hne₂)
      constants := hm.over_bind ha hb hv₁
      constants' := hm.symm.over_bind hb ha hv₂'
      seen := hm.seen
      size := by simpa using hm.size
      structs := hm.structs }⟩

/-- Arguments pair by pair, when each pair keeps the walks side by side. -/
theorem pairwise_mirrors {f : Value → Value → Unifier → Bool × Unifier}
    (hf : ∀ a b u w, Mirrors K g u w → g.Within K a → g.Within K b →
      Reflects K g (f a b u) (f b a w)) :
    ∀ (as bs : List Value) (u w : Unifier), Mirrors K g u w → (∀ t ∈ as, g.Within K t) →
      (∀ t ∈ bs, g.Within K t) → Reflects K g (pairwise f as bs u) (pairwise f bs as w) := by
  intro as
  induction as with
  | nil =>
    intro bs u w hm _ _
    cases bs <;> exact ⟨rfl, hm⟩
  | cons a as ih =>
    intro bs u w hm has hbs
    cases bs with
    | nil => exact ⟨rfl, hm⟩
    | cons b bs =>
      obtain ⟨hok, hm'⟩ := hf a b u w hm (has a (by simp)) (hbs b (by simp))
      rw [pairwise_cons, pairwise_cons, ← hok]
      split
      · exact ih bs _ _ hm' (fun t ht => has t (by simp [ht])) fun t ht => hbs t (by simp [ht])
      · exact ⟨rfl, hm'⟩

/-- Two structures meet: the walks go on with their arguments. -/
theorem Mirrors.structs_reflect (hm : Mirrors K g u w) (hg : g.Good) (hK : g.AllOver K)
    (hargs : ∀ as bs u w, Mirrors K g u w → (∀ t ∈ as, g.Within K t) → (∀ t ∈ bs, g.Within K t) →
      Reflects K g (pairwise (unify n (depth + 1)) as bs u) (pairwise (unify n (depth + 1)) bs as w))
    (ha : u.heap.deref a = .struct x) (hb : u.heap.deref b = .struct y)
    (ha' : w.heap.deref a = .struct x) (hb' : w.heap.deref b = .struct y) :
    Reflects K g (unify (n + 1) depth a b u) (unify (n + 1) depth b a w) := by
  have hcell : ∀ z, u.heap.structCell z = g.structCell z := fun z => by
    simp [Heap.structCell, hm.structs]
  have hcell' : ∀ z, w.heap.structCell z = g.structCell z := fun z => by
    rw [hm.alike.structCell, hcell]
  have hwithin : ∀ z, ∀ t ∈ (g.structCell z).args, g.Within K t :=
    fun z t ht => ⟨hg.args z t ht, hK.args z t ht⟩
  rw [unify_succ, unify_succ, ha, hb, ha', hb', Value.same_comm (.struct y) (.struct x)]
  simp only [hcell, hcell', hm.seen, enter?_swap]
  split
  · exact ⟨rfl, hm⟩
  -- Names and numbers of arguments are compared the other way round.
  have hcomm : (decide ((g.structCell y).name ≠ (g.structCell x).name) ||
      decide ((g.structCell y).args.length ≠ (g.structCell x).args.length)) =
      (decide ((g.structCell x).name ≠ (g.structCell y).name) ||
      decide ((g.structCell x).args.length ≠ (g.structCell y).args.length)) := by
    simp only [ne_comm]
  rw [hcomm]
  split
  · exact ⟨rfl, hm⟩
  cases u.seen.enter? depth x y with
  | none => exact ⟨rfl, hm⟩
  | some seen =>
    refine hargs _ _ _ _ ?_ (hwithin x) (hwithin y)
    exact { hm with seen := rfl }

/-- Two that are neither variables nor both structures are compared as leaves. -/
theorem leafy_of (ha : ∀ v, a ≠ .var v) (hb : ∀ v, b ≠ .var v)
    (hstruct : ∀ x y, a = .struct x → b ≠ .struct y) : Heap.Leafy a b := by
  cases a <;> cases b <;> simp_all [Heap.Leafy]

theorem leafy_symm (h : Heap.Leafy a b) : Heap.Leafy b a := by
  cases a <;> cases b <;> exact h

/-- A pair that is not looked into. -/
theorem unify_leaf (hsame : ¬ (u.heap.deref a).same (u.heap.deref b) = true)
    (hleafy : Heap.Leafy (u.heap.deref a) (u.heap.deref b)) :
    unify (n + 1) depth a b u = (u.heap.sameLeaf (u.heap.deref a) (u.heap.deref b), u) := by
  rw [unify_succ, if_neg hsame]
  generalize u.heap.deref a = a' at *
  generalize u.heap.deref b = b' at *
  cases a' <;> cases b' <;> first | rfl | exact hleafy.elim

/-- Leaves are compared alike both ways. -/
theorem sameLeaf_comm {h h' : Heap} (hl : h.Alike h')
    (hsym : ∀ c ∈ K, ∀ d ∈ K, c.equal d = d.equal c) (ha : Heap.Over K a) (hb : Heap.Over K b) :
    h'.sameLeaf b a = h.sameLeaf a b := by
  cases a <;> cases b <;> simp only [Heap.sameLeaf, hl.structCell]
  exact hsym _ hb _ ha

/-- **The two walks stay side by side and end with one outcome.** -/
theorem unify_mirrors (hg : g.Good) (hK : g.AllOver K)
    (hsym : ∀ c ∈ K, ∀ d ∈ K, c.equal d = d.equal c) (n : Nat) :
    ∀ (depth : Nat) (a b : Value) (u w : Unifier), Mirrors K g u w → g.Within K a → g.Within K b →
      Reflects K g (unify n depth a b u) (unify n depth b a w) := by
  induction n with
  | zero => intro depth a b u w hm _ _; exact ⟨rfl, hm⟩
  | succ n ih =>
    intro depth a b u w hm ha hb
    have hsame : (w.heap.deref b).same (w.heap.deref a) = (u.heap.deref a).same (u.heap.deref b) := by
      rw [hm.alike.same, Value.same_comm]
    -- By what the two values end in: the same, two variables, a variable and something else, structures,
    -- leaves.
    by_cases hdiff : (u.heap.deref a).same (u.heap.deref b) = true
    · rw [unify_succ, unify_succ, hsame, if_pos hdiff, if_pos hdiff]
      exact ⟨rfl, hm⟩
    have hne : u.heap.deref a ≠ u.heap.deref b := by
      intro heq
      exact hdiff (by rw [heq, Value.same_refl])
    by_cases hva : ∃ v, u.heap.deref a = .var v
    · obtain ⟨v, hv⟩ := hva
      obtain ⟨v', hv'⟩ := hm.alike.var hv
      by_cases hvb : ∃ v₂, u.heap.deref b = .var v₂
      · obtain ⟨v₂, hv₂⟩ := hvb
        obtain ⟨v₂', hv₂'⟩ := hm.alike.var hv₂
        have hcross := hm.cross ha hb hv hv₂ hv₂' hne
        rw [unify_succ, unify_succ, hsame, if_neg hdiff, if_neg hdiff]
        simp only [hv, hv₂, hv', hv₂'] at hcross ⊢
        exact hcross
      · have hvb : ∀ v₂, u.heap.deref b ≠ .var v₂ := fun v₂ h => hvb ⟨v₂, h⟩
        have hbind := hm.bind ha hb hv hvb hv'
        rw [unify_succ, unify_succ, hsame, if_neg hdiff, if_neg hdiff]
        rw [hm.alike.eq hvb] at hbind ⊢
        simp only [hv, hv']
        cases hd : u.heap.deref b with
        | var v₂ => exact absurd hd (hvb v₂)
        | _ => rw [hd] at hbind; exact hbind
    · have hva : ∀ v, u.heap.deref a ≠ .var v := fun v h => hva ⟨v, h⟩
      have ha' := hm.alike.eq hva
      by_cases hvb : ∃ v₂, u.heap.deref b = .var v₂
      · obtain ⟨v₂, hv₂⟩ := hvb
        obtain ⟨v₂', hv₂'⟩ := hm.alike.var hv₂
        have hbind := (hm.symm.bind hb ha hv₂' (fun v => ha' ▸ hva v) hv₂).symm
        rw [unify_succ, unify_succ, hsame, if_neg hdiff, if_neg hdiff]
        rw [ha'] at hbind ⊢
        simp only [hv₂, hv₂']
        cases hd : u.heap.deref a with
        | var v => exact absurd hd (hva v)
        | _ => rw [hd] at hbind; exact hbind
      · have hvb : ∀ v₂, u.heap.deref b ≠ .var v₂ := fun v₂ h => hvb ⟨v₂, h⟩
        have hb' := hm.alike.eq hvb
        by_cases hstruct : ∃ x y, u.heap.deref a = .struct x ∧ u.heap.deref b = .struct y
        · obtain ⟨x, y, hx, hy⟩ := hstruct
          exact hm.structs_reflect hg hK (pairwise_mirrors (ih (depth + 1))) hx hy (ha'.trans hx)
            (hb'.trans hy)
        · have hleafy := leafy_of hva hvb fun x y hx hy => hstruct ⟨x, y, hx, hy⟩
          have hdiff' : ¬ (w.heap.deref b).same (w.heap.deref a) = true := by rwa [hsame]
          rw [unify_leaf hdiff hleafy, unify_leaf hdiff' (by rw [ha', hb']; exact leafy_symm hleafy), ha',
            hb', sameLeaf_comm hm.alike hsym (hm.over_deref ha) (hm.over_deref hb)]
          exact ⟨rfl, hm⟩

end Unifier

namespace Heap

variable {h : Heap} {K : Set Constant} {a b : Value}

/-! ## §4. The two orders. -/

/-- The two orders give one outcome, and heaps in which chains end alike. -/
theorem unify_reflects (hg : h.Good) (hK : h.AllOver K)
    (hsym : ∀ c ∈ K, ∀ d ∈ K, c.equal d = d.equal c) (ha : h.Within K a) (hb : h.Within K b) :
    Unifier.Reflects K h (h.unify a b) (h.unify b a) :=
  Unifier.unify_mirrors hg hK hsym h.walkBound 0 a b ⟨h, [], []⟩ ⟨h, [], []⟩
    ⟨hg, hg, .refl h, hK, hK, rfl, rfl, rfl⟩ ha hb

/-- **Unification is symmetric.**  On a heap whose chains end, unifying two terms in either order gives
    one outcome.  Afterwards comparison says the same of every two terms, structures are the same, and
    chains end alike: only the directions of links between variables differ. -/
theorem unify_symmetric (hg : h.Good) (hK : h.AllOver K)
    (hsym : ∀ c ∈ K, ∀ d ∈ K, c.equal d = d.equal c) (ha : h.Within K a) (hb : h.Within K b) :
    (h.unify a b).1 = (h.unify b a).1 ∧
      (∀ s t, (h.unify a b).2.heap.identical s t = (h.unify b a).2.heap.identical s t) ∧
      (h.unify a b).2.heap.Alike (h.unify b a).2.heap := by
  obtain ⟨hok, hm⟩ := unify_reflects hg hK hsym ha hb
  exact ⟨hok, fun s t => (hm.alike.identical s t).symm, hm.alike⟩

/-- The terms `f(X, Z, a)` and `f(Y, f(X, Z, a), a())`, where `a` is an atom and `a()` a structure
    without arguments. -/
def facing : Heap where
  vars := #[⟨"X", 1, none⟩, ⟨"Y", 2, none⟩, ⟨"Z", 3, none⟩]
  structs := #[⟨"f", [.var 0, .var 2, .const ⟨.atom "a", .code 0 0⟩], .none⟩,
    ⟨"f", [.var 1, .struct 0, .struct 2], .none⟩, ⟨"a", [], .none⟩]
  constants := 0
  numbered := 3

/-- In one order `X` is linked to `Y`, in the other order `Y` to `X`; `Z` becomes a cyclic term. -/
theorem unify_symmetric_facing :
    ((facing.unify (.struct 0) (.struct 1)).1 = true ∧
      (facing.unify (.struct 0) (.struct 1)).2.heap.isBound 0 = true ∧
      (facing.unify (.struct 1) (.struct 0)).2.heap.isBound 0 = false) ∧
    (facing.unify (.struct 0) (.struct 1)).1 = (facing.unify (.struct 1) (.struct 0)).1 ∧
      (∀ s t, (facing.unify (.struct 0) (.struct 1)).2.heap.identical s t =
        (facing.unify (.struct 1) (.struct 0)).2.heap.identical s t) ∧
      (facing.unify (.struct 0) (.struct 1)).2.heap.Alike
        (facing.unify (.struct 1) (.struct 0)).2.heap := by
  -- No variable is bound to begin with, and all constants are one.
  have hfree : ∀ v, facing.binding? v = none := by
    intro v
    rcases v with _ | _ | _ | v <;> rfl
  have hargs : ∀ s, ∀ t ∈ (facing.structCell s).args,
      facing.Within {⟨.atom "a", .code 0 0⟩} t := by
    intro s t ht
    rcases s with _ | _ | _ | s <;> simp [structCell, facing] at ht <;>
      rcases ht with rfl | rfl | rfl <;> simp [facing, Within, Over]
  have hgood : facing.Good :=
    { bindings := fun v t hv => by rw [hfree v] at hv; cases hv
      args := fun s t ht => (hargs s t ht).1
      acyclic := ⟨fun _ => 0, fun v w hv => by rw [hfree v] at hv; cases hv⟩ }
  have hover : facing.AllOver {⟨.atom "a", .code 0 0⟩} :=
    { bindings := fun v t hv => by rw [hfree v] at hv; cases hv
      args := fun s t ht => (hargs s t ht).2 }
  refine ⟨by decide +kernel, unify_symmetric hgood hover ?_ ⟨by simp [facing], trivial⟩
    ⟨by simp [facing], trivial⟩⟩
  intro c hc d hd
  rw [hc, hd]

end Heap

end PrologMachine
