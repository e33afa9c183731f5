/-
  PrologMachine.Proofs.Heap.Comparison ── **UNIFICATION AND COMPARISON AGREE.**

  Unification makes two terms equal, and comparison finds them equal; both remember pairs of structures
  on their own.  Where no functor is without arguments they follow each other pair by pair, so each
  remembers what the other does.

    * `Unifier.comparing_of_unifying`: a pair that unification gets past is one that comparison gets past
      in every later heap, whatever was bound since.
    * `Unifier.unifying_of_comparing`: a pair that comparison gets past is one where unification binds
      nothing.
    * `Heap.unify_agrees_identical`: unified terms are identical, and identical terms are those that
      unify without a binding.
-/
import PrologMachine.Proofs.Heap.Descent
import PrologMachine.Proofs.Heap.Trail

namespace PrologMachine

/-! ## §1. Visits that find no difference. -/

namespace Visit

/-- The visit finds no difference. -/
def agrees : Visit → Bool
  | .settles ok _ => ok
  | .enters _ _ _ => true

/-- The state after a visit from `u`. -/
def state (u : Unifier) : Visit → Unifier
  | .settles _ u' => u'
  | .enters _ _ seen => { u with seen }

/-- The visit in another heap, with the same pairs remembered. -/
def replay (w : Unifier) : Visit → Visit
  | .settles ok u => .settles ok { w with seen := u.seen }
  | .enters x y seen => .enters x y seen

end Visit

/-- Where no functor is without arguments, only constants are equal without being looked into. -/
theorem Heap.consts_of_sameLeaf {h : Heap} {a b : Value}
    (hargs : ∀ s < h.structs.size, (h.structCell s).args ≠ []) (ha : h.Holds a) (hb : h.Holds b)
    (heq : h.sameLeaf a b = true) : ∃ c d, a = .const c ∧ b = .const d ∧ c.equal d = true := by
  cases a <;> cases b <;> simp only [sameLeaf, Bool.false_eq_true, Bool.and_eq_true,
    List.isEmpty_iff] at heq
  · exact ⟨_, _, rfl, rfl, heq⟩
  · exact absurd heq.1 (hargs _ hb)
  · exact absurd heq.1 (hargs _ ha)

namespace Unifier

variable {depth n : Nat} {a b t : Value} {u w : Unifier} {v : VarId} {x y : StructId}

/-! ## §2. What unification gets past. -/

/-- Chains end where they ended, or go on from there. -/
theorem Grows.deref_deref (h : u.Grows w) (hg : u.heap.Good) (t : Value) :
    w.heap.deref (u.heap.deref t) = w.heap.deref t := by
  obtain ⟨_, _, hb⟩ := h.binds
  induction t using hg.chain_induction with
  | free v hv => rw [Heap.deref_free hv]
  | bound v t hv ih => rw [Heap.deref_bound hg hv, Heap.deref_bound h.good (hb.keeps hv), ih]
  | const c => rfl
  | struct s => rfl
  | absent => rfl

/-- A chain that ended in a variable ends, once the variable is bound, where its value ends. -/
theorem Grows.deref_bind (h : (u.bind v (u.heap.deref b)).2.Grows w) (hu : u.Grows w)
    (hg : u.heap.Good) (ha : u.heap.Holds a) (hda : u.heap.deref a = .var v) :
    w.heap.deref a = w.heap.deref b := by
  obtain ⟨_, _, hb⟩ := h.binds
  have hv : u.heap.Holds (.var v) := hda ▸ hg.holds_deref ha
  have hbound : w.heap.binding? v = some (u.heap.deref b) := by
    refine hb.keeps ?_
    rw [bind_heap (hg.binding?_of_deref hda), Heap.binding?_set hv, if_pos rfl]
  calc w.heap.deref a = w.heap.deref (.var v) := by rw [← hda, hu.deref_deref hg]
    _ = w.heap.deref (u.heap.deref b) := Heap.deref_bound h.good hbound
    _ = w.heap.deref b := hu.deref_deref hg b

theorem meeting_replay (hcell : ∀ s, w.heap.structCell s = u.heap.structCell s) :
    { w with seen := u.seen }.meeting depth x y = (u.meeting depth x y).replay w := by
  simp only [meeting, hcell]
  split
  · rfl
  · cases u.seen.enter? depth x y <;> rfl

/-- **What unification gets past, comparison gets past in every later heap.** -/
theorem comparing_of_unifying (hg : u.heap.Good) (ha : u.heap.Holds a) (hb : u.heap.Holds b)
    (hargs : ∀ s < w.heap.structs.size, (w.heap.structCell s).args ≠ [])
    (hok : (unifying depth (u.heap.deref a) (u.heap.deref b) u).agrees = true)
    (hw : ((unifying depth (u.heap.deref a) (u.heap.deref b) u).state u).Grows w) :
    comparing depth (w.heap.deref a) (w.heap.deref b) { w with seen := u.seen } =
      (unifying depth (u.heap.deref a) (u.heap.deref b) u).replay w := by
  -- Where the chains end in one cell, comparison is settled.
  have hcell : (w.heap.deref a).same (w.heap.deref b) = true →
      comparing depth (w.heap.deref a) (w.heap.deref b) { w with seen := u.seen } =
        .settles true { w with seen := u.seen } := by
    intro hsame
    unfold comparing
    rw [if_pos hsame]
  -- In the later heap a chain goes on from where it ended.
  have hends : u.Grows w → ∀ {t e}, u.heap.deref t = e → w.heap.deref t = w.heap.deref e :=
    fun hu t e ht => by rw [← ht, hu.deref_deref hg]
  have ha' := hg.holds_deref ha
  have hb' := hg.holds_deref hb
  have hleft := @extends_left a b u
  have hright := @extends_right a b u
  generalize hvisit : unifying depth (u.heap.deref a) (u.heap.deref b) u = visit at hok hw ⊢
  unfold unifying at hvisit
  split at hvisit
  · next hsame =>
    subst hvisit
    refine hcell ?_
    rw [← hw.deref_deref hg a, ← hw.deref_deref hg b]
    exact Heap.same_deref hsame
  next hsame =>
  rw [Bool.not_eq_true] at hsame
  split at hvisit
  · next v hda =>
    subst hvisit
    have hu := (hleft hg ha hb hsame hda).grows.trans hw
    have heq := Grows.deref_bind hw hu hg ha hda
    rw [Visit.replay, bind_seen]
    exact hcell (heq ▸ Value.same_refl _)
  · next v hdb hne =>
    subst hvisit
    have hu := (hright hg ha hb (fun v => hne v) hdb).grows.trans hw
    have heq := Grows.deref_bind hw hu hg hb hdb
    rw [Visit.replay, bind_seen]
    exact hcell (heq ▸ Value.same_refl _)
  · next x y hda hdb =>
    -- Two structures bind nothing when they meet, so `w` is later than `u` in each of the cases.
    have hu : u.Grows w := by
      cases hm : u.meeting depth x y with
      | settles ok u' =>
        rw [← hvisit, hm, meeting_settles hm] at hw
        exact hw
      | enters x' y' seen =>
        rw [← hvisit, hm] at hw
        exact ⟨hw.good, hw.binds⟩
    rw [hda, hdb] at hsame
    rw [hends hu hda, hends hu hdb, ← hvisit, ← meeting_replay hu.structCell]
    unfold comparing
    exact if_neg (by simp [hsame])
  · subst hvisit
    have hu : u.Grows w := hw
    have hargs' : ∀ s < u.heap.structs.size, (u.heap.structCell s).args ≠ [] := by
      intro s hs
      rw [← hu.structCell]
      exact hargs s (hu.structs ▸ hs)
    obtain ⟨c, d, hc, hd, heq⟩ := Heap.consts_of_sameLeaf hargs' ha' hb' hok
    rw [hc, hd] at hsame ⊢
    rw [hends hu hc, hends hu hd]
    unfold comparing
    rw [Heap.deref_const, Heap.deref_const, if_neg (by simp [hsame])]
    rfl

/-- Where the calls of `f` are replayed by those of `g`, so are lists of calls. -/
theorem pairwise_replays {f g : Value → Value → Unifier → Bool × Unifier}
    (hgrows : ∀ a b (u : Unifier), u.heap.Good → u.heap.Holds a → u.heap.Holds b → u.Grows (f a b u).2)
    (hfg : ∀ a b (u : Unifier), u.heap.Good → u.heap.Holds a → u.heap.Holds b → (f a b u).1 = true →
      (f a b u).2.Grows w →
      g a b { w with seen := u.seen } = (true, { w with seen := (f a b u).2.seen })) :
    ∀ (as bs : List Value) (u : Unifier), u.heap.Good → (∀ t ∈ as, u.heap.Holds t) →
      (∀ t ∈ bs, u.heap.Holds t) → (pairwise f as bs u).1 = true → (pairwise f as bs u).2.Grows w →
      pairwise g as bs { w with seen := u.seen } =
        (true, { w with seen := (pairwise f as bs u).2.seen }) := by
  intro as
  induction as with
  | nil => intro bs u _ _ _ _ _; rfl
  | cons a as ih =>
    intro bs u hg has hbs hok hw
    cases bs with
    | nil => rfl
    | cons b bs =>
      have ha := has a List.mem_cons_self
      have hb := hbs b List.mem_cons_self
      have hstep := hgrows a b u hg ha hb
      have hfirst := hfg a b u hg ha hb
      rw [pairwise_cons] at hok hw
      rw [pairwise_cons, pairwise_cons]
      -- The first pair, and then the rest in the heap that it leaves.
      generalize f a b u = first at *
      obtain ⟨_ | _, u₁⟩ := first
      · cases hok
      have has' := hstep.holds_rest has
      have hbs' := hstep.holds_rest hbs
      have hrest := pairwise_grows hgrows as bs u₁ hstep.good has' hbs'
      rw [hfirst rfl (hrest.trans hw)]
      exact ih bs u₁ hstep.good has' hbs' hok hw

/-- **Where a unification succeeds, a comparison in every later heap does.** -/
theorem compare_of_unify (hargs : ∀ s < w.heap.structs.size, (w.heap.structCell s).args ≠ [])
    (n : Nat) : ∀ (depth : Nat) (a b : Value) (u : Unifier), u.heap.Good → u.heap.Holds a →
      u.heap.Holds b → (unify n depth a b u).1 = true → (unify n depth a b u).2.Grows w →
      compare n depth a b { w with seen := u.seen } =
        (true, { w with seen := (unify n depth a b u).2.seen }) := by
  induction n with
  | zero => intro depth a b u _ _ _ hok _; cases hok
  | succ n ih =>
    intro depth a b u hg ha hb hok hw
    rw [unify_succ_eq] at hok hw ⊢
    rw [compare_succ]
    have hvisit := @comparing_of_unifying depth a b u w hg ha hb hargs
    generalize unifying depth (u.heap.deref a) (u.heap.deref b) u = visit at *
    cases visit with
    | settles ok u' =>
      obtain rfl : ok = true := hok
      rw [hvisit rfl hw]
      rfl
    | enters x y seen =>
      -- The arguments only add to what was known at the structures.
      have hlist := pairwise_grows (f := unify n (depth + 1)) (unify_grows n (depth + 1))
        (u.heap.structCell x).args (u.heap.structCell y).args { u with seen } hg (hg.args x) (hg.args y)
      have hu := hlist.trans hw
      have hcell : ∀ s, w.heap.structCell s = u.heap.structCell s := hu.structCell
      rw [hvisit rfl hu]
      simp only [proceed, Visit.replay, hcell]
      exact pairwise_replays (unify_grows n (depth + 1)) (ih (depth + 1)) _ _ { u with seen } hg
        (hg.args x) (hg.args y) hok hw

/-! ## §3. What comparison gets past. -/

/-- **What comparison gets past, unification gets past in the same way.** -/
theorem unifying_of_comparing (hok : (comparing depth a b u).agrees = true) :
    unifying depth a b u = comparing depth a b u := by
  unfold comparing at hok ⊢
  unfold unifying
  split at hok
  · next hsame => rw [if_pos hsame, if_pos hsame]
  next hsame =>
  rw [if_neg hsame, if_neg hsame]
  split at hok
  · rfl
  · rfl
  · cases hok

/-- Where the calls of `g` that succeed are those of `f`, so are lists of calls. -/
theorem pairwise_eq_of {f g : Value → Value → Unifier → Bool × Unifier}
    (hfg : ∀ a b u, (g a b u).1 = true → f a b u = g a b u) : ∀ (as bs : List Value) (u : Unifier),
      (pairwise g as bs u).1 = true → pairwise f as bs u = pairwise g as bs u := by
  intro as
  induction as with
  | nil => intro bs u _; rfl
  | cons a as ih =>
    intro bs u hok
    cases bs with
    | nil => rfl
    | cons b bs =>
      rw [pairwise_cons] at hok
      rw [pairwise_cons, pairwise_cons]
      cases hfirst : (g a b u).1 with
      | false => rw [hfirst] at hok; cases hok
      | true =>
        rw [hfirst] at hok
        rw [hfg a b u hfirst, hfirst]
        exact ih bs _ hok

/-- **Where a comparison succeeds, the unification is this comparison.** -/
theorem unify_of_compare (n : Nat) : ∀ (depth : Nat) (a b : Value) (u : Unifier),
    (compare n depth a b u).1 = true → unify n depth a b u = compare n depth a b u := by
  induction n with
  | zero => intro depth a b u hok; cases hok
  | succ n ih =>
    intro depth a b u hok
    rw [compare_succ] at hok ⊢
    have hagrees : (comparing depth (u.heap.deref a) (u.heap.deref b) u).agrees = true := by
      cases hv : comparing depth (u.heap.deref a) (u.heap.deref b) u with
      | settles ok u' => rw [hv] at hok; exact hok
      | enters x y seen => rfl
    rw [unify_succ_eq, unifying_of_comparing hagrees]
    cases hv : comparing depth (u.heap.deref a) (u.heap.deref b) u with
    | settles ok u' => rfl
    | enters x y seen =>
      rw [hv] at hok
      exact pairwise_eq_of (ih (depth + 1)) _ _ _ hok

end Unifier

/-! ## §4. The two recursions on a heap. -/

namespace Heap

variable {h : Heap} {a b : Value}

/-- **Terms that were unified are identical, and identical terms are those that unify without a
    binding**, cyclic or not. -/
theorem unify_agrees_identical (hg : h.Good)
    (hargs : ∀ s < h.structs.size, (h.structCell s).args ≠ []) (ha : h.Holds a) (hb : h.Holds b) :
    ((h.unify a b).1 = true → (h.unify a b).2.heap.identical a b = true) ∧
      (h.identical a b = true ↔ (h.unify a b).1 = true ∧ (h.unify a b).2.bound = []) ∧
      ((h.unify a b).2.bound = [] → (h.unify a b).2.heap = h) := by
  -- A unification that binds nothing leaves the heap as it was.
  have hunchanged : (h.unify a b).2.bound = [] → (h.unify a b).2.heap = h := by
    intro hbound
    have hrecords := unify_records h a b
    rw [hbound] at hrecords
    exact hrecords.resetAll
  -- The walk of a unification that succeeds is replayed by the comparison.
  have hunified : (h.unify a b).1 = true → (h.unify a b).2.heap.identical a b = true := by
    intro hok
    have hstructs := (unify_binds hg ha hb).structs
    have hcell := (unify_binds hg ha hb).structCell
    have hcompare := Unifier.compare_of_unify (w := (h.unify a b).2)
      (fun s hs => by rw [hcell]; exact hargs s (hstructs ▸ hs)) h.walkBound 0 a b ⟨h, [], []⟩ hg ha hb
      hok (.refl (good_unify hg ha hb))
    have hbound : (h.unify a b).2.heap.walkBound = h.walkBound := by rw [walkBound, hstructs]; rfl
    rw [identical, hbound]
    exact congrArg Prod.fst hcompare
  -- A comparison that succeeds is a unification without bindings.
  refine ⟨hunified, ⟨fun hid => ?_, ?_⟩, hunchanged⟩
  · have heq : h.unify a b = Unifier.compare h.walkBound 0 a b ⟨h, [], []⟩ :=
      Unifier.unify_of_compare h.walkBound 0 a b ⟨h, [], []⟩ hid
    rw [heq]
    exact ⟨hid, rfl⟩
  · rintro ⟨hok, hbound⟩
    have hid := hunified hok
    rwa [hunchanged hbound] at hid

/-- Two cyclic terms that differ in a free variable: unifying them binds it, and they are identical from
    then on and were not before. -/
theorem unify_agrees_identical_loops :
    ((loops.unify (.var 0) (.var 1)).1 = true ∧ (loops.unify (.var 0) (.var 1)).2.bound = [2]) ∧
      ((loops.unify (.var 0) (.var 1)).1 = true →
        (loops.unify (.var 0) (.var 1)).2.heap.identical (.var 0) (.var 1) = true) ∧
      (loops.identical (.var 0) (.var 1) = true ↔
        (loops.unify (.var 0) (.var 1)).1 = true ∧ (loops.unify (.var 0) (.var 1)).2.bound = []) ∧
      ((loops.unify (.var 0) (.var 1)).2.bound = [] → (loops.unify (.var 0) (.var 1)).2.heap = loops) :=
  ⟨by decide +kernel,
    unify_agrees_identical loops_plain.good loops_plain.args (by simp [loops]) (by simp [loops])⟩

end Heap

end PrologMachine
