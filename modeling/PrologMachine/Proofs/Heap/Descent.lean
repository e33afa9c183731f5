/-
  PrologMachine.Proofs.Heap.Descent ── **HOW DEEP UNIFICATION AND COMPARISON GO.**

  Unification and comparison go through two terms in the same way.  A call follows both values to the
  ends of their chains; there it settles the pair or goes on with the arguments of two structures, one
  call deeper.  `Unifier.within` is this recursion with a limit that shows: a chain that does not end,
  and a call that would nest deeper than the limit, give no result.

  Neither happens.  Down to `cycleDepth` a call is charged to its depth, and from there on to the pair
  of structures that the call above it remembered for the first time.

    * `Unifier.unify_succ_eq`, `Unifier.compare_succ`: a call of either recursion is a visit.
    * `Visiting.Careful`: what a visit may do to the state.
    * `Unifier.Suffices.of_careful`: then the limit is not met.
    * `Heap.nesting_bounded`: this for unifying, for trying to unify and for comparing.
-/
import PrologMachine.Proofs.Heap.MostGeneral

namespace PrologMachine

namespace Heap

variable {h : Heap} {v : VarId} {t e : Value}

/-! ## §1. Chains that end. -/

/-- The end of a chain of at most `n` cells. -/
def follow? (h : Heap) : (n : Nat) → Value → Option Value
  | 0, _ => none
  | n + 1, .var v =>
    match h.binding? v with
    | none => some (.var v)
    | some t => h.follow? n t
  | _ + 1, t => some t

/-- A bounded chain that ends, ends where `deref` does. -/
theorem Descends.deref_of_follow? {rank : VarId → Nat} (hr : h.Descends rank) :
    ∀ {n : Nat} {t : Value}, h.follow? n t = some e → h.deref t = e := by
  intro n
  induction n with
  | zero => intro t ht; cases ht
  | succ n ih =>
    intro t ht
    cases t with
    | var v =>
      cases hv : h.binding? v with
      | none =>
        rw [follow?, hv] at ht
        rw [deref_free hv]
        exact Option.some.inj ht
      | some t =>
        rw [follow?, hv] at ht
        rw [hr.deref_bound hv]
        exact ih ht
    | _ => exact Option.some.inj ht

/-- A chase that runs out of steps, or comes back to where it began, stops at a bound variable. -/
theorem chase_of_follow? (o : VarId) : ∀ {n : Nat} {v : VarId}, h.follow? (n + 1) (.var v) = none →
    ∃ w, h.chase o n v = .var w ∧ h.binding? w ≠ none := by
  intro n
  induction n with
  | zero =>
    intro v hv
    refine ⟨v, rfl, fun hfree => ?_⟩
    rw [follow?, hfree] at hv
    cases hv
  | succ n ih =>
    intro v hv
    cases hb : h.binding? v with
    -- A free variable would end the chain.
    | none => rw [follow?, hb] at hv; cases hv
    | some t =>
      rw [follow?, hb] at hv
      cases t with
      | var w =>
        by_cases hwo : w = o
        · -- The chase stops at the origin, which the longer chain shows to be bound.
          subst hwo
          refine ⟨w, by simp [chase, hb], fun hfree => ?_⟩
          simp [follow?, hfree] at hv
        · simp only [chase, hb, hwo, if_false]
          exact ih hv
      | _ => cases hv

/-- **Where links go down in rank every chain ends.** -/
theorem Descends.follow? {rank : VarId → Nat} (hr : h.Descends rank) (t : Value) :
    h.follow? (h.vars.size + 2) t = some (h.deref t) := by
  cases hf : h.follow? (h.vars.size + 2) t with
  | some e => rw [hr.deref_of_follow? hf]
  | none =>
    cases t with
    | var v =>
      obtain ⟨w, hw, hbound⟩ := chase_of_follow? v hf
      exact absurd (hr.binding?_of_deref (t := .var v) hw) hbound
    | _ => cases hf

/-- In a good heap every chain fits into as many steps as there are variables. -/
theorem Good.follow? (hg : h.Good) (t : Value) :
    h.follow? (h.vars.size + 2) t = some (h.deref t) :=
  have ⟨_, hr⟩ := hg.acyclic
  hr.follow? t

end Heap

/-! ## §2. Visits. -/

/-- What a call comes to at the ends of two chains. -/
inductive Visit where
  /-- The pair is settled, with an outcome. -/
  | settles (ok : Bool) (u : Unifier)
  /-- The arguments of two structures are to be looked at. -/
  | enters (x y : StructId) (seen : SeenPairs)

/-- A recursion over two terms, given by its visits at each depth. -/
abbrev Visiting := (depth : Nat) → Value → Value → Unifier → Visit

namespace Unifier

variable {depth n : Nat} {a b : Value} {u : Unifier}

/-- What a visit leads to, given the calls one level deeper. -/
def proceed (u : Unifier) (call : Value → Value → Unifier → Bool × Unifier) : Visit → Bool × Unifier
  | .settles ok u' => (ok, u')
  | .enters x y seen =>
    pairwise call (u.heap.structCell x).args (u.heap.structCell y).args { u with seen }

/-- Two structures meet: they differ, they were met before, or they are entered. -/
def meeting (u : Unifier) (depth : Nat) (x y : StructId) : Visit :=
  if (u.heap.structCell x).name ≠ (u.heap.structCell y).name ||
      (u.heap.structCell x).args.length ≠ (u.heap.structCell y).args.length then .settles false u
  else match u.seen.enter? depth x y with
    | none => .settles true u
    | some seen => .enters x y seen

/-- One call of a unification, at the ends of its chains. -/
def unifying : Visiting := fun depth a b u =>
  if a.same b then .settles true u
  else match a, b with
    | .var v, t => .settles true (u.bind v t).2
    | t, .var v => .settles true (u.bind v t).2
    | .struct x, .struct y => u.meeting depth x y
    | a, b => .settles (u.heap.sameLeaf a b) u

/-- One call of a comparison, at the ends of its chains. -/
def comparing : Visiting := fun depth a b u =>
  if a.same b then .settles true u
  else match a, b with
    | .const c, .const d => .settles (c.equal d) u
    | .struct x, .struct y => u.meeting depth x y
    | _, _ => .settles false u

/-- A comparison as a unification that binds nothing. -/
def compare (n depth : Nat) (a b : Value) (u : Unifier) : Bool × Unifier :=
  ((u.heap.compare n depth a b u.seen).1, { u with seen := (u.heap.compare n depth a b u.seen).2 })

/-- A meeting of two structures goes on exactly when functors and arities agree. -/
theorem proceed_meeting {call : Value → Value → Unifier → Bool × Unifier} {x y : StructId} :
    u.proceed call (u.meeting depth x y) =
      if (u.heap.structCell x).name ≠ (u.heap.structCell y).name ||
          (u.heap.structCell x).args.length ≠ (u.heap.structCell y).args.length then (false, u)
      else match u.seen.enter? depth x y with
        | none => (true, u)
        | some seen =>
          pairwise call (u.heap.structCell x).args (u.heap.structCell y).args { u with seen } := by
  unfold meeting
  split
  · rfl
  · cases u.seen.enter? depth x y <;> rfl

/-- **A call of a unification is a visit.** -/
theorem unify_succ_eq (n depth : Nat) (a b : Value) (u : Unifier) :
    unify (n + 1) depth a b u = u.proceed (unify n (depth + 1))
      (unifying depth (u.heap.deref a) (u.heap.deref b) u) := by
  have hbind : ∀ v t, u.bind v t = (true, (u.bind v t).2) := fun v t => Prod.ext bind_fst rfl
  rw [unify_succ]
  unfold unifying
  split
  · rfl
  -- By the ends of the chains: leaves are settled, a variable is bound, two structures meet.
  cases u.heap.deref a <;> cases u.heap.deref b <;>
    first
      | rfl
      | exact hbind _ _
      | exact proceed_meeting.symm

/-- Comparing arguments pair by pair. -/
theorem pairwise_compare (n depth : Nat) : ∀ (as bs : List Value) (u : Unifier),
    pairwise (compare n depth) as bs u =
      ((Heap.allPairs (u.heap.compare n depth) as bs u.seen).1,
        { u with seen := (Heap.allPairs (u.heap.compare n depth) as bs u.seen).2 }) := by
  intro as
  induction as with
  | nil => intro bs u; rfl
  | cons a as ih =>
    intro bs u
    cases bs with
    | nil => rfl
    | cons b bs =>
      rw [pairwise_cons, compare, Heap.allPairs]
      rcases u.heap.compare n depth a b u.seen with ⟨_ | _, seen⟩
      · rfl
      · exact ih bs { u with seen }

/-- **A call of a comparison is a visit.** -/
theorem compare_succ (n depth : Nat) (a b : Value) (u : Unifier) :
    compare (n + 1) depth a b u = u.proceed (compare n (depth + 1))
      (comparing depth (u.heap.deref a) (u.heap.deref b) u) := by
  simp only [compare, Heap.compare]
  unfold comparing
  split
  · rfl
  -- Only two structures that meet lead to further calls.
  cases u.heap.deref a <;> cases u.heap.deref b <;> try rfl
  simp only [proceed_meeting, pairwise_compare]
  split
  · rfl
  · cases u.seen.enter? depth _ _ <;> rfl

/-! ## §3. A limit that shows. -/

/-- Calls pair by pair, up to the first that fails or gives no result. -/
def pairwise? (call : Value → Value → Unifier → Option (Bool × Unifier)) :
    List Value → List Value → Unifier → Option (Bool × Unifier)
  | a :: as, b :: bs, u =>
    match call a b u with
    | some (true, u) => pairwise? call as bs u
    | some (false, u) => some (false, u)
    | none => none
  | _, _, u => some (true, u)

/-- What a visit leads to, given the calls one level deeper that may give no result. -/
def proceed? (u : Unifier) (call : Value → Value → Unifier → Option (Bool × Unifier)) :
    Visit → Option (Bool × Unifier)
  | .settles ok u' => some (ok, u')
  | .enters x y seen =>
    pairwise? call (u.heap.structCell x).args (u.heap.structCell y).args { u with seen }

/-- The recursion with at most `limit` calls inside each other, the outermost included.  A call with a
    chain that has more cells than there are gives no result either. -/
def within (visit : Visiting) : (limit depth : Nat) → Value → Value → Unifier →
    Option (Bool × Unifier)
  | 0, _, _, _, _ => none
  | n + 1, depth, a, b, u =>
    match u.heap.follow? (u.heap.vars.size + 2) a, u.heap.follow? (u.heap.vars.size + 2) b with
    | some a, some b => u.proceed? (within visit n (depth + 1)) (visit depth a b u)
    | _, _ => none

/-- Without chains that do not end, only the limit is left. -/
theorem within_succ {visit : Visiting} (hg : u.heap.Good) :
    within visit (n + 1) depth a b u = u.proceed? (within visit n (depth + 1))
      (visit depth (u.heap.deref a) (u.heap.deref b) u) := by
  rw [within, hg.follow? a, hg.follow? b]

end Unifier

/-- Visits at the ends of chains add nothing but bindings and remembered pairs, and they enter the two
    structures that met. -/
structure Visiting.Careful (visit : Visiting) : Prop where
  /-- A pair that is settled. -/
  settles : ∀ {depth : Nat} {a b : Value} {u u' : Unifier} {ok : Bool}, u.heap.Good → u.heap.Holds a →
    u.heap.Holds b → visit depth (u.heap.deref a) (u.heap.deref b) u = .settles ok u' → u.Extends u'
  /-- A pair that is entered. -/
  enters : ∀ {depth : Nat} {a b : Value} {u : Unifier} {x y : StructId} {seen : SeenPairs},
    visit depth a b u = .enters x y seen →
      a = .struct x ∧ b = .struct y ∧ u.seen.enter? depth x y = some seen

namespace Unifier

variable {depth n : Nat} {a b : Value} {u u' : Unifier} {x y : StructId} {seen : SeenPairs} {ok : Bool}

/-- A meeting that settles changes nothing. -/
theorem meeting_settles (h : u.meeting depth x y = .settles ok u') : u' = u := by
  unfold meeting at h
  split at h
  · cases h; rfl
  · split at h
    · cases h; rfl
    · cases h

/-- A meeting that enters records the pair it enters. -/
theorem meeting_enters {x' y' : StructId} (h : u.meeting depth x y = .enters x' y' seen) :
    x = x' ∧ y = y' ∧ u.seen.enter? depth x' y' = some seen := by
  unfold meeting at h
  split at h
  · cases h
  · split at h
    · cases h
    · next hseen => cases h; exact ⟨rfl, rfl, hseen⟩

/-- Unification can be run with a limit on its depth. -/
theorem unifying_careful : Visiting.Careful unifying where
  -- Binding a variable extends the walk, and otherwise nothing changes.
  settles {depth a b u u' ok} hg ha hb h := by
    have hleft := @extends_left a b u
    have hright := @extends_right a b u
    unfold unifying at h
    split at h
    · cases h; exact .refl hg
    next hsame =>
    rw [Bool.not_eq_true] at hsame
    split at h
    · next v hv => cases h; exact hleft hg ha hb hsame hv
    · next v hv hne => cases h; exact hright hg ha hb (fun w => hne w) hv
    · rw [meeting_settles h]; exact .refl hg
    · cases h; exact .refl hg
  enters {depth a b u x y seen} h := by
    unfold unifying at h
    split at h
    · cases h
    split at h
    · cases h
    · cases h
    · obtain ⟨rfl, rfl, hseen⟩ := meeting_enters h
      exact ⟨rfl, rfl, hseen⟩
    · cases h

theorem comparing_careful : Visiting.Careful comparing where
  settles {depth a b u u' ok} hg _ _ h := by
    unfold comparing at h
    split at h
    · cases h; exact .refl hg
    split at h
    · cases h; exact .refl hg
    · rw [meeting_settles h]; exact .refl hg
    · cases h; exact .refl hg
  enters {depth a b u x y seen} h := by
    unfold comparing at h
    split at h
    · cases h
    split at h
    · cases h
    · obtain ⟨rfl, rfl, hseen⟩ := meeting_enters h
      exact ⟨rfl, rfl, hseen⟩
    · cases h

/-! ## §4. The limit is not met. -/

/-- With a limit of `n` the calls at a depth have the results of `call`. -/
def Suffices (visit : Visiting) (n depth : Nat) (call : Value → Value → Unifier → Bool × Unifier) :
    Prop :=
  ∀ (a b : Value) (u : Unifier), u.heap.Good → u.heap.Holds a → u.heap.Holds b →
    Roomy (n + 1) depth u →
    within visit n depth a b u = some (call a b u) ∧ u.Extends (call a b u).2

/-- Then so have lists of calls. -/
theorem Suffices.pairwise {visit : Visiting} {call : Value → Value → Unifier → Bool × Unifier}
    (hcall : Suffices visit n depth call) : ∀ (as bs : List Value) (u : Unifier), u.heap.Good →
      (∀ t ∈ as, u.heap.Holds t) → (∀ t ∈ bs, u.heap.Holds t) → Roomy (n + 1) depth u →
      pairwise? (within visit n depth) as bs u = some (pairwise call as bs u) ∧
        u.Extends (pairwise call as bs u).2 := by
  intro as
  induction as with
  | nil => intro bs u hg _ _ _; exact ⟨rfl, .refl hg⟩
  | cons a as ih =>
    intro bs u hg has hbs hroom
    cases bs with
    | nil => exact ⟨rfl, .refl hg⟩
    | cons b bs =>
      -- The first pair, and then the rest in the heap that it leaves.
      obtain ⟨hfirst, hext⟩ := hcall a b u hg (has a List.mem_cons_self) (hbs b List.mem_cons_self) hroom
      rw [pairwise_cons, pairwise?, hfirst]
      generalize call a b u = first at hext ⊢
      obtain ⟨_ | _, u₁⟩ := first
      · exact ⟨rfl, hext⟩
      · obtain ⟨hrest, hext'⟩ := ih bs u₁ hext.grows.good (hext.grows.holds_rest has)
          (hext.grows.holds_rest hbs) (hroom.mono hext)
        exact ⟨hrest, hext.trans hext'⟩

/-- **The calls of a careful recursion have room.**  Each call that goes deeper than `cycleDepth` has a
    pair of structures of its own. -/
theorem Suffices.of_careful {visit : Visiting} (hc : visit.Careful)
    {call : (n depth : Nat) → Value → Value → Unifier → Bool × Unifier}
    (hcall : ∀ n depth a b (u : Unifier), call (n + 1) depth a b u =
      u.proceed (call n (depth + 1)) (visit depth (u.heap.deref a) (u.heap.deref b) u)) :
    ∀ n depth, Suffices visit n depth (call (n + 1) depth) := by
  intro n
  induction n with
  | zero =>
    intro depth a b u _ _ _ hroom
    -- At this depth all pairs would have been remembered, and one more.
    have hdeep := hroom.deep
    have hlength := hroom.tidy.length_le
    have hlimit := hroom.room
    simp only [Heap.walkBound] at hlimit
    omega
  | succ n ih =>
    intro depth a b u hg ha hb hroom
    rw [within_succ hg, hcall]
    cases hv : visit depth (u.heap.deref a) (u.heap.deref b) u with
    | settles ok u' => exact ⟨rfl, hc.settles hg ha hb hv⟩
    | enters x y seen =>
      obtain ⟨hda, hdb, hseen⟩ := hc.enters hv
      have hx := hda ▸ hg.holds_deref ha
      have hy := hdb ▸ hg.holds_deref hb
      have hext := enter_extends hg hx hy hseen
      obtain ⟨hargs, hext'⟩ := (ih (depth + 1)).pairwise (u.heap.structCell x).args
        (u.heap.structCell y).args { u with seen } hg (hg.args x) (hg.args y) (hroom.enter hext hseen)
      exact ⟨hargs, hext.trans hext'⟩

end Unifier

namespace Heap

variable {h : Heap} {a b : Value}

/-- **Unifying, trying to unify and comparing end**, however cyclic the terms are: with `N` structures
    in the heap no more than `65 + N * N` calls are ever inside each other. -/
theorem nesting_bounded (hg : h.Good) (ha : h.Holds a) (hb : h.Holds b) :
    Unifier.within Unifier.unifying (65 + h.structs.size * h.structs.size) 0 a b ⟨h, [], []⟩ =
        some (h.unify a b) ∧
      (Unifier.within Unifier.unifying (65 + h.structs.size * h.structs.size) 0 a b ⟨h, [], []⟩).map
          (fun r => (r.1, r.2.heap.resetAll r.2.bound)) = some (h.unifiable a b) ∧
      (Unifier.within Unifier.comparing (65 + h.structs.size * h.structs.size) 0 a b ⟨h, [], []⟩).map
          Prod.fst = some (h.identical a b) := by
  -- So many nested calls are the bound of the walk.
  have hbound : 65 + h.structs.size * h.structs.size + 1 = h.walkBound := by
    simp only [walkBound, cycleDepth]; omega
  have hroom : Unifier.Roomy (65 + h.structs.size * h.structs.size + 1) 0 ⟨h, [], []⟩ :=
    hbound ▸ h.roomy
  obtain ⟨hunify, -⟩ := Unifier.Suffices.of_careful Unifier.unifying_careful Unifier.unify_succ_eq
    _ 0 a b _ hg ha hb hroom
  obtain ⟨hcompare, -⟩ := Unifier.Suffices.of_careful Unifier.comparing_careful Unifier.compare_succ
    _ 0 a b _ hg ha hb hroom
  rw [hbound] at hunify hcompare
  refine ⟨hunify, ?_, ?_⟩
  · rw [hunify]
    rfl
  · rw [hcompare]
    rfl

/-- Two cyclic terms on three structures, at most 74 calls deep; they need 67, so that pairs are
    remembered. -/
theorem nesting_bounded_loops :
    (Unifier.within Unifier.unifying 66 0 (.var 0) (.var 1) ⟨loops, [], []⟩).isNone = true ∧
      Unifier.within Unifier.unifying 74 0 (.var 0) (.var 1) ⟨loops, [], []⟩ =
        some (loops.unify (.var 0) (.var 1)) ∧
      (Unifier.within Unifier.unifying 74 0 (.var 0) (.var 1) ⟨loops, [], []⟩).map
          (fun r => (r.1, r.2.heap.resetAll r.2.bound)) = some (loops.unifiable (.var 0) (.var 1)) ∧
      (Unifier.within Unifier.comparing 74 0 (.var 0) (.var 1) ⟨loops, [], []⟩).map Prod.fst =
        some (loops.identical (.var 0) (.var 1)) :=
  ⟨by decide +kernel, nesting_bounded loops_plain.good (by simp [loops]) (by simp [loops])⟩

end Heap

end PrologMachine
