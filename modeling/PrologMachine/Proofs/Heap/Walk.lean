/-
  PrologMachine.Proofs.Heap.Walk ── **THE WALK OF A UNIFICATION.**

  A unification goes through two lists of values side by side.  `Walk` says what it does at each pair
  and does not mention a bound on its nesting: a pair is passed over, a variable is bound, a pair of
  structures is entered, or the walk ends with a difference.

    * `Walk.extends`: from its start to its end a walk only adds bindings and remembered pairs.
    * `Heap.unify_walk`: what `Heap.unify` computes is such a walk.  The room that `Heap.walkBound` gives
      is never used up, because from `cycleDepth` on every level of nesting has a pair of structures of
      its own.
-/
import PrologMachine.Proofs.Heap.Binds

namespace PrologMachine

/-- A value is the same as itself. -/
theorem Value.same_refl (t : Value) : t.same t = true := by
  cases t <;> simp [Value.same, Constant.same]

/-- Which of the two values is named first does not matter. -/
theorem Value.same_comm (a b : Value) : a.same b = b.same a := by
  cases a <;> cases b <;> simp [Value.same, Constant.same, Bool.beq_comm]

namespace Heap

variable {h : Heap} {a b : Value}

/-- The values are equal without being looked into: constants by content, and an atom like a
    structure of its name without arguments. -/
def sameLeaf (h : Heap) : Value → Value → Bool
  | .struct x, .const c => (h.structCell x).args.isEmpty && c.isAtom (h.structCell x).name
  | .const c, .struct x => (h.structCell x).args.isEmpty && c.isAtom (h.structCell x).name
  | .const c, .const d => c.equal d
  | _, _ => false

/-- The two values end their chains in values that are no variables and not both structures. -/
def Leafy : Value → Value → Prop
  | .var _, _ => False
  | _, .var _ => False
  | .struct _, .struct _ => False
  | _, _ => True

/-- Values of one cell stand for values of one cell. -/
theorem same_deref (hab : a.same b = true) : (h.deref a).same (h.deref b) = true := by
  cases a with
  | var v =>
    cases b with
    | var w =>
      obtain rfl : v = w := by simpa [Value.same] using hab
      exact Value.same_refl _
    | _ => simp [Value.same] at hab
  | const c => cases b <;> first | exact hab | simp [Value.same] at hab
  | struct s => cases b <;> first | exact hab | simp [Value.same] at hab
  | absent => cases b <;> first | exact hab | simp [Value.same] at hab

end Heap

namespace Unifier

variable {depth n : Nat} {a b t : Value} {as bs : List Value} {u u' u₁ : Unifier} {ok : Bool}
  {v : VarId} {x y : StructId} {seen : SeenPairs}

/-! ## §1. Walks. -/

/-- The walk from `u` over two lists of values at a depth ends with outcome `ok` in `u'`. -/
inductive Walk : (depth : Nat) → List Value → List Value → Unifier → (ok : Bool) → Unifier → Prop
    where
  /-- There is no pair left. -/
  | done {depth : Nat} {as bs : List Value} {u : Unifier} (h : as = [] ∨ bs = []) :
    Walk depth as bs u true u
  /-- Both stand for one cell. -/
  | cell {depth : Nat} {a b : Value} {as bs : List Value} {u u' : Unifier} {ok : Bool}
    (hsame : (u.heap.deref a).same (u.heap.deref b) = true) (hrest : Walk depth as bs u ok u') :
    Walk depth (a :: as) (b :: bs) u ok u'
  /-- The left one stands for a variable, which is bound. -/
  | left {depth : Nat} {a b : Value} {as bs : List Value} {u u' : Unifier} {ok : Bool} {v : VarId}
    (hsame : (u.heap.deref a).same (u.heap.deref b) = false) (ha : u.heap.deref a = .var v)
    (hrest : Walk depth as bs (u.bind v (u.heap.deref b)).2 ok u') :
    Walk depth (a :: as) (b :: bs) u ok u'
  /-- Only the right one stands for a variable, which is bound. -/
  | right {depth : Nat} {a b : Value} {as bs : List Value} {u u' : Unifier} {ok : Bool} {v : VarId}
    (ha : ∀ w, u.heap.deref a ≠ .var w) (hb : u.heap.deref b = .var v)
    (hrest : Walk depth as bs (u.bind v (u.heap.deref a)).2 ok u') :
    Walk depth (a :: as) (b :: bs) u ok u'
  /-- Both are equal without being looked into. -/
  | leaf {depth : Nat} {a b : Value} {as bs : List Value} {u u' : Unifier} {ok : Bool}
    (hsame : (u.heap.deref a).same (u.heap.deref b) = false)
    (hleafy : Heap.Leafy (u.heap.deref a) (u.heap.deref b))
    (heq : u.heap.sameLeaf (u.heap.deref a) (u.heap.deref b) = true)
    (hrest : Walk depth as bs u ok u') : Walk depth (a :: as) (b :: bs) u ok u'
  /-- They differ, and at least one is not a structure. -/
  | leafDiffers {depth : Nat} {a b : Value} {as bs : List Value} {u : Unifier}
    (hsame : (u.heap.deref a).same (u.heap.deref b) = false)
    (hleafy : Heap.Leafy (u.heap.deref a) (u.heap.deref b))
    (hne : u.heap.sameLeaf (u.heap.deref a) (u.heap.deref b) = false) :
    Walk depth (a :: as) (b :: bs) u false u
  /-- They are structures of different names or numbers of arguments. -/
  | structDiffers {depth : Nat} {a b : Value} {as bs : List Value} {u : Unifier} {x y : StructId}
    (ha : u.heap.deref a = .struct x) (hb : u.heap.deref b = .struct y) (hxy : x ≠ y)
    (hne : (u.heap.structCell x).name ≠ (u.heap.structCell y).name ∨
      (u.heap.structCell x).args.length ≠ (u.heap.structCell y).args.length) :
    Walk depth (a :: as) (b :: bs) u false u
  /-- They are structures that were met before. -/
  | met {depth : Nat} {a b : Value} {as bs : List Value} {u u' : Unifier} {ok : Bool} {x y : StructId}
    (ha : u.heap.deref a = .struct x) (hb : u.heap.deref b = .struct y) (hxy : x ≠ y)
    (hname : (u.heap.structCell x).name = (u.heap.structCell y).name)
    (hlength : (u.heap.structCell x).args.length = (u.heap.structCell y).args.length)
    (hseen : u.seen.enter? depth x y = none) (hrest : Walk depth as bs u ok u') :
    Walk depth (a :: as) (b :: bs) u ok u'
  /-- They are structures that are entered and turn out equal. -/
  | enters {depth : Nat} {a b : Value} {as bs : List Value} {u u₁ u' : Unifier} {ok : Bool}
    {x y : StructId} {seen : SeenPairs}
    (ha : u.heap.deref a = .struct x) (hb : u.heap.deref b = .struct y) (hxy : x ≠ y)
    (hname : (u.heap.structCell x).name = (u.heap.structCell y).name)
    (hlength : (u.heap.structCell x).args.length = (u.heap.structCell y).args.length)
    (hseen : u.seen.enter? depth x y = some seen)
    (hargs : Walk (depth + 1) (u.heap.structCell x).args (u.heap.structCell y).args
      { u with seen } true u₁)
    (hrest : Walk depth as bs u₁ ok u') : Walk depth (a :: as) (b :: bs) u ok u'
  /-- They are structures that are entered and turn out different. -/
  | argsDiffer {depth : Nat} {a b : Value} {as bs : List Value} {u u' : Unifier}
    {x y : StructId} {seen : SeenPairs}
    (ha : u.heap.deref a = .struct x) (hb : u.heap.deref b = .struct y) (hxy : x ≠ y)
    (hname : (u.heap.structCell x).name = (u.heap.structCell y).name)
    (hlength : (u.heap.structCell x).args.length = (u.heap.structCell y).args.length)
    (hseen : u.seen.enter? depth x y = some seen)
    (hargs : Walk (depth + 1) (u.heap.structCell x).args (u.heap.structCell y).args
      { u with seen } false u') : Walk depth (a :: as) (b :: bs) u false u'

/-! ## §2. What a walk adds. -/

/-- The pairs that are remembered are different pairs of structures of the heap. -/
structure Tidy (u : Unifier) : Prop where
  /-- No pair is remembered twice. -/
  nodup : u.seen.Nodup
  /-- The structures exist. -/
  cells : ∀ p ∈ u.seen, p.1 < u.heap.structs.size ∧ p.2 < u.heap.structs.size

/-- From one state of a unification to a later one there are only more bindings and more remembered
    pairs. -/
structure Extends (u u' : Unifier) : Prop where
  /-- More bindings. -/
  grows : u.Grows u'
  /-- More remembered pairs. -/
  seen : u.seen <:+ u'.seen
  /-- The pairs are in order. -/
  tidy : u.Tidy → u'.Tidy

protected theorem Extends.refl (hg : u.heap.Good) : u.Extends u :=
  ⟨.refl hg, List.suffix_rfl, id⟩

protected theorem Extends.trans {u'' : Unifier} (h : u.Extends u') (h' : u'.Extends u'') :
    u.Extends u'' :=
  ⟨h.grows.trans h'.grows, h.seen.trans h'.seen, fun ht => h'.tidy (h.tidy ht)⟩

/-- A binding changes no structure. -/
theorem Grows.structs (h : u.Grows u') : u'.heap.structs = u.heap.structs := by
  obtain ⟨_, _, hb⟩ := h.binds
  exact hb.structs

theorem Grows.structCell (h : u.Grows u') (s : StructId) :
    u'.heap.structCell s = u.heap.structCell s := by
  obtain ⟨_, _, hb⟩ := h.binds
  exact hb.structCell s

/-- A binding records no pair. -/
theorem bind_seen : (u.bind v t).2.seen = u.seen := by
  unfold bind
  split <;> rfl

/-- Binding a variable. -/
theorem bind_extends (hg : u.heap.Good) (hv : u.heap.Holds (.var v)) (ht : u.heap.Holds t)
    (hfree : u.heap.binding? v = none) (hne : t ≠ .var v) (hend : u.heap.deref t = t) :
    u.Extends (u.bind v t).2 := by
  have hgrows := bind_grows hg hv ht hfree hne hend
  refine ⟨hgrows, bind_seen ▸ List.suffix_rfl, fun htidy => ⟨?_, ?_⟩⟩
  · rw [bind_seen]
    exact htidy.nodup
  · rw [bind_seen, hgrows.structs]
    exact htidy.cells

/-- A pair that is entered is new, or is not remembered. -/
theorem enter?_eq_some {pairs : SeenPairs} (h : pairs.enter? depth x y = some seen) :
    depth < cycleDepth ∧ seen = pairs ∨
      cycleDepth ≤ depth ∧ (x, y) ∉ pairs ∧ seen = (x, y) :: pairs := by
  unfold SeenPairs.enter? at h
  split at h
  · next hd => exact .inl ⟨hd, (Option.some.inj h).symm⟩
  · next hd =>
    split at h
    · cases h
    · next hmem => exact .inr ⟨Nat.le_of_not_lt hd, by simpa using hmem, (Option.some.inj h).symm⟩

/-- A pair that cannot be entered was met before. -/
theorem enter?_eq_none {pairs : SeenPairs} (h : pairs.enter? depth x y = none) :
    (x, y) ∈ pairs := by
  unfold SeenPairs.enter? at h
  split at h
  · cases h
  · split at h
    · next hmem => simpa using hmem
    · cases h

/-- Entering a pair of structures. -/
theorem enter_extends (hg : u.heap.Good) (hx : x < u.heap.structs.size)
    (hy : y < u.heap.structs.size) (hseen : u.seen.enter? depth x y = some seen) :
    u.Extends { u with seen } := by
  rcases enter?_eq_some hseen with ⟨-, rfl⟩ | ⟨-, hnew, rfl⟩
  · exact .refl hg
  · refine ⟨⟨hg, [], rfl, .refl _⟩, List.suffix_cons _ _, fun htidy => ⟨?_, ?_⟩⟩
    · exact List.nodup_cons.2 ⟨hnew, htidy.nodup⟩
    · intro p hp
      rcases List.mem_cons.1 hp with rfl | hp
      · exact ⟨hx, hy⟩
      · exact htidy.cells p hp

/-- What is known of a pair of values whose ends are followed: they exist, and a variable among them is
    unbound. -/
theorem extends_left (hg : u.heap.Good) (ha : u.heap.Holds a) (hb : u.heap.Holds b)
    (hsame : (u.heap.deref a).same (u.heap.deref b) = false) (hv : u.heap.deref a = .var v) :
    u.Extends (u.bind v (u.heap.deref b)).2 := by
  refine bind_extends hg (hv ▸ hg.holds_deref ha) (hg.holds_deref hb) (hg.binding?_of_deref hv) ?_
    (hg.deref_deref b)
  intro heq
  rw [hv, heq, Value.same_refl] at hsame
  cases hsame

/-- A variable on the right, with a value on the left that is none, is bound to it. -/
theorem extends_right (hg : u.heap.Good) (ha : u.heap.Holds a) (hb : u.heap.Holds b)
    (hne : ∀ w, u.heap.deref a ≠ .var w) (hv : u.heap.deref b = .var v) :
    u.Extends (u.bind v (u.heap.deref a)).2 :=
  bind_extends hg (hv ▸ hg.holds_deref hb) (hg.holds_deref ha) (hg.binding?_of_deref hv) (hne v)
    (hg.deref_deref a)

/-- **A walk only adds bindings and remembered pairs.** -/
theorem Walk.extends (h : Walk depth as bs u ok u') (hg : u.heap.Good)
    (has : ∀ t ∈ as, u.heap.Holds t) (hbs : ∀ t ∈ bs, u.heap.Holds t) : u.Extends u' := by
  -- What comes behind the first pair starts from a state that extends the present one.
  have hrest : ∀ {u u₁ u' : Unifier} {a b : Value} {as bs : List Value}, u.Extends u₁ →
      (∀ t ∈ a :: as, u.heap.Holds t) → (∀ t ∈ b :: bs, u.heap.Holds t) →
      (u₁.heap.Good → (∀ t ∈ as, u₁.heap.Holds t) → (∀ t ∈ bs, u₁.heap.Holds t) → u₁.Extends u') →
      u.Extends u' := by
    intro u u₁ u' a b as bs hext has hbs ih
    exact hext.trans (ih hext.grows.good (hext.grows.holds_rest has) (hext.grows.holds_rest hbs))
  induction h with
  | done => exact .refl hg
  | cell _ _ ih => exact hrest (.refl hg) has hbs ih
  | left hsame ha _ ih =>
    exact hrest (extends_left hg (has _ (by simp)) (hbs _ (by simp)) hsame ha) has hbs ih
  | right ha hb _ ih =>
    exact hrest (extends_right hg (has _ (by simp)) (hbs _ (by simp)) ha hb) has hbs ih
  | leaf _ _ _ _ ih => exact hrest (.refl hg) has hbs ih
  | leafDiffers => exact .refl hg
  | structDiffers => exact .refl hg
  | met _ _ _ _ _ _ _ ih => exact hrest (.refl hg) has hbs ih
  | enters ha hb _ _ _ hseen _ _ ihargs ih =>
    have hx := ha ▸ hg.holds_deref (has _ (by simp))
    have hy := hb ▸ hg.holds_deref (hbs _ (by simp))
    have hext := enter_extends hg hx hy hseen
    exact hrest (hext.trans (ihargs hg (hg.args _) (hg.args _))) has hbs ih
  | argsDiffer ha hb _ _ _ hseen _ ihargs =>
    have hx := ha ▸ hg.holds_deref (has _ (by simp))
    have hy := hb ▸ hg.holds_deref (hbs _ (by simp))
    exact (enter_extends hg hx hy hseen).trans (ihargs hg (hg.args _) (hg.args _))

/-! ## §3. The room that a walk needs. -/

/-- There is room for `n` more levels of nesting at a depth: the levels from `cycleDepth` on have a
    remembered pair each, and there are no more pairs than the room was made for. -/
structure Roomy (n depth : Nat) (u : Unifier) : Prop where
  /-- The pairs are in order. -/
  tidy : u.Tidy
  /-- Deep levels have a pair each. -/
  deep : depth ≤ cycleDepth + u.seen.length
  /-- The room that is left. -/
  room : u.heap.walkBound ≤ n + depth

/-- There are no more pairs than pairs of structures. -/
theorem Tidy.length_le (h : u.Tidy) : u.seen.length ≤ u.heap.structs.size * u.heap.structs.size := by
  have hsub : u.seen.toFinset ⊆
      Finset.range u.heap.structs.size ×ˢ Finset.range u.heap.structs.size := by
    intro p hp
    have := h.cells p (List.mem_toFinset.1 hp)
    simp [this]
  calc u.seen.length = u.seen.toFinset.card := (List.toFinset_card_of_nodup h.nodup).symm
    _ ≤ _ := Finset.card_le_card hsub
    _ = u.heap.structs.size * u.heap.structs.size := by simp

/-- Where there is room for a pair, there is some. -/
theorem Roomy.pos (h : Roomy n depth u) : 0 < n := by
  have hlength := h.tidy.length_le
  have hdeep := h.deep
  have hroom := h.room
  simp only [Heap.walkBound] at hroom
  omega

/-- The room is not used up by bindings and recorded pairs, which the measure counts. -/
theorem Roomy.mono (h : Roomy n depth u) (hext : u.Extends u') : Roomy n depth u' where
  tidy := hext.tidy h.tidy
  deep := Nat.le_trans h.deep (Nat.add_le_add_left hext.seen.length_le _)
  room := by
    have hroom := h.room
    rwa [Heap.walkBound, ← hext.grows.structs] at hroom

/-- The room inside a pair of structures. -/
theorem Roomy.enter (h : Roomy (n + 1) depth u) (hext : u.Extends { u with seen })
    (hseen : u.seen.enter? depth x y = some seen) : Roomy n (depth + 1) { u with seen } where
  tidy := hext.tidy h.tidy
  deep := by
    have hdeep := h.deep
    rcases enter?_eq_some hseen with ⟨hd, rfl⟩ | ⟨-, -, rfl⟩
    · omega
    · show depth + 1 ≤ cycleDepth + (u.seen.length + 1)
      omega
  room := by
    have hroom := h.room
    show u.heap.walkBound ≤ n + (depth + 1)
    omega

/-! ## §4. What is computed is a walk. -/

section Equations

/-- The cases of one call by the ends of the chains. -/
theorem unify_succ : unify (n + 1) depth a b u =
    if (u.heap.deref a).same (u.heap.deref b) then (true, u)
    else match u.heap.deref a, u.heap.deref b with
      | .var v, t => u.bind v t
      | t, .var v => u.bind v t
      | .struct x, .struct y =>
        if (u.heap.structCell x).name ≠ (u.heap.structCell y).name ||
            (u.heap.structCell x).args.length ≠ (u.heap.structCell y).args.length then (false, u)
        else match u.seen.enter? depth x y with
          | none => (true, u)
          | some seen =>
            pairwise (unify n (depth + 1)) (u.heap.structCell x).args (u.heap.structCell y).args
              { u with seen }
      | a', b' => (u.heap.sameLeaf a' b', u) := by
  rw [unify]
  by_cases hab : a.same b = true
  · simp only [hab, if_true, Heap.same_deref hab]
  · simp only [hab, Bool.false_eq_true, if_false]
    cases u.heap.deref a <;> cases u.heap.deref b <;> rfl

/-- Binding a variable succeeds. -/
theorem bind_fst : (u.bind v t).1 = true := by
  unfold bind
  split <;> rfl

/-- Arguments are unified one after the other, up to the first pair that does not unify. -/
theorem pairwise_cons (f : Value → Value → Unifier → Bool × Unifier) :
    pairwise f (a :: as) (b :: bs) u =
      if (f a b u).1 then pairwise f as bs (f a b u).2 else (false, (f a b u).2) := by
  rw [pairwise]
  rcases f a b u with ⟨_ | _, u'⟩ <;> rfl

end Equations

/-- What is computed from `u` over two lists is a walk. -/
def Walks (n depth : Nat) (as bs : List Value) (u : Unifier) : Prop :=
  Walk depth as bs u (pairwise (unify n depth) as bs u).1 (pairwise (unify n depth) as bs u).2

/-- A first pair of structures: inside it and behind it what is computed is a walk. -/
theorem walks_structs (hg : u.heap.Good) (ha : u.heap.Holds a) (hb : u.heap.Holds b)
    (hda : u.heap.deref a = .struct x) (hdb : u.heap.deref b = .struct y) (hxy : x ≠ y)
    (hargs : ∀ seen, u.seen.enter? depth x y = some seen → u.Extends { u with seen } →
      Walks n (depth + 1) (u.heap.structCell x).args (u.heap.structCell y).args { u with seen })
    (hrest : ∀ u₁, u.Extends u₁ → Walks (n + 1) depth as bs u₁) :
    Walks (n + 1) depth (a :: as) (b :: bs) u := by
  have hx := hg.holds_deref ha
  have hy := hg.holds_deref hb
  rw [hda] at hx
  rw [hdb] at hy
  have hsame : (Value.struct x).same (.struct y) = false := by simpa [Value.same] using hxy
  unfold Walks
  rw [pairwise_cons, unify_succ, hda, hdb]
  simp only [hsame, Bool.false_eq_true, if_false]
  -- Only structures of one name and one arity can unify.
  by_cases hshape : (u.heap.structCell x).name = (u.heap.structCell y).name ∧
      (u.heap.structCell x).args.length = (u.heap.structCell y).args.length
  · obtain ⟨hname, hlength⟩ := hshape
    simp only [hname, hlength, ne_eq, not_true_eq_false, decide_false, Bool.or_self,
      Bool.false_eq_true, if_false]
    -- A pair that was met before counts as unified; a new one is entered, and its arguments come first.
    cases hseen : u.seen.enter? depth x y with
    | none =>
      simp only [if_true]
      exact .met hda hdb hxy hname hlength hseen (hrest u (.refl hg))
    | some seen =>
      have hext := enter_extends hg hx hy hseen
      have hwalk := hargs seen hseen hext
      unfold Walks at hwalk
      simp only
      generalize pairwise (unify n (depth + 1)) (u.heap.structCell x).args
        (u.heap.structCell y).args { u with seen } = out at hwalk
      obtain ⟨_ | _, u₁⟩ := out
      · exact .argsDiffer hda hdb hxy hname hlength hseen hwalk
      · have hext₁ := hext.trans (hwalk.extends hg (hg.args x) (hg.args y))
        exact .enters hda hdb hxy hname hlength hseen hwalk (hrest u₁ hext₁)
  · have hne : (u.heap.structCell x).name ≠ (u.heap.structCell y).name ∨
        (u.heap.structCell x).args.length ≠ (u.heap.structCell y).args.length := by
      tauto
    have hcond : (decide ((u.heap.structCell x).name ≠ (u.heap.structCell y).name) ||
        decide ((u.heap.structCell x).args.length ≠ (u.heap.structCell y).args.length)) = true := by
      simpa using hne
    simp only [hcond, if_true, Bool.false_eq_true, if_false]
    exact .structDiffers hda hdb hxy hne

/-- A first pair in which a variable or a constant takes part. -/
theorem walks_leaves (hg : u.heap.Good) (ha : u.heap.Holds a) (hb : u.heap.Holds b)
    (hsame : (u.heap.deref a).same (u.heap.deref b) = false)
    (hstruct : ∀ x y, u.heap.deref a = .struct x → u.heap.deref b ≠ .struct y)
    (hrest : ∀ u₁, u.Extends u₁ → Walks (n + 1) depth as bs u₁) :
    Walks (n + 1) depth (a :: as) (b :: bs) u := by
  have hrest₀ := hrest u (.refl hg)
  have hleft : ∀ v, u.heap.deref a = .var v → Walks (n + 1) depth as bs (u.bind v (u.heap.deref b)).2 :=
    fun v hv => hrest _ (extends_left hg ha hb hsame hv)
  -- Of two variables the left one is bound, so a right one is bound to what is no variable.
  have hright : (∀ w, u.heap.deref a ≠ .var w) → ∀ v, u.heap.deref b = .var v →
      Walks (n + 1) depth as bs (u.bind v (u.heap.deref a)).2 :=
    fun hne v hv => hrest _ (extends_right hg ha hb hne hv)
  have ha' := hg.holds_deref ha
  have hb' := hg.holds_deref hb
  have hcell := @Walk.leaf depth a b as bs u
  have hdiffers := @Walk.leafDiffers depth a b as bs u
  have hbindl := @Walk.left depth a b as bs u
  have hbindr := @Walk.right depth a b as bs u
  unfold Walks at hrest₀ hleft hright ⊢
  rw [pairwise_cons, unify_succ]
  simp only [hsame, Bool.false_eq_true, if_false]
  -- From here on the values matter only through what they are, not as ends of chains.
  generalize u.heap.deref a = a' at *
  generalize u.heap.deref b = b' at *
  -- Constants, and a constant beside a structure, are compared and nothing is bound.
  have hleaf : Heap.Leafy a' b' → ∀ ok, u.heap.sameLeaf a' b' = ok →
      Walk depth (a :: as) (b :: bs) u
        (if ok = true then pairwise (unify (n + 1) depth) as bs u else (false, u)).1
        (if ok = true then pairwise (unify (n + 1) depth) as bs u else (false, u)).2 := by
    intro hleafy ok hok
    cases ok with
    | true => exact hcell hsame hleafy hok hrest₀
    | false => exact hdiffers hsame hleafy hok
  cases a' with
  | var v =>
    simp only [bind_fst, if_true]
    exact hbindl hsame rfl (hleft v rfl)
  | absent => exact ha'.elim
  | const c =>
    cases b' with
    | var v =>
      simp only [bind_fst, if_true]
      exact hbindr (by simp) rfl (hright (by simp) v rfl)
    | absent => exact hb'.elim
    | const d => exact hleaf trivial _ rfl
    | struct y => exact hleaf trivial _ rfl
  | struct x =>
    cases b' with
    | var v =>
      simp only [bind_fst, if_true]
      exact hbindr (by simp) rfl (hright (by simp) v rfl)
    | absent => exact hb'.elim
    | const d => exact hleaf trivial _ rfl
    | struct y => exact absurd rfl (hstruct x y rfl)

/-- **A unification with room enough is a walk.** -/
theorem walk_pairwise (n : Nat) : ∀ (depth : Nat) (as bs : List Value) (u : Unifier), u.heap.Good →
    (∀ t ∈ as, u.heap.Holds t) → (∀ t ∈ bs, u.heap.Holds t) → Roomy n depth u →
    Walks n depth as bs u := by
  induction n with
  | zero => intro depth as bs u _ _ _ hroom; exact absurd hroom.pos (Nat.lt_irrefl 0)
  | succ n ihn =>
    intro depth as
    induction as with
    | nil => intro bs u _ _ _ _; exact .done (.inl rfl)
    | cons a as ih =>
      intro bs u hg has hbs hroom
      cases bs with
      | nil => exact .done (.inr rfl)
      | cons b bs =>
        have ha := has a (by simp)
        have hb := hbs b (by simp)
        -- What comes behind the first pair.
        have hrest : ∀ u₁ : Unifier, u.Extends u₁ → Walks (n + 1) depth as bs u₁ := fun u₁ hext =>
          ih bs u₁ hext.grows.good (hext.grows.holds_rest has) (hext.grows.holds_rest hbs)
            (hroom.mono hext)
        cases hsame : (u.heap.deref a).same (u.heap.deref b) with
        | true =>
          unfold Walks
          rw [pairwise_cons, unify_succ]
          simp only [hsame, if_true]
          exact .cell hsame (hrest u (.refl hg))
        | false =>
          by_cases hstruct : ∃ x y, u.heap.deref a = .struct x ∧ u.heap.deref b = .struct y
          · obtain ⟨x, y, hda, hdb⟩ := hstruct
            have hxy : x ≠ y := by
              rintro rfl
              simp [hda, hdb, Value.same] at hsame
            exact walks_structs hg ha hb hda hdb hxy (fun seen hseen hext =>
              ihn (depth + 1) _ _ { u with seen } hg (hg.args x) (hg.args y)
                (hroom.enter hext hseen)) hrest
          · exact walks_leaves hg ha hb hsame (fun x y hx hy => hstruct ⟨x, y, hx, hy⟩) hrest

end Unifier

namespace Heap

variable {h : Heap} {a b : Value}

/-- There is room for a whole walk. -/
theorem roomy (h : Heap) : Unifier.Roomy h.walkBound 0 ⟨h, [], []⟩ where
  tidy := ⟨List.nodup_nil, fun p hp => by cases hp⟩
  deep := Nat.zero_le _
  room := Nat.le_refl _

/-- **Unifying two values of a heap is a walk over this one pair.** -/
theorem unify_walk (hg : h.Good) (ha : h.Holds a) (hb : h.Holds b) :
    Unifier.Walk 0 [a] [b] ⟨h, [], []⟩ (h.unify a b).1 (h.unify a b).2 := by
  have hwalk := Unifier.walk_pairwise h.walkBound 0 [a] [b] ⟨h, [], []⟩ hg
    (fun t ht => by obtain rfl := List.mem_singleton.1 ht; exact ha)
    (fun t ht => by obtain rfl := List.mem_singleton.1 ht; exact hb) h.roomy
  have hsingle : Unifier.pairwise (Unifier.unify h.walkBound 0) [a] [b] ⟨h, [], []⟩ = h.unify a b := by
    rw [Unifier.pairwise_cons]
    show (if (h.unify a b).1 then (true, (h.unify a b).2) else (false, (h.unify a b).2)) = h.unify a b
    rcases h.unify a b with ⟨_ | _, u⟩ <;> rfl
  unfold Unifier.Walks at hwalk
  rwa [hsingle] at hwalk

end Heap

end PrologMachine
