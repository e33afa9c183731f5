/-
  PrologMachine.Proofs.Resolution.Search ── **DEPTH-FIRST RESOLUTION.**

  What a program of facts and rules means, without a machine: the leftmost goal of a resolvent is
  resolved with each clause in turn, whose variables are renamed apart.  A goal unifies with a head when
  the two can stand for one tree.  There is no occurs check, so the trees may be infinite.

    * `Resolvent`: the goals that are left, and what was unified on the way to them.
    * `Resolvent.children`: the resolvents below one, in the order of the clauses.
    * `Leaves`, `NthLeaf`: all success leaves of a finite tree, and the one that a depth-first search meets
      as the `n`-th.
    * `leaves_expand`, `leaf_expand`: one step of the search.
    * `Walk`: any number of steps; `Walk.allLeaves_iff`, `Walk.oneLeaf_iff`, what they lead to.
-/
import PrologMachine.Proofs.Head.Pattern
import PrologMachine.Signature

namespace PrologMachine

/-! ## §1. Programs. -/

/-- A fact or a rule. -/
structure Rule where
  /-- The head. -/
  head : Pattern
  /-- The goals of the body. -/
  body : List Pattern

/-- The name and the number of arguments of a pattern. -/
def Pattern.signature : Pattern → Signature
  | .struct f ps => ⟨f, ps.length⟩
  | _ => ⟨"", 0⟩

/-- The predicate that a rule is about. -/
def Rule.signature (R : Rule) : Signature := R.head.signature

/-- A part of a clause; the number tells which copy of the clause it belongs to, so that the variables
    of different copies are different. -/
abbrev Part := Nat × Pattern

/-- Trees for the variables of all copies. -/
abbrev Instances := Nat → Assignment

namespace Part

/-- Trees for the variables make the part this tree. -/
def Stands (K : Set Constant) (Θ : Instances) (p : Part) (T : Tree) : Prop :=
  p.2.Describes K (Θ p.1) T

end Part

/-! ## §2. Resolvents. -/

/-- A node of the tree of a search. -/
structure Resolvent where
  /-- The goals that are left. -/
  goals : List Part
  /-- What was unified on the way, newest first. -/
  unified : List (Part × Part)
  /-- How many copies there are. -/
  copies : Nat

namespace Resolvent

variable {K : Set Constant} {P : List Rule} {r : Resolvent} {Θ : Instances}

/-- The root of the search for a question. -/
def root (goals : List Pattern) : Resolvent := ⟨goals.map fun p => (0, p), [], 1⟩

/-- Trees for the variables make the two parts of each pair one tree. -/
def Unifies (K : Set Constant) (Θ : Instances) (pairs : List (Part × Part)) : Prop :=
  ∀ e ∈ pairs, ∃ T, e.1.Stands K Θ T ∧ e.2.Stands K Θ T

/-- What was unified can be one. -/
def Solvable (K : Set Constant) (r : Resolvent) : Prop := ∃ Θ, Unifies K Θ r.unified

/-- The leftmost goal is replaced by the body of a new copy of the clause. -/
def resolve (r : Resolvent) (R : Rule) : Resolvent :=
  match r.goals with
  | [] => r
  | g :: gs =>
    { goals := R.body.map (fun p => (r.copies, p)) ++ gs
      unified := (g, (r.copies, R.head)) :: r.unified
      copies := r.copies + 1 }

open Classical in
/-- The resolvents that come of the clauses of a list, in order. -/
noncomputable def expand (K : Set Constant) (r : Resolvent) (P : List Rule) : List Resolvent :=
  (P.map r.resolve).filter fun r' => decide (r'.Solvable K)

/-- The resolvents below one. -/
noncomputable def children (K : Set Constant) (P : List Rule) (r : Resolvent) : List Resolvent :=
  match r.goals with
  | [] => []
  | _ :: _ => r.expand K P

/-- Without rules there are no children. -/
theorem expand_nil : r.expand K [] = [] := rfl

/-- A rule whose head unifies gives a child. -/
theorem expand_cons_of_solvable {R : Rule} (h : (r.resolve R).Solvable K) :
    r.expand K (R :: P) = r.resolve R :: r.expand K P := by
  simp [expand, h]

theorem expand_cons_of_not_solvable {R : Rule} (h : ¬ (r.resolve R).Solvable K) :
    r.expand K (R :: P) = r.expand K P := by
  simp [expand, h]

/-- Clauses that cannot be used may be left out. -/
theorem expand_filter (keep : Rule → Bool)
    (hdrop : ∀ R ∈ P, keep R = false → ¬ (r.resolve R).Solvable K) :
    r.expand K (P.filter keep) = r.expand K P := by
  induction P with
  | nil => rfl
  | cons R P ih =>
    have ih := ih fun R' hR' => hdrop R' (List.mem_cons_of_mem _ hR')
    by_cases hR : (r.resolve R).Solvable K
    · have hkeep : keep R = true := by
        by_contra hnot
        exact hdrop R List.mem_cons_self (Bool.not_eq_true _ ▸ hnot) hR
      rw [List.filter_cons_of_pos hkeep, expand_cons_of_solvable hR, expand_cons_of_solvable hR, ih]
    · rw [expand_cons_of_not_solvable hR, ← ih]
      cases hkeep : keep R with
      | true => rw [List.filter_cons_of_pos hkeep, expand_cons_of_not_solvable hR]
      | false => rw [List.filter_cons_of_neg (by simp [hkeep])]

/-- The children of a resolvent with goals. -/
theorem children_of_goals {g : Part} {gs : List Part} (h : r.goals = g :: gs) :
    r.children K P = r.expand K P := by
  rw [children, h]

end Resolvent

/-! ## §3. Trees. -/

mutual

/-- The tree below the resolvent is finite, and these are its success leaves from left to right. -/
inductive Leaves (K : Set Constant) (P : List Rule) : Resolvent → List Resolvent → Prop where
  /-- Success: no goals are left. -/
  | success {r : Resolvent} (h : r.goals = []) : Leaves K P r [r]
  /-- The leaves of the resolvents below. -/
  | node {r : Resolvent} {as : List Resolvent} (h : r.goals ≠ [])
    (hbelow : AllLeaves K P (r.children K P) as) : Leaves K P r as

/-- The trees below the resolvents are finite, and these are their success leaves. -/
inductive AllLeaves (K : Set Constant) (P : List Rule) : List Resolvent → List Resolvent → Prop where
  /-- No trees. -/
  | nil : AllLeaves K P [] []
  /-- One tree and the others. -/
  | cons {r : Resolvent} {rs as bs : List Resolvent} (h : Leaves K P r as)
    (hrest : AllLeaves K P rs bs) : AllLeaves K P (r :: rs) (as ++ bs)

end

mutual

/-- A depth-first search of the tree below the resolvent, from left to right, meets `a` as its success
    leaf number `n`, counted from zero. -/
inductive NthLeaf (K : Set Constant) (P : List Rule) : Resolvent → Nat → Resolvent → Prop where
  /-- Success: no goals are left. -/
  | success {r : Resolvent} (h : r.goals = []) : NthLeaf K P r 0 r
  /-- A leaf of the resolvents below. -/
  | node {r a : Resolvent} {n : Nat} (h : r.goals ≠ [])
    (hbelow : OneLeaf K P (r.children K P) n a) : NthLeaf K P r n a

/-- A depth-first search of the trees below the resolvents, one after the other, meets `a` as its
    success leaf number `n`. -/
inductive OneLeaf (K : Set Constant) (P : List Rule) : List Resolvent → Nat → Resolvent → Prop where
  /-- In the first tree. -/
  | here {r a : Resolvent} {rs : List Resolvent} {n : Nat} (h : NthLeaf K P r n a) :
    OneLeaf K P (r :: rs) n a
  /-- In a later tree; the trees before it are finite. -/
  | later {r a : Resolvent} {rs as : List Resolvent} {n : Nat} (h : Leaves K P r as)
    (hrest : OneLeaf K P rs n a) : OneLeaf K P (r :: rs) (as.length + n) a

end

/-! ## §4. One step of the search. -/

section

variable {K : Set Constant} {P : List Rule} {r a : Resolvent} {rs rs' as : List Resolvent} {n : Nat}

/-- No trees have no leaves. -/
theorem leaves_nil : AllLeaves K P [] as ↔ as = [] := by
  constructor
  · rintro ⟨⟩
    rfl
  · rintro rfl
    exact .nil

/-- The leaves of one row of trees come before those of the next. -/
theorem leaves_append : AllLeaves K P (rs ++ rs') as ↔
    ∃ as₁ as₂, as = as₁ ++ as₂ ∧ AllLeaves K P rs as₁ ∧ AllLeaves K P rs' as₂ := by
  induction rs generalizing as with
  | nil => simp [leaves_nil]
  | cons r rs ih =>
    constructor
    · rintro (_ | ⟨h, hrest⟩)
      obtain ⟨as₁, as₂, rfl, h₁, h₂⟩ := ih.1 hrest
      exact ⟨_, as₂, (List.append_assoc ..).symm, .cons h h₁, h₂⟩
    · rintro ⟨_, as₂, rfl, ⟨⟩ | ⟨h, hrest⟩, h₂⟩
      rw [List.append_assoc]
      exact .cons h (ih.2 ⟨_, as₂, rfl, hrest, h₂⟩)

/-- **A resolvent with goals has the leaves of those below it.** -/
theorem leaves_expand (h : r.goals ≠ []) :
    AllLeaves K P (r :: rs) as ↔ AllLeaves K P (r.children K P ++ rs) as := by
  rw [leaves_append]
  constructor
  · rintro (_ | ⟨hr, hrest⟩)
    cases hr with
    | success hnone => exact absurd hnone h
    | node _ hbelow => exact ⟨_, _, rfl, hbelow, hrest⟩
  · rintro ⟨as₁, as₂, rfl, hbelow, hrest⟩
    exact .cons (.node h hbelow) hrest

/-- A resolvent without goals is a leaf. -/
theorem leaves_success (h : r.goals = []) :
    AllLeaves K P (r :: rs) as ↔ ∃ bs, as = r :: bs ∧ AllLeaves K P rs bs := by
  constructor
  · rintro (_ | ⟨hr, hrest⟩)
    cases hr with
    | success => exact ⟨_, rfl, hrest⟩
    | node hsome => exact absurd h hsome
  · rintro ⟨bs, rfl, hrest⟩
    exact .cons (.success h) hrest

/-- A leaf of two rows is one of the first, or one of the second behind all leaves of the first. -/
theorem leaf_append : OneLeaf K P (rs ++ rs') n a ↔
    OneLeaf K P rs n a ∨ ∃ as k, n = as.length + k ∧ AllLeaves K P rs as ∧ OneLeaf K P rs' k a := by
  induction rs generalizing n with
  | nil =>
    constructor
    · exact fun h => .inr ⟨[], n, (Nat.zero_add n).symm, .nil, h⟩
    -- A leaf of the second list, in front of which the first one has none.
    · rintro (h | ⟨as, k, rfl, hnil, h⟩)
      · cases h
      · rw [leaves_nil.1 hnil, List.length_nil, Nat.zero_add]
        exact h
  -- A leaf of the first tree, or one behind all its leaves.
  | cons r rs ih =>
    constructor
    · rintro (h | ⟨h, hrest⟩)
      · exact .inl (.here h)
      · rcases ih.1 hrest with hrest | ⟨bs, k, rfl, hall, hrest⟩
        · exact .inl (.later h hrest)
        · exact .inr ⟨_, k, by rw [List.length_append, Nat.add_assoc], .cons h hall, hrest⟩
    · rintro ((h | ⟨h, hrest⟩) | ⟨as, k, rfl, ⟨⟩ | ⟨h, hall⟩, hrest⟩)
      · exact .here h
      · exact .later h (ih.2 (.inl hrest))
      · rw [List.length_append, Nat.add_assoc]
        exact .later h (ih.2 (.inr ⟨_, k, rfl, hall, hrest⟩))

/-- **A resolvent with goals is searched by searching those below it.** -/
theorem leaf_expand (h : r.goals ≠ []) :
    OneLeaf K P (r :: rs) n a ↔ OneLeaf K P (r.children K P ++ rs) n a := by
  rw [leaf_append]
  constructor
  · rintro (hr | ⟨hr, hrest⟩)
    · cases hr with
      | success hnone => exact absurd hnone h
      | node _ hbelow => exact .inl hbelow
    · cases hr with
      | success hnone => exact absurd hnone h
      | node _ hbelow => exact .inr ⟨_, _, rfl, hbelow, hrest⟩
  · rintro (hbelow | ⟨as, k, rfl, hall, hrest⟩)
    · exact .here (.node h hbelow)
    · exact .later (.node h hall) hrest

/-- A resolvent without goals is the next leaf that is met. -/
theorem leaf_success (h : r.goals = []) :
    OneLeaf K P (r :: rs) n a ↔ (n = 0 ∧ a = r) ∨ ∃ k, n = k + 1 ∧ OneLeaf K P rs k a := by
  constructor
  · rintro (hr | ⟨hr, hrest⟩)
    · cases hr with
      | success => exact .inl ⟨rfl, rfl⟩
      | node hsome => exact absurd h hsome
    · cases hr with
      | success => exact .inr ⟨_, Nat.add_comm .., hrest⟩
      | node hsome => exact absurd h hsome
  · rintro (⟨rfl, rfl⟩ | ⟨k, rfl, hrest⟩)
    · exact .here (.success h)
    · rw [Nat.add_comm]
      have hone : Leaves K P r [r] := .success h
      exact .later hone hrest

/-- One resolvent is searched alone. -/
theorem leaf_singleton : OneLeaf K P [r] n a ↔ NthLeaf K P r n a := by
  constructor
  · rintro (h | ⟨-, ⟨⟩⟩)
    exact h
  · exact .here

/-- A single tree has its own leaves. -/
theorem leaves_singleton : AllLeaves K P [r] as ↔ Leaves K P r as := by
  constructor
  · rintro (_ | ⟨h, ⟨⟩⟩)
    rwa [List.append_nil]
  · intro h
    have hall : AllLeaves K P [r] (as ++ []) := .cons h .nil
    rwa [List.append_nil] at hall

end

/-! ## §5. Walks. -/

/-- A depth-first search that has the trees below `F` before it goes from node to node until those below
    `F'` are left, and meets the leaves `as` on the way. -/
inductive Walk (K : Set Constant) (P : List Rule) :
    List Resolvent → List Resolvent → List Resolvent → Prop where
  /-- It stays where it is. -/
  | refl {F : List Resolvent} : Walk K P F [] F
  /-- It goes down. -/
  | expand {r : Resolvent} {F as F' : List Resolvent} (h : r.goals ≠ [])
    (hrest : Walk K P (r.children K P ++ F) as F') : Walk K P (r :: F) as F'
  /-- It meets a leaf. -/
  | answer {r : Resolvent} {F as F' : List Resolvent} (h : r.goals = [])
    (hrest : Walk K P F as F') : Walk K P (r :: F) (r :: as) F'

namespace Walk

variable {K : Set Constant} {P : List Rule} {r a b : Resolvent} {F F' F'' as bs : List Resolvent} {n : Nat}

protected theorem trans (h : Walk K P F as F') (h' : Walk K P F' bs F'') : Walk K P F (as ++ bs) F'' := by
  induction h with
  | refl => exact h'
  | expand hgoals _ ih => exact .expand hgoals (ih h')
  | answer hgoals _ ih => exact .answer hgoals (ih h')

mutual

/-- A finite tree is walked through. -/
theorem of_leaves : ∀ {r : Resolvent} {as : List Resolvent}, Leaves K P r as →
    ∀ F, Walk K P (r :: F) as F
  | _, _, .success h, _ => .answer h .refl
  | _, _, .node h hbelow, F => .expand h (of_allLeaves hbelow F)

/-- So are finite trees. -/
theorem of_allLeaves : ∀ {F as : List Resolvent}, AllLeaves K P F as → ∀ F', Walk K P (F ++ F') as F'
  | _, _, .nil, _ => .refl
  | _, _, @AllLeaves.cons _ _ _ rs _ _ h hrest, F' => (of_leaves h (rs ++ F')).trans (of_allLeaves hrest F')

end

/-- **The trees are finite when a walk comes to their end.** -/
theorem allLeaves_iff : AllLeaves K P F as ↔ Walk K P F as [] := by
  constructor
  · intro h
    have hwalk := of_allLeaves h []
    rwa [List.append_nil] at hwalk
  · intro h
    generalize hend : ([] : List Resolvent) = F' at h
    induction h with
    | refl => exact hend ▸ .nil
    | expand hgoals _ ih => exact (leaves_expand hgoals).2 (ih hend)
    | answer hgoals _ ih => exact (leaves_success hgoals).2 ⟨_, rfl, ih hend⟩

mutual

/-- A walk leads to a leaf. -/
theorem of_leaf : ∀ {r : Resolvent} {n : Nat} {a : Resolvent}, NthLeaf K P r n a →
    ∀ F, ∃ as F', as.length = n ∧ a.goals = [] ∧ Walk K P (r :: F) as (a :: F')
  | _, _, _, .success h, F => ⟨[], F, rfl, h, .refl⟩
  | _, _, _, .node h hbelow, F => by
    obtain ⟨as, F', hlength, ha, hwalk⟩ := of_oneLeaf hbelow F
    exact ⟨as, F', hlength, ha, .expand h hwalk⟩

/-- A walk through several trees leads to a leaf in one of them. -/
theorem of_oneLeaf : ∀ {F : List Resolvent} {n : Nat} {a : Resolvent}, OneLeaf K P F n a →
    ∀ G, ∃ as F', as.length = n ∧ a.goals = [] ∧ Walk K P (F ++ G) as (a :: F')
  | _, _, _, @OneLeaf.here _ _ _ _ rs _ h, G => of_leaf h (rs ++ G)
  | _, _, _, @OneLeaf.later _ _ _ _ rs as _ h hrest, G => by
    obtain ⟨bs, F', hlength, ha, hwalk⟩ := of_oneLeaf hrest G
    refine ⟨as ++ bs, F', ?_, ha, (of_leaves h (rs ++ G)).trans hwalk⟩
    rw [List.length_append, hlength]

end

/-- **A leaf is what a walk comes to.** -/
theorem oneLeaf_iff : OneLeaf K P F n a ↔
    ∃ as F', as.length = n ∧ a.goals = [] ∧ Walk K P F as (a :: F') := by
  constructor
  · intro h
    have hwalk := of_oneLeaf h []
    rwa [List.append_nil] at hwalk
  · rintro ⟨as, F', rfl, ha, h⟩
    generalize hend : a :: F' = G at h
    induction h with
    | refl =>
      subst hend
      exact .here (.success ha)
    | expand hgoals _ ih => exact (leaf_expand hgoals).2 (ih hend)
    | answer hgoals _ ih => exact (leaf_success hgoals).2 (.inr ⟨_, rfl, ih hend⟩)

end Walk

/-- There is one leaf of each number. -/
theorem OneLeaf.unique {K : Set Constant} {P : List Rule} {a b : Resolvent} {F : List Resolvent} {n : Nat}
    (h : OneLeaf K P F n a) (h' : OneLeaf K P F n b) : a = b := by
  obtain ⟨as, F', rfl, ha, hwalk⟩ := Walk.oneLeaf_iff.1 h
  generalize hend : a :: F' = G at hwalk
  clear h
  induction hwalk with
  | refl =>
    subst hend
    rcases (leaf_success ha).1 h' with ⟨-, rfl⟩ | ⟨k, hk, -⟩
    · rfl
    · cases hk
  | expand hgoals _ ih => exact ih ((leaf_expand hgoals).1 h') hend
  | answer hgoals _ ih =>
    rcases (leaf_success hgoals).1 h' with ⟨hzero, -⟩ | ⟨k, hk, hrest⟩
    · cases hzero
    · obtain rfl := Nat.succ.inj hk
      exact ih hrest hend

end PrologMachine
