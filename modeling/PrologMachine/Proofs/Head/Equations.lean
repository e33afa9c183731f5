/-
  PrologMachine.Proofs.Head.Equations ── **HEAD CODE AS A SYSTEM OF EQUATIONS.**

  The code of a head is a list of equations, each between a register and a structure over names,
  constants and further registers.  Together they say of the tree in `$x0` that the head describes it.

    * `Term.patterns`: the arguments of a head as patterns, with the constants in the cells that its
      code has.
    * `Equation.Code`: the code of equations, which tells first occurrences from later ones.
    * `decodeHead_equations`: the code of a head is that of equations whose solutions are the trees that
      the head describes.
-/
import PrologMachine.Machine.Run
import PrologMachine.Proofs.Code.Emission
import PrologMachine.Proofs.Head.Pattern

namespace PrologMachine

/-! ## §1. Heads as patterns. -/

namespace Term

/-- How many terms of a list are constants. -/
def atomics : List Term → Nat
  | [] => 0
  | .const _ _ :: ts => atomics ts + 1
  | .app _ [] _ _ :: ts => atomics ts + 1
  | _ :: ts => atomics ts

/-- Terms as patterns, and the number of the next constant.  Their own constants are numbered from
    `own` on, those inside of them from `below` on, in the order in which `decodeArgs` and
    `decodeNested` emit them.  A compound without arguments is an atom. -/
def patterns (compiler : Nat) : (own below : Nat) → List Term → List Pattern × Nat
  | _, below, [] => ([], below)
  | own, below, .var x _ :: ts =>
    let rest := patterns compiler own below ts
    ((if isAnonymous x then .void else .var x) :: rest.1, rest.2)
  | own, below, .const a _ :: ts =>
    let rest := patterns compiler (own + 1) below ts
    (.const ⟨a, .code compiler own⟩ :: rest.1, rest.2)
  | own, below, .app f [] _ _ :: ts =>
    let rest := patterns compiler (own + 1) below ts
    (.const ⟨.atom f, .code compiler own⟩ :: rest.1, rest.2)
  | own, below, .app f (a :: as) _ _ :: ts =>
    let inner := patterns compiler below (below + atomics (a :: as)) (a :: as)
    let rest := patterns compiler own inner.2 ts
    (.struct f inner.1 :: rest.1, rest.2)
  | own, below, .absent :: ts => patterns compiler own below ts

/-- The names in the patterns of proper terms are no registers. -/
theorem patterns_names (compiler : Nat) (own below : Nat) (ts : List Term) : AllProper ts →
    ∀ x ∈ Pattern.namesAll (patterns compiler own below ts).1, isRegister x = false := by
  fun_induction patterns compiler own below ts with
  | case1 => simp [Pattern.namesAll]
  | case2 own below x id ts rest ih =>
    intro hts y hy
    rcases List.mem_append.1 hy with hy | hy
    · split at hy
      · simp [Pattern.names] at hy
      · obtain rfl : y = x := by simpa [Pattern.names] using hy
        exact hts.1
    · exact ih hts.2 y hy
  | case3 own below a pos ts rest ih =>
    intro hts y hy
    exact ih hts.2 y (by simpa [Pattern.namesAll, Pattern.names] using hy)
  | case4 own below f attrs pos ts rest ih =>
    intro hts y hy
    exact ih hts.2 y (by simpa [Pattern.namesAll, Pattern.names] using hy)
  | case5 own below f a as attrs pos ts inner rest ihInner ih =>
    intro hts y hy
    rcases List.mem_append.1 hy with hy | hy
    · exact ihInner hts.1.2 y hy
    · exact ih hts.2 y hy
  | case6 own below ts ih =>
    intro hts
    exact hts.1.elim

mutual

/-- No variable of the term has the name of a register, and no part of it is missing. -/
def Named : Term → Prop
  | .var x _ => isRegister x = false
  | .const _ _ => True
  | .app _ args _ _ => AllNamed args
  | .absent => False

/-- All terms of a list are named. -/
def AllNamed : List Term → Prop
  | [] => True
  | t :: ts => t.Named ∧ AllNamed ts

end

/-- In the patterns of terms every functor has arguments. -/
theorem patterns_full {K : Set Constant} (compiler : Nat) (own below : Nat) (ts : List Term) :
    AllNamed ts → (∀ c ∈ Pattern.constantsAll (patterns compiler own below ts).1, c ∈ K) →
      Pattern.FullAll K (patterns compiler own below ts).1 ∧
        (patterns compiler own below ts).1.length = ts.length := by
  fun_induction patterns compiler own below ts with
  | case1 => simp [Pattern.FullAll]
  | case2 own below x id ts rest ih =>
    intro hts hK
    obtain ⟨hfull, hlength⟩ := ih hts.2 fun c hc => hK c (List.mem_append_right _ hc)
    refine ⟨⟨?_, hfull⟩, congrArg Nat.succ hlength⟩
    split <;> trivial
  | case3 own below a pos ts rest ih =>
    intro hts hK
    obtain ⟨hfull, hlength⟩ := ih hts.2 fun c hc => hK c (List.mem_append_right _ hc)
    exact ⟨⟨hK _ (List.mem_append_left _ (List.mem_singleton_self _)), hfull⟩,
      congrArg Nat.succ hlength⟩
  | case4 own below f attrs pos ts rest ih =>
    intro hts hK
    obtain ⟨hfull, hlength⟩ := ih hts.2 fun c hc => hK c (List.mem_append_right _ hc)
    exact ⟨⟨hK _ (List.mem_append_left _ (List.mem_singleton_self _)), hfull⟩,
      congrArg Nat.succ hlength⟩
  | case5 own below f a as attrs pos ts inner rest ihInner ih =>
    intro hts hK
    -- The patterns below a structure are complete by the same induction, one level down.
    obtain ⟨hinner, hinnerLength⟩ := ihInner hts.1 fun c hc => hK c (List.mem_append_left _ hc)
    obtain ⟨hfull, hlength⟩ := ih hts.2 fun c hc => hK c (List.mem_append_right _ hc)
    exact ⟨⟨⟨List.ne_nil_of_length_pos (hinnerLength ▸ Nat.succ_pos _), hinner⟩, hfull⟩,
      congrArg Nat.succ hlength⟩
  | case6 own below ts ih =>
    intro hts
    exact hts.1.elim

mutual

/-- The term without its marks. -/
def unmarked : Term → Term
  | .app f args _ pos => .app f (unmarkedAll args) .none pos
  | .var x id => .var x id
  | .const a pos => .const a pos
  | .absent => .absent

/-- The terms without their marks. -/
def unmarkedAll : List Term → List Term
  | [] => []
  | t :: ts => t.unmarked :: unmarkedAll ts

end

/-- Marks do not change the number of terms. -/
theorem length_unmarkedAll (ts : List Term) : (unmarkedAll ts).length = ts.length := by
  induction ts with
  | nil => rfl
  | cons t ts ih => exact congrArg Nat.succ ih

mutual

/-- Without marks a named term is proper. -/
theorem Named.proper : ∀ {t : Term}, t.Named → t.unmarked.Proper
  | .var _ _, h => h
  | .const _ _, _ => trivial
  | .app _ args _ _, h => ⟨fun hmark => absurd hmark (by decide), AllNamed.proper h⟩
  | .absent, h => h

/-- Named terms are proper without their marks. -/
theorem AllNamed.proper : ∀ {ts : List Term}, AllNamed ts → AllProper (unmarkedAll ts)
  | [], _ => trivial
  | _ :: _, h => ⟨h.1.proper, AllNamed.proper h.2⟩

end

/-- They have the same constants. -/
theorem atomics_unmarkedAll (ts : List Term) : atomics (unmarkedAll ts) = atomics ts := by
  fun_induction atomics ts with
  | case1 => rfl
  | case2 a pos ts ih => simp [unmarkedAll, unmarked, atomics, ih]
  | case3 f attrs pos ts ih => simp [unmarkedAll, unmarked, atomics, ih]
  | case4 t ts hconst happ ih =>
    cases t with
    | var x id => simp [unmarkedAll, unmarked, atomics, ih]
    | const a pos => exact (hconst _ _ rfl).elim
    | app f args attrs pos =>
      cases args with
      | nil => exact (happ _ _ _ rfl).elim
      | cons a as => simp [unmarkedAll, unmarked, atomics, ih]
    | absent => simp [unmarkedAll, unmarked, atomics, ih]

/-- Patterns do not depend on marks. -/
theorem patterns_unmarkedAll (compiler : Nat) (own below : Nat) (ts : List Term) :
    patterns compiler own below (unmarkedAll ts) = patterns compiler own below ts := by
  fun_induction patterns compiler own below ts with
  | case1 => simp [unmarkedAll, patterns]
  | case2 own below x id ts rest ih => simp [unmarkedAll, unmarked, patterns, ih, rest]
  | case3 own below a pos ts rest ih => simp [unmarkedAll, unmarked, patterns, ih, rest]
  | case4 own below f attrs pos ts rest ih => simp [unmarkedAll, unmarked, patterns, ih, rest]
  | case5 own below f a as attrs pos ts inner rest ihInner ih =>
    have hargs : unmarkedAll (a :: as) = a.unmarked :: unmarkedAll as := by rw [unmarkedAll]
    rw [unmarkedAll, unmarked, hargs, patterns, ← hargs, atomics_unmarkedAll, ihInner, ih]
  | case6 own below ts ih => simp [unmarkedAll, unmarked, patterns, ih]

end Term

/-! ## §2. Equations. -/

/-- A register equals a structure over names and constants. -/
structure Equation where
  /-- The number of the register. -/
  register : Nat
  /-- The functor. -/
  functor : String
  /-- What stands in the structure, further registers included. -/
  args : List Pattern

namespace Pattern

/-- A part of a structure, in whose place a register may stand. -/
def shallow : Pattern → Option Nat → Pattern
  | _, some r => .var (structRegister r)
  | p, none => p

/-- The patterns that have registers, with these. -/
def atPlaces (ps : List Pattern) (places : List (Option Nat)) : List (Pattern × Nat) :=
  (ps.zip places).filterMap fun q => q.2.map fun r => (q.1, r)

/-- The code of parts of a structure; the names `keys` are known before, the names `keys'` behind. -/
inductive Codes : (keys : Set String) → List Pattern → Code → (keys' : Set String) → Prop where
  /-- No parts. -/
  | nil {keys : Set String} : Codes keys [] [] keys
  /-- A name that is not known. -/
  | first {keys keys' : Set String} {ps : List Pattern} {i : Instruction} {code : Code}
    (hop : ∀ w, Exec.execute w i = Exec.getVar i.name) (hx : i.name ∉ keys)
    (hrest : Codes (insert i.name keys) ps code keys') :
    Codes keys (.var i.name :: ps) (i :: code) keys'
  /-- A name that is known. -/
  | again {keys keys' : Set String} {ps : List Pattern} {i : Instruction} {code : Code}
    (hop : ∀ w, Exec.execute w i = Exec.getValue i.name) (hx : i.name ∈ keys)
    (hrest : Codes keys ps code keys') : Codes keys (.var i.name :: ps) (i :: code) keys'
  /-- An anonymous variable. -/
  | void {keys keys' : Set String} {ps : List Pattern} {i : Instruction} {code : Code}
    (hop : ∀ w, Exec.execute w i = Exec.unifVoid) (hrest : Codes keys ps code keys') :
    Codes keys (.void :: ps) (i :: code) keys'
  /-- A constant. -/
  | const {keys keys' : Set String} {ps : List Pattern} {i : Instruction} {code : Code}
    {c : Constant} (hop : ∀ w, Exec.execute w i = Exec.getConst i) (hc : i.constant = some c)
    (hrest : Codes keys ps code keys') : Codes keys (.const c :: ps) (i :: code) keys'

variable {keys keys' : Set String} {ps : List Pattern} {code : Code}

/-- Names that are known stay known. -/
theorem Codes.subset (h : Codes keys ps code keys') : keys ⊆ keys' := by
  induction h with
  | nil => exact subset_rfl
  | first _ _ _ ih => exact (Set.subset_insert _ _).trans ih
  | again _ _ _ ih => exact ih
  | void _ _ ih => exact ih
  | const _ _ _ ih => exact ih

/-- Nothing is known behind the code but what was known and its names. -/
theorem Codes.bounded (h : Codes keys ps code keys') : ∀ x ∈ keys', x ∈ keys ∨ x ∈ namesAll ps := by
  induction h with
  | nil => exact fun x hx => .inl hx
  | first _ _ _ ih =>
    intro x hx
    rcases ih x hx with (rfl | hx) | hx
    · exact .inr (List.mem_append_left _ (List.mem_singleton_self _))
    · exact .inl hx
    · exact .inr (List.mem_append_right _ hx)
  | again _ _ _ ih => exact fun x hx => (ih x hx).imp_right (List.mem_append_right _)
  | void _ _ ih => exact fun x hx => (ih x hx).imp_right (List.mem_append_right _)
  | const _ _ _ ih => exact fun x hx => (ih x hx).imp_right (List.mem_append_right _)

/-- All names are known behind the code. -/
theorem Codes.names (h : Codes keys ps code keys') : ∀ x ∈ namesAll ps, x ∈ keys' := by
  induction h with
  | nil => simp [namesAll]
  | first _ _ hrest ih =>
    intro x hx
    rcases List.mem_append.1 hx with hx | hx
    · obtain rfl := List.mem_singleton.1 (show x ∈ [_] from hx)
      exact hrest.subset (Set.mem_insert _ _)
    · exact ih x hx
  | again _ hknown hrest ih =>
    intro x hx
    rcases List.mem_append.1 hx with hx | hx
    · obtain rfl := List.mem_singleton.1 (show x ∈ [_] from hx)
      exact hrest.subset hknown
    · exact ih x hx
  | void _ _ ih => exact fun x hx => ih x hx
  | const _ _ _ ih => exact fun x hx => ih x hx

end Pattern

namespace Equation

open Pattern

/-- The trees of names and registers solve the equation. -/
def Holds (K : Set Constant) (θ : Assignment) (q : Equation) : Prop :=
  Describes K θ (.struct q.functor q.args) (θ (structRegister q.register))

/-- The code of equations. -/
inductive Code : (keys : Set String) → List Equation → PrologMachine.Code → (keys' : Set String) → Prop where
  /-- No equations. -/
  | nil {keys : Set String} : Code keys [] [] keys
  /-- An equation of a register that is known. -/
  | cons {keys keys₁ keys' : Set String} {q : Equation} {qs : List Equation}
    {own code : PrologMachine.Code} (hr : structRegister q.register ∈ keys)
    (hargs : Codes keys q.args own keys₁) (hrest : Code keys₁ qs code keys') :
    Code keys (q :: qs) (getStruct q.functor q.args.length q.register :: (own ++ code)) keys'

variable {keys keys₁ keys' : Set String} {q : Equation} {qs qs' : List Equation}
  {code code' : PrologMachine.Code} {K : Set Constant} {θ θ' : Assignment}

/-- The code of one row of equations before the code of another. -/
theorem Code.append (h : Code keys qs code keys₁) (h' : Code keys₁ qs' code' keys') :
    Code keys (qs ++ qs') (code ++ code') keys' := by
  induction h with
  | nil => exact h'
  | cons hr hargs _ ih =>
    rw [List.cons_append, List.cons_append, List.append_assoc]
    exact .cons hr hargs (ih h')

/-- Names that are known stay known. -/
theorem Code.subset (h : Code keys qs code keys') : keys ⊆ keys' := by
  induction h with
  | nil => exact subset_rfl
  | cons _ hargs _ ih => exact hargs.subset.trans ih

/-- All names and registers are known behind the code. -/
theorem Code.names (h : Code keys qs code keys') :
    ∀ q ∈ qs, structRegister q.register ∈ keys' ∧ ∀ x ∈ namesAll q.args, x ∈ keys' := by
  induction h with
  | nil => simp
  | cons hr hargs hrest ih =>
    intro q hq
    rcases List.mem_cons.1 hq with rfl | hq
    · exact ⟨hrest.subset (hargs.subset hr), fun x hx => hrest.subset (hargs.names x hx)⟩
    · exact ih q hq

end Equation

/-! ## §3. Assignments that differ in places. -/

namespace Pattern

variable {K : Set Constant} {θ θ' : Assignment}

mutual

/-- What a pattern describes depends on the trees of its names. -/
theorem describes_congr : ∀ (p : Pattern) {T : Tree}, (∀ x ∈ p.names, θ' x = θ x) →
    (Describes K θ' p T ↔ Describes K θ p T)
  | .var x, T, hagree => by rw [Describes, Describes, hagree x (List.mem_singleton_self x)]
  | .void, T, _ => Iff.rfl
  | .const c, T, _ => Iff.rfl
  | .struct f ps, T, hagree => by
    rw [Describes, Describes]
    exact exists_congr fun Ts => and_congr_right fun _ => describesAll_congr ps hagree

/-- Descriptions depend on the names in them only. -/
theorem describesAll_congr : ∀ (ps : List Pattern) {Ts : List Tree},
    (∀ x ∈ namesAll ps, θ' x = θ x) → (DescribesAll K θ' ps Ts ↔ DescribesAll K θ ps Ts)
  | [], Ts, _ => Iff.rfl
  | p :: ps, Ts, hagree => by
    rw [DescribesAll, DescribesAll]
    exact exists_congr fun T => exists_congr fun Us => and_congr_right fun _ =>
      and_congr (describes_congr p fun x hx => hagree x (List.mem_append_left _ hx))
        (describesAll_congr ps fun x hx => hagree x (List.mem_append_right _ hx))

end

/-- A name of patterns is a name of one of them. -/
theorem mem_namesAll {ps : List Pattern} {x : String} :
    x ∈ namesAll ps ↔ ∃ p ∈ ps, x ∈ p.names := by
  induction ps with
  | nil => simp [namesAll]
  | cons p ps ih => simp [namesAll, ih]

/-- Patterns are complete when each one is. -/
theorem fullAll_iff {ps : List Pattern} : FullAll K ps ↔ ∀ p ∈ ps, p.Full K := by
  induction ps with
  | nil => simp [FullAll]
  | cons p ps ih => simp [FullAll, ih]

/-- The names in shallow patterns are those of the patterns, and registers. -/
theorem names_shallow {ps : List Pattern} {places : List (Option Nat)} {x : String}
    (hx : x ∈ namesAll (ps.zipWith shallow places)) : x ∈ namesAll ps ∨ x ∈ placeNames places := by
  induction ps generalizing places with
  | nil => simp [namesAll] at hx
  | cons p ps ih =>
    cases places with
    | nil => simp [namesAll] at hx
    | cons r places =>
      rcases List.mem_append.1 (show x ∈ names _ ++ namesAll _ from hx) with hx | hx
      · cases r with
        | none => exact .inl (List.mem_append_left _ hx)
        | some r => exact .inr (by simpa [shallow, names] using Or.inl hx)
      · rcases ih hx with hname | hplace
        · exact .inl (List.mem_append_right _ hname)
        · refine .inr ?_
          cases r with
          | none => exact hplace
          | some r => exact List.mem_cons_of_mem _ hplace

/-- **Parts that are registers may be described on their own.** -/
theorem describesAll_of_shallow {ps : List Pattern} {places : List (Option Nat)} {Ts : List Tree}
    (hlength : ps.length = places.length) (hTs : DescribesAll K θ (ps.zipWith shallow places) Ts)
    (hplaced : ∀ q ∈ atPlaces ps places, Describes K θ q.1 (θ (structRegister q.2))) :
    DescribesAll K θ ps Ts := by
  induction ps generalizing places Ts with
  | nil => exact hTs
  | cons p ps ih =>
    cases places with
    | nil => cases hlength
    | cons r places =>
      obtain ⟨T, Us, rfl, hT, hUs⟩ := hTs
      cases r with
      | none =>
        have hbelow := ih (Nat.succ.inj hlength) hUs fun q hq => hplaced q (by simpa [atPlaces] using hq)
        exact ⟨T, Us, rfl, hT, hbelow⟩
      | some r =>
        obtain rfl : T = θ (structRegister r) := hT
        exact ⟨_, Us, rfl, hplaced (p, r) (by simp [atPlaces]), ih (Nat.succ.inj hlength) hUs fun q hq =>
          hplaced q (by simp only [atPlaces] at hq; simp [atPlaces, hq])⟩

/-- Trees for the registers of parts. -/
theorem exists_shallow {ps : List Pattern} {places : List (Option Nat)} {Ts : List Tree}
    (hlength : ps.length = places.length) (hnodup : (places.filterMap id).Nodup)
    (hnames : ∀ x ∈ namesAll ps, x ∉ Set.range structRegister) (hTs : DescribesAll K θ ps Ts) :
    ∃ θ' : Assignment, (∀ x, x ∉ placeNames places → θ' x = θ x) ∧
      DescribesAll K θ' (ps.zipWith shallow places) Ts ∧
      ∀ q ∈ atPlaces ps places, Describes K θ' q.1 (θ' (structRegister q.2)) := by
  induction ps generalizing places Ts with
  | nil => exact ⟨θ, fun _ _ => rfl, hTs, by simp [atPlaces]⟩
  | cons p ps ih =>
    cases places with
    | nil => cases hlength
    | cons r places =>
      obtain ⟨T, Us, rfl, hT, hUs⟩ := hTs
      have hp : ∀ x ∈ p.names, x ∉ Set.range structRegister := fun x hx =>
        hnames x (List.mem_append_left _ hx)
      have hps : ∀ x ∈ namesAll ps, x ∉ Set.range structRegister := fun x hx =>
        hnames x (List.mem_append_right _ hx)
      have hregister : ∀ {x : String} {places : List (Option Nat)}, x ∈ placeNames places →
          x ∈ Set.range structRegister := by
        intro x places hx
        obtain ⟨k, -, rfl⟩ := List.mem_map.1 hx
        exact ⟨k, rfl⟩
      cases r with
      | none =>
        obtain ⟨θ', hagree, hshallow, hplaced⟩ := ih (Nat.succ.inj hlength) hnodup hps hUs
        refine ⟨θ', hagree, ⟨T, Us, rfl, ?_, hshallow⟩, fun q hq => hplaced q (by simpa [atPlaces] using hq)⟩
        exact (describes_congr p fun x hx => hagree x fun hmem => hp x hx (hregister hmem)).2 hT
      | some r =>
        obtain ⟨hr, hnodup⟩ := List.nodup_cons.1 (show (r :: places.filterMap id).Nodup from hnodup)
        obtain ⟨θ₁, hagree, hshallow, hplaced⟩ := ih (Nat.succ.inj hlength) hnodup hps hUs
        have hr' : structRegister r ∉ placeNames places := by
          intro hmem
          obtain ⟨k, hk, heq⟩ := List.mem_map.1 hmem
          rw [structRegister_inj] at heq
          exact hr (heq ▸ hk)
        -- The register of this part gets its tree; no other part looks at it.
        let θ' : Assignment := fun x => if x = structRegister r then T else θ₁ x
        have hother : ∀ x, x ≠ structRegister r → θ' x = θ₁ x := fun x hx => if_neg hx
        have hself : θ' (structRegister r) = T := if_pos rfl
        have hname : ∀ p' : Pattern, (∀ x ∈ p'.names, x ∉ Set.range structRegister) →
            ∀ x ∈ p'.names, θ' x = θ₁ x := fun p' hp' x hx =>
          hother x fun heq => hp' x hx ⟨r, heq.symm⟩
        refine ⟨θ', fun x hx => ?_, ⟨T, Us, rfl, hself.symm, ?_⟩, fun q hq => ?_⟩
        · rw [placeNames_some, List.mem_cons, not_or] at hx
          rw [hother x hx.1, hagree x hx.2]
        · refine (describesAll_congr _ fun x hx => hother x ?_).2 hshallow
          rintro rfl
          rcases names_shallow hx with hx | hx
          · exact hps _ hx ⟨r, rfl⟩
          · exact hr' hx
        · rcases List.mem_cons.1 (show q ∈ (p, r) :: atPlaces ps places from hq) with rfl | hq
          · refine (describes_congr p fun x hx => ?_).2 (hself.symm ▸ hT)
            rw [hname p hp x hx]
            exact hagree x fun hmem => hp x hx (hregister hmem)
          · obtain ⟨⟨p', r'⟩, hmem, heq⟩ := List.mem_filterMap.1 hq
            have hne : structRegister q.2 ≠ structRegister r := by
              intro heq'
              cases r' with
              | none => cases heq
              | some k =>
                obtain rfl := Option.some.inj heq
                rw [structRegister_inj] at heq'
                have hk := (List.of_mem_zip hmem).2
                exact hr (List.mem_filterMap.2 ⟨some k, hk, by rw [← heq']; rfl⟩)
            have hq' : q.1 ∈ ps := by
              cases r' with
              | none => cases heq
              | some k =>
                obtain rfl := Option.some.inj heq
                exact (List.of_mem_zip hmem).1
            rw [hother _ hne]
            exact (describes_congr q.1 (hname q.1 fun x hx => hps x (mem_namesAll.2 ⟨_, hq', hx⟩))).2
              (hplaced q hq)

end Pattern

/-! ## §4. The code of heads. -/

open Emit Pattern

/-- What the emitter has seen is known, and nothing else but registers that it has handed out. -/
structure Emitter.Knows (e : Emitter) (keys : Set String) : Prop where
  /-- Variables that have occurred. -/
  seen : ∀ x ∈ e.seen, x ∈ keys
  /-- There is no more. -/
  known : ∀ x ∈ keys, x ∈ e.seen ∨ ∃ r ≤ e.registers, x = structRegister r
  /-- They are no registers. -/
  names : ∀ x ∈ e.seen, isRegister x = false

variable {keys : Set String} {e : Emitter} {x : String}

namespace Emitter.Knows

/-- The emitter has seen the variables that are known. -/
theorem contains_iff (hk : e.Knows keys) (hx : isRegister x = false) :
    e.seen.contains x = true ↔ x ∈ keys := by
  rw [List.contains_iff_mem]
  refine ⟨hk.seen x, fun hmem => (hk.known x hmem).resolve_right ?_⟩
  rintro ⟨r, -, rfl⟩
  exact ne_structRegister (isStructRegister_of_not_isRegister hx) r rfl

/-- A register that was not handed out is not known. -/
theorem register_notMem (hk : e.Knows keys) {r : Nat} (hr : e.registers < r) :
    structRegister r ∉ keys := by
  intro hmem
  rcases hk.known _ hmem with hseen | ⟨k, hle, heq⟩
  · exact ne_structRegister (isStructRegister_of_not_isRegister (hk.names _ hseen)) r rfl
  · rw [structRegister_inj] at heq
    omega

/-- A variable has occurred. -/
theorem occurred (hk : e.Knows keys) (hx : isRegister x = false) :
    { e with seen := x :: e.seen }.Knows (insert x keys) where
  seen y hy := by
    rcases List.mem_cons.1 hy with rfl | hy
    · exact Set.mem_insert _ _
    · exact Set.mem_insert_of_mem _ (hk.seen y hy)
  known y hy := by
    rcases Set.mem_insert_iff.1 hy with rfl | hy
    · exact .inl (List.mem_cons_self ..)
    · exact (hk.known y hy).imp_left (List.mem_cons_of_mem _)
  names y hy := by
    rcases List.mem_cons.1 hy with rfl | hy
    · exact hx
    · exact hk.names y hy

/-- A register was handed out. -/
theorem registered (hk : e.Knows keys) :
    { e with registers := e.registers + 1 }.Knows
      (insert (structRegister (e.registers + 1)) keys) where
  seen y hy := Set.mem_insert_of_mem _ (hk.seen y hy)
  known y hy := by
    rcases Set.mem_insert_iff.1 hy with rfl | hy
    · exact .inr ⟨_, le_rfl, rfl⟩
    · exact (hk.known y hy).imp_right fun ⟨r, hr, heq⟩ => ⟨r, Nat.le_succ_of_le hr, heq⟩
  names := hk.names

end Emitter.Knows

/-- A place without a register belongs to no structure with arguments. -/
def Unplaced (t : Term) (r : Option Nat) : Prop :=
  r = none → ∀ f a as attrs pos, t ≠ .app f (a :: as) attrs pos

/-- What the code of arguments decodes: the patterns of the terms, with registers in the place of
    structures. -/
structure DecodesShallow (keys : Set String) (ts : List Term) (below : Nat) (e : Emitter)
    (out : (PrologMachine.Code × List (Option Nat)) × Emitter) (keys' : Set String) : Prop where
  /-- The code. -/
  codes : Codes keys ((Term.patterns e.compiler e.constants below ts).1.zipWith shallow out.1.2)
    out.1.1 keys'
  /-- What is known behind it. -/
  knows : out.2.Knows keys'
  /-- The registers are known. -/
  registers : ∀ x ∈ placeNames out.1.2, x ∈ keys'
  /-- There is a place for each pattern. -/
  length : (Term.patterns e.compiler e.constants below ts).1.length = out.1.2.length
  /-- Structures have registers. -/
  structs : List.Forall₂ Unplaced ts out.1.2
  /-- Constants are counted. -/
  constants : out.2.constants = e.constants + Term.atomics ts
  /-- They have one owner. -/
  compiler : out.2.compiler = e.compiler

/-- One more argument, without a register. -/
theorem DecodesShallow.cons {keys₁ keys' : Set String} {i : Instruction} {t : Term} {ts : List Term}
    {below : Nat} {e₁ : Emitter} {p : Pattern}
    {out : (PrologMachine.Code × List (Option Nat)) × Emitter}
    (h : DecodesShallow keys₁ ts below e₁ out keys')
    (hpatterns : (Term.patterns e.compiler e.constants below (t :: ts)).1 =
      p :: (Term.patterns e₁.compiler e₁.constants below ts).1)
    (hcode : ∀ {ps code}, Codes keys₁ ps code keys' → Codes keys (p :: ps) (i :: code) keys')
    (hstruct : Unplaced t none)
    (hconstants : e₁.constants + Term.atomics ts = e.constants + Term.atomics (t :: ts))
    (hcompiler : e₁.compiler = e.compiler) :
    DecodesShallow keys (t :: ts) below e ((i :: out.1.1, none :: out.1.2), out.2) keys' where
  codes := by
    rw [hpatterns]
    exact hcode h.codes
  knows := h.knows
  registers := h.registers
  length := by rw [hpatterns]; exact congrArg Nat.succ h.length
  structs := .cons hstruct h.structs
  constants := h.constants.trans hconstants
  compiler := h.compiler.trans hcompiler

/-- The instruction of a variable, and what the emitter has seen behind it. -/
theorem decodeVar_codes (root : Bool) {x : String} (hx : isRegister x = false) (hk : e.Knows keys) :
    ∃ keys₁, ((decodeVar root x).eval e).2.Knows keys₁ ∧
      ((decodeVar root x).eval e).2.constants = e.constants ∧
      ((decodeVar root x).eval e).2.compiler = e.compiler ∧
      ∀ {ps code keys'}, Codes keys₁ ps code keys' →
        Codes keys ((if isAnonymous x then .void else .var x) :: ps)
          (((decodeVar root x).eval e).1 :: code) keys' := by
  -- A variable is skipped, compared with what it stands for, or named, and the operation depends on the
  -- level only.
  cases hanon : isAnonymous x with
  | true =>
    have heval : (decodeVar root x).eval e = ({ op := .unifVoid }, e) := by simp [decodeVar, hanon]
    rw [heval]
    exact ⟨keys, hk, rfl, rfl, fun hps => .void (fun _ => rfl) hps⟩
  | false =>
    by_cases hseen : e.seen.contains x = true
    · obtain ⟨op, hop, heval⟩ : ∃ op : Opcode,
          (∀ w, Exec.execute w { op, name := x } = Exec.getValue x) ∧
            (decodeVar root x).eval e = ({ op, name := x }, e) := by
        refine ⟨if root then .getValue else .unifValue, ?_, ?_⟩
        · cases root <;> exact fun _ => rfl
        · cases root <;> simp [decodeVar, hanon, (List.contains_iff_mem ..).1 hseen]
      rw [heval]
      exact ⟨keys, hk, rfl, rfl, fun hps =>
        .again (i := { op, name := x }) hop ((hk.contains_iff hx).1 hseen) hps⟩
    · obtain ⟨op, hop, heval⟩ : ∃ op : Opcode,
          (∀ w, Exec.execute w { op, name := x } = Exec.getVar x) ∧
            (decodeVar root x).eval e = ({ op, name := x }, { e with seen := x :: e.seen }) := by
        refine ⟨if root then .getVar else .unifVar, ?_, ?_⟩
        · cases root <;> exact fun _ => rfl
        · have hnot : x ∉ e.seen := fun hmem => hseen ((List.contains_iff_mem ..).2 hmem)
          cases root <;> simp [decodeVar, hanon, hnot]
      rw [heval]
      exact ⟨insert x keys, hk.occurred hx, rfl, rfl, fun hps =>
        .first (i := { op, name := x }) hop (fun hmem => hseen ((hk.contains_iff hx).2 hmem)) hps⟩

/-- The instruction of a constant. -/
theorem decodeConst_codes (root : Bool) (a : Atomic) {keys keys' : Set String} {ps : List Pattern}
    {code : PrologMachine.Code} (h : Codes keys ps code keys') :
    Codes keys (.const ⟨a, .code e.compiler e.constants⟩ :: ps)
      (((decodeConst root a).eval e).1 :: code) keys' := by
  refine .const (fun w => ?_) ?_ h
  · cases a <;> cases root <;> rfl
  · rfl

/-- **The code of the arguments of a structure.** -/
theorem decodeArgs_shallow (root : Bool) {ts : List Term} : Term.AllProper ts →
    ∀ (below : Nat) {e : Emitter} {keys : Set String}, e.Knows keys →
      ∃ keys', DecodesShallow keys ts below e ((decodeArgs root ts).eval e) keys' := by
  induction ts with
  | nil =>
    intro _ below e keys hk
    have hnil : (Term.patterns e.compiler e.constants below []).1 = [] := by rw [Term.patterns]
    exact ⟨keys, by rw [hnil]; exact .nil, hk, by simp [decodeArgs], by rw [hnil]; rfl, .nil, rfl, rfl⟩
  | cons t ts ih =>
    intro hts below e keys hk
    cases t with
    | var x id =>
      obtain ⟨keys₁, hk₁, hconstants, hcompiler, hcode⟩ := decodeVar_codes root hts.1 hk
      obtain ⟨keys', h⟩ := ih hts.2 below hk₁
      refine ⟨keys', ?_⟩
      simp only [decodeArgs, decodeArg, eval_bind, eval_pure]
      refine h.cons (p := if isAnonymous x then .void else .var x) ?_ hcode (by simp [Unplaced]) ?_ hcompiler
      · rw [Term.patterns, hconstants, hcompiler]
      · rw [hconstants]
        rfl
    | const a pos =>
      have hk' : ({ e with constants := e.constants + 1 } : Emitter).Knows keys :=
        ⟨hk.seen, hk.known, hk.names⟩
      obtain ⟨keys', h⟩ := ih hts.2 below hk'
      refine ⟨keys', ?_⟩
      simp only [decodeArgs, decodeArg, eval_bind, eval_pure]
      refine h.cons (p := .const ⟨a, .code e.compiler e.constants⟩) ?_ (decodeConst_codes root a)
        (by simp [Unplaced]) ?_ rfl
      · rw [Term.patterns]
      · simp only [Term.atomics]
        omega
    | app f args attrs pos =>
      cases args with
      | nil =>
        have hk' : ({ e with constants := e.constants + 1 } : Emitter).Knows keys :=
          ⟨hk.seen, hk.known, hk.names⟩
        obtain ⟨keys', h⟩ := ih hts.2 below hk'
        refine ⟨keys', ?_⟩
        simp only [decodeArgs, decodeArg, eval_bind, eval_pure]
        refine h.cons (p := .const ⟨.atom f, .code e.compiler e.constants⟩) ?_
          (decodeConst_codes root (.atom f)) (by simp [Unplaced]) ?_ rfl
        · rw [Term.patterns]
        · simp only [Term.atomics]
          omega
      | cons a as =>
        obtain ⟨keys', h⟩ := ih hts.2
          (Term.patterns e.compiler below (below + Term.atomics (a :: as)) (a :: as)).2 hk.registered
        refine ⟨keys', ?_⟩
        simp only [decodeArgs, decodeArg, eval_bind, eval_pure, eval_newRegister]
        let i : Instruction :=
          { op := if root then .getVar else .unifVar, name := structRegister (e.registers + 1) }
        have hop : ∀ w, Exec.execute w i = Exec.getVar i.name := by
          cases root <;> exact fun _ => rfl
        -- The register of a structure is new, so the instruction names it.
        have hnew : structRegister (e.registers + 1) ∉ keys :=
          hk.register_notMem (Nat.lt_succ_self _)
        refine ⟨?_, h.knows, fun x hx => ?_, ?_,
          .cons (by simp [Unplaced]) h.structs, h.constants, h.compiler⟩
        · rw [Term.patterns]
          exact .first (i := i) hop hnew h.codes
        · rcases List.mem_cons.1 hx with rfl | hx
          · exact h.codes.subset (Set.mem_insert _ _)
          · exact h.registers x hx
        · rw [Term.patterns]
          exact congrArg Nat.succ h.length
    | absent => exact hts.1.elim

/-- The code of nested structures: equations whose solutions, with some trees for the registers that are
    new, are the trees that the structures describe. -/
structure DecodesDeep (K : Set Constant) (keys : Set String) (parts : List (Pattern × Nat)) (e : Emitter)
    (out : PrologMachine.Code × Emitter) (qs : List Equation) (keys' : Set String) : Prop where
  /-- The code. -/
  code : Equation.Code keys qs out.1 keys'
  /-- What is known behind it. -/
  knows : out.2.Knows keys'
  /-- Registers are only added. -/
  grows : e.registers ≤ out.2.registers
  /-- Each equation has a register of its own, an old one or a new one. -/
  registers : ∀ q ∈ qs, q.register ∈ parts.map Prod.snd ∨
    e.registers < q.register ∧ q.register ≤ out.2.registers
  /-- No register has two equations. -/
  nodup : (qs.map Equation.register).Nodup
  /-- The names are known. -/
  names : ∀ p ∈ parts, ∀ x ∈ p.1.names, x ∈ keys'
  /-- Nothing else is but registers. -/
  bounded : ∀ x ∈ keys', x ∈ keys ∨ (∃ p ∈ parts, x ∈ p.1.names) ∨ ∃ r, x = structRegister r
  /-- The constants are those of the patterns, and the structures have arguments. -/
  full : (∀ p ∈ parts, p.1.Full K) → ∀ q ∈ qs, q.args ≠ [] ∧ FullAll K q.args
  /-- Solutions give described trees. -/
  describes : ∀ θ, (∀ q ∈ qs, q.Holds K θ) →
    ∀ p ∈ parts, Describes K θ p.1 (θ (structRegister p.2))
  /-- Described trees give solutions. -/
  solves : ∀ θ, (∀ p ∈ parts, Describes K θ p.1 (θ (structRegister p.2))) →
    ∃ θ' : Assignment,
      (∀ x, (∀ r, e.registers < r → r ≤ out.2.registers → x ≠ structRegister r) → θ' x = θ x) ∧
      ∀ q ∈ qs, q.Holds K θ'

theorem DecodesDeep.nil (K : Set Constant) (hk : e.Knows keys) :
    DecodesDeep K keys [] e ([], e) [] keys where
  code := .nil
  knows := hk
  grows := le_rfl
  bounded x hx := .inl hx
  registers := by simp
  nodup := List.nodup_nil
  names := by simp
  full := by simp
  describes := by simp
  solves θ _ := ⟨θ, fun _ _ => rfl, by simp⟩

/-- An equation depends on the trees of its register and its names. -/
theorem Equation.holds_congr {K : Set Constant} {θ θ' : Assignment} {q : Equation}
    (hr : θ' (structRegister q.register) = θ (structRegister q.register))
    (hx : ∀ x ∈ namesAll q.args, θ' x = θ x) : q.Holds K θ' ↔ q.Holds K θ := by
  rw [Holds, Holds, hr]
  exact describes_congr _ hx

/-- A name that is known is no register that is new later. -/
theorem Emitter.Knows.ne_register {r : Nat} (hk : e.Knows keys) (hx : x ∈ keys)
    (hr : e.registers < r) : x ≠ structRegister r := by
  rintro rfl
  exact hk.register_notMem hr hx

/-- A pattern in a place is one of the patterns, and its place is a register. -/
theorem mem_atPlaces {ps : List Pattern} {places : List (Option Nat)} {p : Pattern × Nat}
    (hp : p ∈ atPlaces ps places) : p.1 ∈ ps ∧ p.2 ∈ places.filterMap id := by
  obtain ⟨⟨p', r⟩, hmem, heq⟩ := List.mem_filterMap.1 hp
  cases r with
  | none => cases heq
  | some r =>
    obtain rfl := Option.some.inj heq
    have hzip := List.of_mem_zip hmem
    exact ⟨hzip.1, List.mem_filterMap.2 ⟨some r, hzip.2, rfl⟩⟩

/-- The places are the registers. -/
theorem atPlaces_registers {ps : List Pattern} {places : List (Option Nat)}
    (hlength : ps.length = places.length) :
    (atPlaces ps places).map Prod.snd = places.filterMap id := by
  induction ps generalizing places with
  | nil =>
    cases places with
    | nil => rfl
    | cons _ _ => cases hlength
  | cons p ps ih =>
    cases places with
    | nil => cases hlength
    | cons r places =>
      have hrest := ih (Nat.succ.inj hlength)
      cases r with
      | none => simpa [atPlaces] using hrest
      | some r => simpa [atPlaces] using hrest

/-- The names of patterns are those of the shallow ones and of the placed ones. -/
theorem names_cases {ps : List Pattern} {places : List (Option Nat)} (hlength : ps.length = places.length)
    (hx : x ∈ namesAll ps) :
    x ∈ namesAll (ps.zipWith shallow places) ∨ ∃ p ∈ atPlaces ps places, x ∈ p.1.names := by
  induction ps generalizing places with
  | nil => cases hx
  | cons p ps ih =>
    cases places with
    | nil => cases hlength
    | cons r places =>
      -- The places of the arguments behind are places of the whole.
      have hsub : ∀ p' ∈ atPlaces ps places, p' ∈ atPlaces (p :: ps) (r :: places) := by
        intro p' hp'
        cases r with
        | none => exact hp'
        | some r => exact List.mem_cons_of_mem _ hp'
      rcases List.mem_append.1 hx with hx | hx
      · cases r with
        | none => exact .inl (List.mem_append_left _ hx)
        | some r => exact .inr ⟨(p, r), List.mem_cons_self .., hx⟩
      · rcases ih (Nat.succ.inj hlength) hx with hname | ⟨p', hp', hname⟩
        · exact .inl (List.mem_append_right _ hname)
        · exact .inr ⟨p', hsub p' hp', hname⟩

/-- Without what is below them patterns are still complete. -/
theorem fullAll_shallow {K : Set Constant} {ps : List Pattern} {places : List (Option Nat)}
    (hps : FullAll K ps) : FullAll K (ps.zipWith shallow places) := by
  induction ps generalizing places with
  | nil => trivial
  | cons p ps ih =>
    cases places with
    | nil => trivial
    | cons r places =>
      refine ⟨?_, ih hps.2⟩
      cases r with
      | none => exact hps.1
      | some r => trivial

/-- A structure in register `r` whose arguments are decoded into `places`: what is known of the code of its
    arguments, of what it contains and of the structures behind it. -/
structure DecodesStructure (K : Set Constant) (keys : Set String) (e : Emitter) (r : Nat) (ps : List Pattern)
    (places : List (Option Nat)) (own : PrologMachine.Code) (parts : List (Pattern × Nat)) (e₁ : Emitter)
    (below rest : PrologMachine.Code × Emitter) (qs qs' : List Equation) (keys₁ keys₂ keys₃ : Set String) :
    Prop where
  /-- The register is known. -/
  register : structRegister r ∈ keys
  /-- It is an old one. -/
  old : r ≤ e.registers
  /-- There are arguments. -/
  nonempty : ps ≠ []
  /-- Each has a place or none. -/
  length : ps.length = places.length
  /-- The code of the arguments. -/
  codes : Codes keys (ps.zipWith shallow places) own keys₁
  /-- What is known behind it. -/
  knows : e₁.Knows keys₁
  /-- Registers are only added. -/
  grows : e.registers ≤ e₁.registers
  /-- No place is taken twice. -/
  nodup : (places.filterMap id).Nodup
  /-- Places are new registers. -/
  fresh : ∀ k ∈ places.filterMap id, e.registers < k ∧ k ≤ e₁.registers
  /-- Names are no registers. -/
  names : ∀ x ∈ namesAll ps, isRegister x = false
  /-- What the structure contains. -/
  inner : DecodesDeep K keys₁ (atPlaces ps places) e₁ below qs keys₂
  /-- What is behind it. -/
  behind : DecodesDeep K keys₂ parts below.2 rest qs' keys₃
  /-- The structures behind it have old registers of their own, and names that are no registers. -/
  others : ∀ p ∈ parts, p.2 ≤ e.registers ∧ p.2 ≠ r ∧ ∀ x ∈ p.1.names, isRegister x = false

namespace DecodesStructure

variable {K : Set Constant} {r : Nat} {f : String} {ps : List Pattern} {places : List (Option Nat)}
  {own : PrologMachine.Code} {parts : List (Pattern × Nat)} {e₁ : Emitter} {keys₁ keys₂ keys₃ : Set String}
  {below rest : PrologMachine.Code × Emitter} {qs qs' : List Equation}

/-- What the structure contains has new registers. -/
theorem below_registers
    (h : DecodesStructure K keys e r ps places own parts e₁ below rest qs qs' keys₁ keys₂ keys₃)
    {q : Equation} (hq : q ∈ qs) : e.registers < q.register ∧ q.register ≤ below.2.registers := by
  rcases h.inner.registers q hq with hplace | ⟨hlt, hle⟩
  · rw [atPlaces_registers h.length] at hplace
    have hfresh := h.fresh _ hplace
    exact ⟨hfresh.1, hfresh.2.trans h.inner.grows⟩
  · exact ⟨h.grows.trans_lt hlt, hle⟩

/-- Cutting off what is below keeps the number of patterns. -/
theorem length_shallow
    (h : DecodesStructure K keys e r ps places own parts e₁ below rest qs qs' keys₁ keys₂ keys₃) :
    (ps.zipWith shallow places).length = ps.length := by
  rw [List.length_zipWith, ← h.length, Nat.min_self]

/-- Registers are taken upwards. -/
theorem le_below
    (h : DecodesStructure K keys e r ps places own parts e₁ below rest qs qs' keys₁ keys₂ keys₃) :
    e.registers ≤ below.2.registers := h.grows.trans h.inner.grows

/-- No register has two equations. -/
theorem registers_nodup
    (h : DecodesStructure K keys e r ps places own parts e₁ below rest qs qs' keys₁ keys₂ keys₃) :
    (r :: (qs ++ qs').map Equation.register).Nodup := by
  have hold := h.old
  have hle := h.le_below
  rw [List.map_append, List.nodup_cons, List.nodup_append]
  refine ⟨?_, h.inner.nodup, h.behind.nodup, ?_⟩
  -- The register itself is none of those that the nested structures got.
  · rw [List.mem_append, List.mem_map, List.mem_map]
    rintro (⟨q, hq, heq⟩ | ⟨q, hq, heq⟩)
    · have := (h.below_registers hq).1
      omega
    · rcases h.behind.registers q hq with hpart | ⟨hlt, -⟩
      · obtain ⟨p, hp, hpr⟩ := List.mem_map.1 hpart
        exact (h.others p hp).2.1 (hpr.trans heq)
      · omega
  -- Nor has a nested structure the register of an argument behind.
  · intro k hk k' hk' heq
    obtain ⟨q, hq, rfl⟩ := List.mem_map.1 hk
    obtain ⟨q', hq', rfl⟩ := List.mem_map.1 hk'
    have := h.below_registers hq
    rcases h.behind.registers q' hq' with hpart | ⟨hlt, -⟩
    · obtain ⟨p, hp, hpr⟩ := List.mem_map.1 hpart
      have := (h.others p hp).1
      omega
    · omega

/-- Described trees give solutions: first of the arguments, then of what the structure contains, then of the
    structures behind it. -/
theorem solves (h : DecodesStructure K keys e r ps places own parts e₁ below rest qs qs' keys₁ keys₂ keys₃)
    {θ : Assignment} (hθ : ∀ p ∈ (.struct f ps, r) :: parts, Describes K θ p.1 (θ (structRegister p.2))) :
    ∃ θ' : Assignment,
      (∀ x, (∀ k, e.registers < k → k ≤ rest.2.registers → x ≠ structRegister k) → θ' x = θ x) ∧
      ∀ q ∈ ⟨r, f, ps.zipWith shallow places⟩ :: (qs ++ qs'), q.Holds K θ' := by
  have hregister : ∀ {x}, isRegister x = false → ∀ k, x ≠ structRegister k := fun hx =>
    ne_structRegister (isStructRegister_of_not_isRegister hx)
  obtain ⟨Ts, hnode, hTs⟩ := hθ _ (List.mem_cons_self ..)
  obtain ⟨θ₁, hagree₁, hshallow₁, hplaced₁⟩ := exists_shallow h.length h.nodup (fun x hx => by
    rintro ⟨k, rfl⟩
    exact hregister (h.names _ hx) k rfl) hTs
  obtain ⟨θ₂, hagree₂, hqs⟩ := h.inner.solves θ₁ hplaced₁
  -- The registers that are new here are no names, and none of the other parts has one.
  have hnew : ∀ x, (∀ k, e.registers < k → k ≤ below.2.registers → x ≠ structRegister k) → θ₂ x = θ x := by
    intro x hx
    rw [hagree₂ x fun k hlt hle => hx k (h.grows.trans_lt hlt) hle, hagree₁ x]
    intro hmem
    obtain ⟨k, hk, rfl⟩ := List.mem_map.1 hmem
    have hfresh := h.fresh k hk
    exact hx k hfresh.1 (hfresh.2.trans h.inner.grows) rfl
  have hnewOld : ∀ k, k ≤ e.registers → θ₂ (structRegister k) = θ (structRegister k) := by
    intro k hk
    refine hnew _ fun k' hlt _ heq => ?_
    rw [structRegister_inj] at heq
    omega
  obtain ⟨θ₃, hagree₃, hqs'⟩ := h.behind.solves θ₂ fun p hp => by
    obtain ⟨hp₁, -, hpnames⟩ := h.others p hp
    rw [hnewOld p.2 hp₁]
    exact (describes_congr p.1 fun x hx => hnew x fun k _ _ => hregister (hpnames x hx) k).2
      (hθ p (List.mem_cons_of_mem _ hp))
  -- What is known before a register is handed out keeps its tree.
  have hkept : ∀ x ∈ keys₂, θ₃ x = θ₂ x := fun x hx =>
    hagree₃ x fun k hlt _ => h.inner.knows.ne_register hx hlt
  have hkept₁ : ∀ x ∈ keys₁, θ₃ x = θ₁ x := fun x hx => by
    rw [hkept x (h.inner.code.subset hx)]
    exact hagree₂ x fun k hlt _ => h.knows.ne_register hx hlt
  refine ⟨θ₃, fun x hx => ?_, fun q hq => ?_⟩
  · rw [hagree₃ x fun k hlt hle => hx k (h.le_below.trans_lt hlt) hle,
      hnew x fun k hlt hle => hx k hlt (hle.trans h.behind.grows)]
  rcases List.mem_cons.1 hq with rfl | hq
  · have hroot : θ₁ (structRegister r) = θ (structRegister r) := by
      refine hagree₁ _ fun hmem => ?_
      obtain ⟨k, hk, heq⟩ := List.mem_map.1 hmem
      rw [structRegister_inj] at heq
      have hlt := (h.fresh k hk).1
      have hold := h.old
      omega
    refine (Equation.holds_congr (hkept₁ _ (h.codes.subset h.register))
      fun x hx => hkept₁ x (h.codes.names x hx)).2 ⟨Ts, ?_, hshallow₁⟩
    rw [hroot]
    exact hnode
  rcases List.mem_append.1 hq with hq | hq
  · have hknown := h.inner.code.names q hq
    exact (Equation.holds_congr (hkept _ hknown.1) fun x hx => hkept x (hknown.2 x hx)).2 (hqs q hq)
  · exact hqs' q hq

/-- **A structure, what it contains, and the structures behind it.** -/
theorem deep (h : DecodesStructure K keys e r ps places own parts e₁ below rest qs qs' keys₁ keys₂ keys₃)
    (f : String) : DecodesDeep K keys ((.struct f ps, r) :: parts) e
      (getStruct f ps.length r :: (own ++ below.1 ++ rest.1), rest.2)
      (⟨r, f, ps.zipWith shallow places⟩ :: (qs ++ qs')) keys₃ where
  code := by
    have hcode := Equation.Code.cons (q := ⟨r, f, ps.zipWith shallow places⟩) h.register h.codes
      (h.inner.code.append h.behind.code)
    rw [h.length_shallow] at hcode
    rwa [List.append_assoc]
  knows := h.behind.knows
  grows := h.le_below.trans h.behind.grows
  registers q hq := by
    rcases List.mem_cons.1 hq with rfl | hq
    -- The registers of equations are old ones, of structures that were met, or new ones.
    · exact .inl (List.mem_cons_self ..)
    rcases List.mem_append.1 hq with hq | hq
    · have hbelow := h.below_registers hq
      exact .inr ⟨hbelow.1, hbelow.2.trans h.behind.grows⟩
    · rcases h.behind.registers q hq with hpart | ⟨hlt, hle⟩
      · exact .inl (List.mem_cons_of_mem _ hpart)
      · exact .inr ⟨h.le_below.trans_lt hlt, hle⟩
  nodup := h.registers_nodup
  names p hp x hx := by
    rcases List.mem_cons.1 hp with rfl | hp
    · rcases names_cases h.length hx with hx | ⟨p, hp, hx⟩
      · exact h.behind.code.subset (h.inner.code.subset (h.codes.names x hx))
      · exact h.behind.code.subset (h.inner.names p hp x hx)
    · exact h.behind.names p hp x hx
  bounded x hx := by
    have hps : ∀ y ∈ namesAll ps, ∃ p ∈ (.struct f ps, r) :: parts, y ∈ Pattern.names p.1 :=
      fun y hy => ⟨_, List.mem_cons_self .., hy⟩
    -- A name in the code is one that was known, one of a pattern, or a register.
    rcases h.behind.bounded x hx with hx | ⟨p, hp, hx⟩ | hx
    · rcases h.inner.bounded x hx with hx | ⟨p, hp, hx⟩ | hx
      · rcases h.codes.bounded x hx with hx | hx
        · exact .inl hx
        · rcases names_shallow hx with hx | hx
          · exact .inr (.inl (hps x hx))
          · obtain ⟨k, -, rfl⟩ := List.mem_map.1 hx
            exact .inr (.inr ⟨k, rfl⟩)
      · exact .inr (.inl (hps x (mem_namesAll.2 ⟨_, (mem_atPlaces hp).1, hx⟩)))
      · exact .inr (.inr hx)
    · exact .inr (.inl ⟨p, List.mem_cons_of_mem _ hp, hx⟩)
    · exact .inr (.inr hx)
  full hfull q hq := by
    have hps := hfull _ (List.mem_cons_self ..)
    rcases List.mem_cons.1 hq with rfl | hq
    · refine ⟨fun hnil => h.nonempty (List.length_eq_zero_iff.1 ?_), fullAll_shallow hps.2⟩
      exact h.length_shallow.symm.trans (congrArg List.length hnil)
    rcases List.mem_append.1 hq with hq | hq
    · exact h.inner.full (fun p hp => fullAll_iff.1 hps.2 _ (mem_atPlaces hp).1) q hq
    · exact h.behind.full (fun p hp => hfull p (List.mem_cons_of_mem _ hp)) q hq
  describes θ hθ p hp := by
    have hbelow := h.inner.describes θ fun q hq =>
      hθ q (List.mem_cons_of_mem _ (List.mem_append_left _ hq))
    rcases List.mem_cons.1 hp with rfl | hp
    -- An assignment that solves the equations describes the structure itself and everything below it.
    · obtain ⟨Ts, hnode, hTs⟩ := hθ _ (List.mem_cons_self ..)
      exact ⟨Ts, hnode, describesAll_of_shallow h.length hTs hbelow⟩
    · exact h.behind.describes θ (fun q hq =>
        hθ q (List.mem_cons_of_mem _ (List.mem_append_right _ hq))) p hp
  solves _ hθ := h.solves hθ

end DecodesStructure

/-- **The code of nested structures.** -/
theorem decodeNested_deep (K : Set Constant) (ts : List Term) (places : List (Option Nat)) :
    Term.AllProper ts → List.Forall₂ Placed ts places → List.Forall₂ Unplaced ts places →
    (places.filterMap id).Nodup → ∀ (own : Nat) (e : Emitter) (keys : Set String), e.Knows keys →
      (∀ r ∈ places.filterMap id, r ≤ e.registers) → (∀ x ∈ placeNames places, x ∈ keys) →
      ∃ qs keys', DecodesDeep K keys
          (atPlaces (Term.patterns e.compiler own e.constants ts).1 places) e
          ((decodeNested ts places).eval e) qs keys' ∧
        ((decodeNested ts places).eval e).2.constants =
          (Term.patterns e.compiler own e.constants ts).2 ∧
        ((decodeNested ts places).eval e).2.compiler = e.compiler := by
  fun_induction decodeNested ts places with
  | case1 name args attrs pos ts r rs ihBelow ihRest =>
    intro hts hplaced hunplaced hnodup own e keys hk hold hkeys
    obtain ⟨⟨-, hargs⟩, hts⟩ := hts
    cases hplaced with
    | cons hplace hplaced =>
    cases hunplaced with
    | cons _ hunplaced =>
    -- Only a structure with arguments has a register; first it is decoded, then what is below it, then
    -- the others.
    obtain ⟨_, a, as, _, _, hterm⟩ := hplace rfl
    obtain rfl : args = a :: as := by
      injection hterm
    simp only [List.filterMap_cons, id, List.nodup_cons] at hnodup
    have hplaces := decodeArgs_decodes (fun _ => true) false hargs e
    obtain ⟨keys₁, h₁⟩ := decodeArgs_shallow false hargs (e.constants + Term.atomics (a :: as)) hk
    simp only [eval_bind, eval_pure]
    generalize (decodeArgs false (a :: as)).eval e = d at hplaces h₁ ⊢
    obtain ⟨qs, keys₂, h₂, hconstants₂, hcompiler₂⟩ := ihBelow d.1.2 hargs hplaces.placed h₁.structs
      hplaces.nodup e.constants d.2 keys₁ h₁.knows (fun k hk => (hplaces.fresh k hk).2) h₁.registers
    generalize (decodeNested (a :: as) d.1.2).eval d.2 = b at h₂ hconstants₂ hcompiler₂ ⊢
    obtain ⟨qs', keys₃, h₃, hconstants₃, hcompiler₃⟩ := ihRest hts hplaced hunplaced hnodup.2 own b.2
      keys₂ h₂.knows
      (fun k hk => (hold k (List.mem_cons_of_mem _ hk)).trans (hplaces.grows.trans h₂.grows))
      (fun x hx => h₂.code.subset (h₁.codes.subset (hkeys x (List.mem_cons_of_mem _ hx))))
    generalize (decodeNested ts rs).eval b.2 = c at h₃ hconstants₃ hcompiler₃ ⊢
    -- The numbers of constants that the code gives out are those that the patterns have.
    rw [h₁.compiler, h₁.constants] at h₂ hconstants₂
    rw [hcompiler₂, h₁.compiler, hconstants₂] at h₃ hconstants₃
    have hpatterns : Term.patterns e.compiler own e.constants (.app name (a :: as) attrs pos :: ts) =
        (.struct name (Term.patterns e.compiler e.constants
            (e.constants + Term.atomics (a :: as)) (a :: as)).1 ::
          (Term.patterns e.compiler own (Term.patterns e.compiler e.constants
            (e.constants + Term.atomics (a :: as)) (a :: as)).2 ts).1,
          (Term.patterns e.compiler own (Term.patterns e.compiler e.constants
            (e.constants + Term.atomics (a :: as)) (a :: as)).2 ts).2) := by
      rw [Term.patterns]
    rw [hpatterns]
    have hinner := Term.patterns_names e.compiler e.constants
      (e.constants + Term.atomics (a :: as)) (a :: as) hargs
    have hcodes := h₁.codes
    have hlength := h₁.length
    generalize Term.patterns e.compiler e.constants (e.constants + Term.atomics (a :: as))
      (a :: as) = inner at hinner hcodes hlength h₂ h₃ hconstants₃ ⊢
    have hparts := Term.patterns_names e.compiler own inner.2 ts hts
    have harity : inner.1.length = (a :: as).length := hlength.trans hplaces.placed.length_eq.symm
    refine ⟨⟨r, name, inner.1.zipWith shallow d.1.2⟩ :: (qs ++ qs'), keys₃, ?_, hconstants₃,
      by rw [hcompiler₃, hcompiler₂, h₁.compiler]⟩
    rw [← harity]
    refine DecodesStructure.deep {
      register := hkeys _ (List.mem_cons_self ..)
      old := hold r (List.mem_cons_self ..)
      nonempty := fun hnil => by
        rw [hnil] at harity
        cases harity
      length := hlength
      codes := hcodes
      knows := h₁.knows
      grows := hplaces.grows
      nodup := hplaces.nodup
      fresh := hplaces.fresh
      names := hinner
      inner := h₂
      behind := h₃
      others := fun p hp => by
        obtain ⟨hmem, hplace⟩ := mem_atPlaces hp
        exact ⟨hold _ (List.mem_cons_of_mem _ hplace), fun heq => hnodup.1 (heq ▸ hplace),
          fun x hx => hparts x (mem_namesAll.2 ⟨_, hmem, hx⟩)⟩ } name
  | case2 t ts r rs hne ih =>
    intro hts hplaced hunplaced hnodup own e keys hk hold hkeys
    cases hplaced with
    | cons hplace hplaced =>
    cases hunplaced with
    | cons hstruct hunplaced =>
    -- Any other term has no register, so nothing is left to decode for it.
    obtain rfl : r = none := by
      cases r with
      | none => rfl
      | some k =>
        obtain ⟨name, a, as, attrs, pos, rfl⟩ := hplace rfl
        exact (hne name (a :: as) attrs pos k rfl rfl).elim
    cases t with
    | var x id =>
      rw [Term.patterns]
      exact ih hts.2 hplaced hunplaced hnodup own e keys hk hold hkeys
    | const a pos =>
      rw [Term.patterns]
      exact ih hts.2 hplaced hunplaced hnodup (own + 1) e keys hk hold hkeys
    | app f args attrs pos =>
      cases args with
      | nil =>
        rw [Term.patterns]
        exact ih hts.2 hplaced hunplaced hnodup (own + 1) e keys hk hold hkeys
      | cons a as => exact (hstruct rfl f a as attrs pos rfl).elim
    | absent => exact hts.1.elim
  | case3 ts places h₁ h₂ =>
    intro _ hplaced _ _ own e keys hk _ _
    obtain rfl : ts = [] := by
      cases hplaced with
      | nil => rfl
      | cons _ _ => exact (h₂ _ _ _ _ rfl rfl).elim
    rw [Term.patterns]
    exact ⟨[], keys, .nil K hk, rfl, rfl⟩

/-! ## §5. Heads. -/

/-- A head as a pattern, with its constants in the cells of its code. -/
def headPattern (name : String) (args : List Term) (e : Emitter) : Pattern :=
  .struct name (Term.patterns e.compiler e.constants (e.constants + Term.atomics args) args).1

/-- What ends the code of a head: a jump to the body or the return. -/
def headEnd (hasBody : Bool) : Instruction :=
  if hasBody then { op := .jump, label := bodyLabel } else { op := .proceed }

/-- The code of a head without arguments. -/
theorem decodeHead_nil (name : String) (hasBody : Bool) (e : Emitter) :
    ((decodeHead name [] hasBody).eval e).1 = [getStruct name 0 0, headEnd hasBody] := by
  simp [decodeHead, decodeArgs, decodeNested, headEnd]

/-- The head of a clause, as one structure in register 0. -/
private theorem decodeHead_equations_proper (K : Set Constant) (name : String) {args : List Term}
    (hasBody : Bool) (hargs : Term.AllProper args) (hne : args ≠ []) (hseen : e.seen = []) :
    ∃ out qs keys', ((decodeHead name args hasBody).eval e).1 = out.1 ++ [headEnd hasBody] ∧
      DecodesDeep K {structRegister 0} [(headPattern name args e, 0)] { e with registers := 0 } out qs
        keys' ∧ ((decodeHead name args hasBody).eval e).2 = out.2 ∧ out.2.compiler = e.compiler ∧
      out.2.constants = (Term.patterns e.compiler e.constants (e.constants + Term.atomics args) args).2 := by
  let e₀ : Emitter := { e with registers := 0 }
  have hk : e₀.Knows {structRegister 0} :=
    { seen := by simp [e₀, hseen]
      known := fun x hx => .inr ⟨0, le_rfl, hx⟩
      names := by simp [e₀, hseen] }
  -- The arguments are decoded first, and then the structures nested in them.
  have hplaces := decodeArgs_decodes (fun _ => true) true hargs e₀
  obtain ⟨keys₁, h₁⟩ := decodeArgs_shallow true hargs (e.constants + Term.atomics args) hk
  have hinner := Term.patterns_names e.compiler e.constants (e.constants + Term.atomics args) args hargs
  simp only [decodeHead, eval_bind, eval_clearRegisters, eval_pure]
  generalize (decodeArgs true args).eval e₀ = d at hplaces h₁ ⊢
  obtain ⟨qs, keys₂, h₂, hconstants₂, hcompiler₂⟩ := decodeNested_deep K args d.1.2 hargs
    hplaces.placed h₁.structs hplaces.nodup e.constants d.2 keys₁ h₁.knows
    (fun k hk => (hplaces.fresh k hk).2) h₁.registers
  generalize (decodeNested args d.1.2).eval d.2 = b at h₂ hconstants₂ hcompiler₂ ⊢
  rw [h₁.compiler, h₁.constants] at h₂ hconstants₂
  have hcodes := h₁.codes
  have hlength := h₁.length
  have harity := hlength.trans hplaces.placed.length_eq.symm
  -- Together they decode the structure in the goal's register.
  have h := DecodesStructure.deep (r := 0) {
    register := Set.mem_singleton _
    old := Nat.zero_le e₀.registers
    nonempty := fun hnil => hne (List.length_eq_zero_iff.1 (harity.symm.trans (congrArg List.length hnil)))
    length := hlength
    codes := hcodes
    knows := h₁.knows
    grows := hplaces.grows
    nodup := hplaces.nodup
    fresh := hplaces.fresh
    names := hinner
    inner := h₂
    behind := .nil K h₂.knows
    others := by simp } name
  refine ⟨_, _, keys₂, ?_, h, rfl, hcompiler₂.trans h₁.compiler, hconstants₂⟩
  rw [harity]
  simp [headEnd]

/-- Code does not depend on marks. -/
theorem decodeArgs_unmarkedAll (root : Bool) (ts : List Term) :
    decodeArgs root (Term.unmarkedAll ts) = decodeArgs root ts := by
  induction ts with
  | nil => rfl
  | cons t ts ih =>
    have harg : decodeArg root t.unmarked = decodeArg root t := by
      cases t with
      | app f args attrs pos => cases args <;> rfl
      | _ => rfl
    rw [Term.unmarkedAll, decodeArgs, decodeArgs, harg, ih]

/-- Marks do not change the code of nested structures. -/
theorem decodeNested_unmarkedAll (ts : List Term) (places : List (Option Nat)) :
    decodeNested (Term.unmarkedAll ts) places = decodeNested ts places := by
  fun_induction decodeNested ts places with
  | case1 name args attrs pos ts r rs ihBelow ihRest =>
    rw [Term.unmarkedAll, Term.unmarked, decodeNested, decodeArgs_unmarkedAll, ihRest,
      Term.length_unmarkedAll]
    simp only [ihBelow]
  | case2 t ts r rs hne ih =>
    rw [Term.unmarkedAll, decodeNested, ih]
    intro name args attrs pos k ht hr
    cases t with
    | app f as attrs' pos' => exact hne f as attrs' pos' k rfl hr
    | _ => cases ht
  | case3 ts places h₁ h₂ =>
    cases ts with
    | nil => simp [Term.unmarkedAll, decodeNested]
    | cons t ts =>
      cases places with
      | nil => simp [Term.unmarkedAll, decodeNested]
      | cons r rs => exact (h₂ _ _ _ _ rfl rfl).elim

/-- Marks do not change the code of a head. -/
theorem decodeHead_unmarkedAll (name : String) (args : List Term) (hasBody : Bool) :
    decodeHead name (Term.unmarkedAll args) hasBody = decodeHead name args hasBody := by
  simp only [decodeHead, decodeArgs_unmarkedAll, decodeNested_unmarkedAll, Term.length_unmarkedAll]

/-- **The code of a head is that of equations whose solutions are the trees that the head
    describes.** -/
theorem decodeHead_equations (K : Set Constant) (name : String) {args : List Term} (hasBody : Bool)
    (hargs : Term.AllNamed args) (hne : args ≠ []) (hseen : e.seen = []) :
    ∃ out qs keys', ((decodeHead name args hasBody).eval e).1 = out.1 ++ [headEnd hasBody] ∧
      DecodesDeep K {structRegister 0} [(headPattern name args e, 0)] { e with registers := 0 } out qs
        keys' := by
  have hpattern : headPattern name (Term.unmarkedAll args) e = headPattern name args e := by
    rw [headPattern, headPattern, Term.patterns_unmarkedAll, Term.atomics_unmarkedAll]
  have hne' : Term.unmarkedAll args ≠ [] := fun hnil => hne (by
    rw [← List.length_eq_zero_iff, ← Term.length_unmarkedAll, hnil, List.length_nil])
  rw [← decodeHead_unmarkedAll, ← hpattern]
  obtain ⟨out, qs, keys', hcode, hdeep, -⟩ :=
    decodeHead_equations_proper K name hasBody hargs.proper hne' hseen
  exact ⟨out, qs, keys', hcode, hdeep⟩

/-- What the code of a head leaves to the body: the names in the head have occurred, and constants are
    counted. -/
structure HeadEmitted (name : String) (args : List Term) (e e' : Emitter) : Prop where
  /-- The names that have occurred. -/
  seen : ∀ x, x ∈ e'.seen ↔ x ∈ (headPattern name args e).names
  /-- Constants have one owner. -/
  compiler : e'.compiler = e.compiler
  /-- They are counted. -/
  constants : e'.constants = (Term.patterns e.compiler e.constants (e.constants + Term.atomics args) args).2

/-- **Behind the code of a head the names in it have occurred.** -/
theorem decodeHead_emitted (name : String) {args : List Term} (hasBody : Bool)
    (hargs : Term.AllNamed args) (hseen : e.seen = []) :
    HeadEmitted name args e ((decodeHead name args hasBody).eval e).2 := by
  -- A head without arguments has no structure to decode.
  by_cases hne : args = []
  · subst hne
    have heval : ((decodeHead name [] hasBody).eval e).2 = { e with registers := 0 } := by
      simp [decodeHead, decodeArgs, decodeNested]
    rw [heval]
    exact ⟨fun x => by simp [hseen, headPattern, Pattern.names, Pattern.namesAll, Term.patterns], rfl,
      by simp [Term.patterns, Term.atomics]⟩
  · have hpattern : headPattern name (Term.unmarkedAll args) e = headPattern name args e := by
      rw [headPattern, headPattern, Term.patterns_unmarkedAll, Term.atomics_unmarkedAll]
    have hne' : Term.unmarkedAll args ≠ [] := fun hnil => hne (by
      rw [← List.length_eq_zero_iff, ← Term.length_unmarkedAll, hnil, List.length_nil])
    obtain ⟨out, qs, keys', -, hdeep, hout, hcompiler, hconstants⟩ :=
      decodeHead_equations_proper (e := e) ∅ name hasBody hargs.proper hne' hseen
    rw [Term.patterns_unmarkedAll, Term.atomics_unmarkedAll] at hconstants
    rw [hpattern] at hdeep
    have hnames : ∀ x ∈ (headPattern name args e).names, isRegister x = false := by
      rw [← hpattern]
      exact Term.patterns_names _ _ _ _ hargs.proper
    have hregister : ∀ {x r}, isRegister x = false → x ≠ structRegister r := fun hx =>
      ne_structRegister (isStructRegister_of_not_isRegister hx) _
    rw [← decodeHead_unmarkedAll, hout]
    refine ⟨fun x => ⟨fun hx => ?_, fun hx => ?_⟩, hcompiler, hconstants⟩
    · have hname := hdeep.knows.names x hx
      -- A name that was seen is a variable, so it comes from the pattern of the head.
      rcases hdeep.bounded x (hdeep.knows.seen x hx) with hx | ⟨p, hp, hx⟩ | ⟨r, hx⟩
      · exact (hregister hname hx).elim
      · obtain rfl := List.mem_singleton.1 hp
        exact hx
      · exact (hregister hname hx).elim
    · rcases hdeep.knows.known x (hdeep.names _ (List.mem_singleton_self _) x hx) with hx' | ⟨r, -, hx'⟩
      · exact hx'
      · exact (hregister (hnames x hx) hx').elim

/-- The names in a head are no registers. -/
theorem headPattern_names (name : String) {args : List Term} (hargs : Term.AllNamed args) :
    ∀ x ∈ (headPattern name args e).names, isRegister x = false := by
  rw [headPattern, ← Term.patterns_unmarkedAll]
  exact Term.patterns_names _ _ _ _ hargs.proper

/-- In a head with arguments every functor has arguments. -/
theorem headPattern_full {K : Set Constant} (name : String) {args : List Term}
    (hargs : Term.AllNamed args) (hne : args ≠ [])
    (hK : ∀ c ∈ (headPattern name args e).constants, c ∈ K) : (headPattern name args e).Full K := by
  obtain ⟨hfull, hlength⟩ := Term.patterns_full e.compiler e.constants
    (e.constants + Term.atomics args) args hargs hK
  refine ⟨fun hnil => hne ?_, hfull⟩
  rw [← List.length_eq_zero_iff, ← hlength, hnil, List.length_nil]

end PrologMachine
