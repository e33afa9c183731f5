/-
  PrologMachine.Proofs.Resolution.Answers ── **WHAT AN ANSWER SAYS.**

  A success leaf says which trees the variables of the question can have: those of the trees that make
  the two parts of each unified pair one.  An answer of a machine says it by the values of the variables
  on the heap.  Values that say the same are the same up to a renaming of unbound variables and up to
  equality of constants.

    * `Resolvent.Yields`: the values of names say what a resolvent says; `Resolvent.Yields.alike`.
    * `Machine.answers`: the values of the variables of the question.
    * `Stage.yields`: at its end a resolvent yields them.
-/
import PrologMachine.Proofs.Resolution.Stages

namespace PrologMachine

open Machine Heap

/-! ## §1. Values that say what a resolvent says. -/

namespace Resolvent

variable {K : Set Constant} {names : Set String} {r : Resolvent} {c c' : Scope}

/-- Trees fit the values of the names in the scope exactly when they are the trees that some solution
    of what was unified gives the names of the question. -/
structure Yields (K : Set Constant) (names : Set String) (r : Resolvent) (c : Scope) : Prop where
  /-- The names have values in a plain part of the heap. -/
  values : ∃ Q, c.heap.PlainOn K Q ∧ ∀ x ∈ names, ∃ t, c.env x = some t ∧ c.heap.Inside Q t
  /-- Solutions are what fits. -/
  fits : ∀ θ : Assignment, (∃ Θ, Unifies K Θ r.unified ∧ ∀ x ∈ names, Θ 0 x = θ x) ↔
    ∃ ρ θ', c.Models K ρ θ' ∧ ∀ x ∈ names, θ' x = θ x

theorem Yields.covers (h : r.Yields K names c) (h' : r.Yields K names c') :
    Scope.Covers K (Sum.inr '' names) c c' := by
  intro ρ θ hm
  have hsolved := (h.fits θ).2 ⟨ρ, θ, hm, fun _ _ => rfl⟩
  obtain ⟨ρ', θ', hm', hagree⟩ := (h'.fits θ).1 hsolved
  refine ⟨ρ', θ', hm', fun v hv => ?_, fun x hx => ?_⟩
  · obtain ⟨_, -, heq⟩ := hv
    cases heq
  · obtain ⟨y, hy, heq⟩ := hx
    obtain rfl := Sum.inr.inj heq
    exact hagree y hy

/-- **Values that say the same are the same**, up to a renaming of variables and up to equality of
    constants. -/
theorem Yields.alike (hK : EqualOn K) (h : r.Yields K names c) (h' : r.Yields K names c') :
    Scope.Alike (Sum.inr '' names) c c' := by
  obtain ⟨Q, hplain, hvalues⟩ := h.values
  obtain ⟨Q', hplain', hvalues'⟩ := h'.values
  refine Scope.alike_of_covers hK hplain hplain' ?_ ?_ (h.covers h') (h'.covers h)
  · rintro i ⟨x, hx, rfl⟩
    exact hvalues x hx
  · rintro i ⟨x, hx, rfl⟩
    exact hvalues' x hx

end Resolvent

/-! ## §2. The values at an answer. -/

namespace Machine

variable {m : Machine} {x : String} {v : VarId}

/-- The values of the named variables of the question. -/
def answers (m : Machine) : Scope := ⟨fun x => (m.queryVars.lookup x).map Value.var, m.heap⟩

/-- A variable of the query frame is a variable of the question. -/
theorem answers_env (hname : isRegister x = false ∧ isAnonymous x = false)
    (h : (m.frame queryFrame).get? x = some (.var v)) : m.answers.env x = some (.var v) := by
  have hlookup : m.queryVars.lookup x = some v := by
    rw [Frame.get?] at h
    rw [queryVars]
    generalize (m.frame queryFrame).vars = vars at h
    induction vars with
    | nil => cases h
    | cons e vars ih =>
      obtain ⟨y, t⟩ := e
      rw [List.lookup_cons] at h
      by_cases hy : x = y
      · subst hy
        simp only [beq_self_eq_true] at h
        obtain rfl := Option.some.inj h
        simp [hname.1, hname.2]
      · have hne : (x == y) = false := beq_false_of_ne hy
        simp only [hne] at h
        -- The entry is left out, or it stands in front with another name.
        rw [List.filterMap_cons]
        split
        · exact ih h
        · next e' he' =>
          have hkey : e'.1 = y := by
            dsimp only at he'
            split at he'
            · cases he'
            · split at he'
              · obtain rfl := Option.some.inj he'
                rfl
              · cases he'
          rw [← hkey] at hne
          obtain ⟨z, u⟩ := e'
          rw [List.lookup_cons, hne]
          exact ih h
  exact congrArg (Option.map Value.var) hlookup

end Machine

section

variable {K : Set Constant} {P : List Rule} {names : Set String} {r : Resolvent} {fs : List FrameId}
  {env : Copies} {xs : List Choice} {m : Machine}

/-- **When no goals are left, the values of the variables say what was unified.** -/
theorem Stage.yields (h : Stage K P names r fs env xs m) (hgoals : r.goals = [])
    (hnames : ∀ x ∈ names, isRegister x = false ∧ isAnonymous x = false) :
    r.Yields K names m.answers := by
  obtain ⟨Q, hstore⟩ := h.store
  have hvalue : ∀ x ∈ names, ∃ v, env 0 x = some (.var v) ∧ m.answers.env x = some (.var v) := by
    intro x hx
    obtain ⟨t, ht⟩ : ∃ t, env 0 x = some t := by
      rcases h.context.named x hx with hsome | ⟨p, hp, -⟩
      · exact Option.isSome_iff_exists.1 hsome
      · rw [hgoals] at hp
        cases hp
    obtain ⟨v, rfl⟩ := h.context.cells x t ht
    exact ⟨v, ht, answers_env (hnames x hx) (h.held 0 queryFrame x _ h.context.root ht)⟩
  refine ⟨⟨Q, hstore.plain, fun x hx => ?_⟩, fun θ => ⟨?_, ?_⟩⟩
  · obtain ⟨v, hv, hanswer⟩ := hvalue x hx
    exact ⟨_, hanswer, hstore.values 0 x _ hv⟩
  · rintro ⟨Θ, hΘ, hagree⟩
    obtain ⟨ρ, hf⟩ := (hstore.fits Θ).1 hΘ
    obtain ⟨θ', hm⟩ := Scope.exists_models (c := m.answers) (K := K) (ρ := ρ) hf.respects
    refine ⟨ρ, θ', hm, fun x hx => ?_⟩
    obtain ⟨v, hv, hanswer⟩ := hvalue x hx
    calc θ' x = m.heap.tree K ρ (.var v) := (hm.names x _ hanswer).symm
      _ = Θ 0 x := hf.names 0 x _ hv
      _ = θ x := hagree x hx
  · rintro ⟨ρ, θ', hm, hagree⟩
    refine ⟨fun k x => ((env k x).map (m.heap.tree K ρ)).getD default, (hstore.fits _).2 ⟨ρ, hm.respects, ?_⟩,
      fun x hx => ?_⟩
    · intro k x t ht
      simp only [ht, Option.map_some, Option.getD_some]
    · obtain ⟨v, hv, hanswer⟩ := hvalue x hx
      simp only [hv, Option.map_some, Option.getD_some]
      exact (hm.names x _ hanswer).trans (hagree x hx)

end

end PrologMachine
