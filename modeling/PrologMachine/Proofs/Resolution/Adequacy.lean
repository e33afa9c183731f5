/-
  PrologMachine.Proofs.Resolution.Adequacy ── **THE MACHINE RESOLVES.**

  A program of facts and rules is compiled and inserted, and a question is compiled and set.  Runs and
  requests for the next answer then report the success leaves of a depth-first search, one by one and in
  order, and they report the end when its tree is finite and all of its leaves were reported.

    * `constantsOf`, `namesOf`: the constants of a program and a question, the variables of a question.
    * `Adequate`: what the machine reports is what the search finds.
    * `resolution_adequate` is the main statement.
-/
import PrologMachine.Proofs.Resolution.Programs
import PrologMachine.Proofs.Resolution.Traversal

namespace PrologMachine

open Machine
open Heap (EqualOn)
open Resolvent (root)

/-! ## §1. Programs and questions. -/

/-- The constants of a program and a question. -/
def constantsOf (P : List Rule) (goals : List Pattern) : Set Constant :=
  {c | (∃ R ∈ P, c ∈ R.head.constants ∨ ∃ p ∈ R.body, c ∈ p.constants) ∨ ∃ p ∈ goals, c ∈ p.constants}

/-- The named variables of a question. -/
def namesOf (goals : List Pattern) : Set String := {x | ∃ p ∈ goals, x ∈ p.names}

/-- What the machine reports is what a depth-first search for the goals finds. -/
structure Adequate (P : List Rule) (goals : List Pattern) (w : World) (m : Machine) : Prop where
  /-- There is an answer of each number for which there is a success leaf. -/
  answers : ∀ n, (∃ m', Reports w m n .answer m') ↔ ∃ a, NthLeaf (constantsOf P goals) P (root goals) n a
  /-- The values of the variables say what the leaf says. -/
  yields : ∀ n m' a, Reports w m n .answer m' → NthLeaf (constantsOf P goals) P (root goals) n a →
    a.Yields (constantsOf P goals) (namesOf goals) m'.answers
  /-- They are the same as all values that say it, up to a renaming of variables and equality of
      constants. -/
  alike : ∀ n m' a c, Reports w m n .answer m' → NthLeaf (constantsOf P goals) P (root goals) n a →
    a.Yields (constantsOf P goals) (namesOf goals) c → Scope.Alike (Sum.inr '' namesOf goals) m'.answers c
  /-- The end is reported after as many answers as a finite tree has success leaves. -/
  ends : ∀ n, (∃ m', Reports w m n .exhausted m') ↔
    ∃ as, Leaves (constantsOf P goals) P (root goals) as ∧ as.length = n

/-! ## §2. The beginning of the search. -/

section

variable {kb kb' : KnowledgeBase} {ts : List Term} {P : List Rule} {goals : List Pattern} {w : World}
  {m : Machine} {c : Compiler} {t : Term} {q : Clause} {n : Nat}

/-- Goals of the program as the compiler passes them may be called. -/
theorem Pattern.Shaped.callable {K : Set Constant} {p : Pattern} (h : p.Shaped) (hdefined : p.Defined P)
    (hconstants : ∀ c ∈ p.constants, c ∈ K) : p.Callable K P :=
  ⟨hdefined, hconstants, h.args, h.names⟩

/-- A question without auxiliary clauses is all that is set. -/
theorem KnowledgeBase.setQuery_alone (hquery : q.isQuery = true) (hnone : q.auxiliaries = []) :
    kb.setQuery (some q) = (none, { kb with user := kb.user.put querySignature [q] }) := by
  have hdescendants : q.descendants = [] := by
    obtain ⟨_, _, _, aux⟩ := q
    obtain rfl : aux = [] := hnone
    rfl
  simp only [setQuery, hquery, hdescendants, ClauseStore.replaceAll]
  rfl

/-- **The machine works with the code of the program.** -/
theorem Consults.serves (h : Consults kb ts P kb') (hnew : ∀ R ∈ P, kb.user.clauses R.signature = [])
    (hbodies : ∀ R ∈ P, ∀ p ∈ R.body, p.Defined P) (hequal : EqualOn (constantsOf P goals))
    (hw : Equipped { kb' with user := kb'.user.put querySignature [q] } w) (hunlimited : w.maxSteps ≤ 0) :
    Serves (constantsOf P goals) P { kb' with user := kb'.user.put querySignature [q] } w where
  equipped := hw
  unlimited := hunlimited
  equal := hequal
  clauses s hs hne := by
    -- The clauses of a signature stand in for its rules.
    obtain ⟨cs, hcs, hall⟩ := h.clauses s
    obtain ⟨R, hmem⟩ := List.exists_mem_of_ne_nil _ hne
    obtain ⟨hR, rfl⟩ : R ∈ P ∧ R.signature = s := by simpa [candidates] using hmem
    rw [hnew R hR, List.nil_append] at hcs
    refine ⟨cs, ?_, hall⟩
    -- The query has a signature of its own.
    have hclauses : (kb'.user.put querySignature [q]).clauses R.signature = cs := by
      rw [ClauseStore.clauses_put, if_neg hs, hcs]
    have hcons : cs ≠ [] := by
      rintro rfl
      exact hne (List.forall₂_nil_left_iff.1 hall)
    rw [hw.base, KnowledgeBase.get, ClauseStore.get, hclauses]
    cases cs with
    | nil => exact absurd rfl hcons
    | cons c cs => rfl
  structs R hR := by
    obtain ⟨cl, name, args, hasBody, e, hc⟩ := h.implements R hR
    exact ⟨_, _, hc.head⟩
  heads R hR c hc := .inl ⟨R, hR, .inl hc⟩
  bodies R hR p hp := by
    obtain ⟨cl, himplements⟩ := h.implements R hR
    exact (himplements.shaped p hp).callable (hbodies R hR p hp) fun c hc => .inl ⟨R, hR, .inr ⟨p, hp, hc⟩⟩

/-- **A machine that was asked the question stands at the root of the search.** -/
theorem Ready.posed {K : Set Constant} {code : Code} (hblock : q.block? bodyLabel = some code)
    (hchain : Chain { op := .end_ } c.id [] n goals code) (hcallable : ∀ p ∈ goals, p.Callable K P)
    (hgood : m.heap.Good) : Ready K P (namesOf goals) w [root goals] (m.posed q) := by
  -- The question waits for its goals, and nothing is known of its variables.
  have hstage : Stage K P (namesOf goals) (root goals) [queryFrame] (fun _ _ => none) [] (m.posed q) :=
    { context :=
        { copies := rfl
          fresh := fun _ _ _ => rfl
          nodup := List.nodup_singleton _
          root := rfl
          callable := fun g hg => by
            obtain ⟨p, hp, rfl⟩ := List.mem_map.1 hg
            exact hcallable p hp
          named := fun x ⟨p, hp, hx⟩ => .inr ⟨p, List.mem_map_of_mem hp, hx⟩
          cells := fun _ _ => nofun }
      store := ⟨_, Store.initial hgood fun _ _ => rfl⟩
      held := fun _ _ _ _ _ => nofun
      quiet := fun f _ => by rw [frame_posed]
      bounded := fun f hf => by
        obtain rfl := List.mem_singleton.1 hf
        exact Nat.zero_lt_one
      pending := .nil
      depth := rfl
      bottom := rfl
      active := ⟨rfl, rfl, rfl, rfl⟩
      success := rfl }
  -- The machine stands in front of the code for the goals.
  refine .here hstage (@Control.chain _ _ _ _ q bodyLabel 0 0 { op := .end_ } goals [] ⟨rfl, rfl, rfl⟩ ?_ rfl
    (.query rfl) ?_)
  · exact ⟨code, code, c.id, n, [], hblock, ⟨[], (List.append_nil _).symm⟩, hchain, fun x => by simp⟩
  · rw [List.append_nil]
    rfl

/-! ## §3. Adequacy. -/

/-- **The machine resolves.**  The terms `ts` were compiled and inserted in order, as the rules `P`, and the
    question `t` asks for the goals.  Bodies and the question call predicates of the program only.  Then
    the question can be set, and the machine, driven by runs without a limit and by requests for the next
    answer, reports what a depth-first search from left to right finds, whose clauses are taken in order
    and which unifies without an occurs check.

    Equality of the constants that occur is an equivalence; otherwise it depends on the order of the
    comparisons which terms are unified. -/
theorem resolution_adequate {kb₀ : KnowledgeBase} {k : Nat}
    (hkb : Furnished (fun _ => True) kb) (hprogram : Consults kb ts P kb')
    (hnew : ∀ R ∈ P, kb.user.clauses R.signature = []) (hbodies : ∀ R ∈ P, ∀ p ∈ R.body, p.Defined P)
    (hterm : t.Written) (hgoals : c.goals? t = some goals) (hquery : (c.query t).1 = .ok q)
    (hdefined : ∀ p ∈ goals, p.Defined P) (hequal : EqualOn (constantsOf P goals)) (hsearch : Search kb₀ k m) :
    ∃ kb'' m', m.ask kb' (some q) = (none, kb'', m') ∧
      ∀ w, Equipped kb'' w → w.maxSteps ≤ 0 → Adequate P goals w m' := by
  obtain ⟨hisQuery, hnone, code, hblock, hchain⟩ := Compiler.query_chain hterm.proper hgoals hquery
  have hask : m.ask kb' (some q) = (none, { kb' with user := kb'.user.put querySignature [q] }, m.posed q) := by
    simp only [Machine.ask, KnowledgeBase.setQuery_alone hisQuery hnone]
    rfl
  refine ⟨_, _, hask, fun w hw hunlimited => ?_⟩
  have hsearch' := Search.ask hsearch (hprogram.furnished hkb) ⟨c, t, hterm, trivial, hquery⟩ hask
  have hserves := hprogram.serves hnew hbodies hequal hw hunlimited
  have hcallable : ∀ p ∈ goals, p.Callable (constantsOf P goals) P := fun p hp =>
    (hchain.shaped p hp).callable (hdefined p hp) fun c hc => .inr ⟨p, hp, hc⟩
  have hnames : ∀ x ∈ namesOf goals, isRegister x = false ∧ isAnonymous x = false := by
    rintro x ⟨p, hp, hx⟩
    exact (hchain.shaped p hp).names x hx
  have hready := Ready.posed (w := w) hblock hchain hcallable hsearch.standing.good
  have hdue : Due (constantsOf P goals) P (namesOf goals) w [root goals] (m.posed q) := .ready (.refl _) hready
  have hanswers := fun n => hdue.reports_answer (k := n) hserves hnames hsearch'
  have hyields : ∀ n m' a, Reports w (m.posed q) n .answer m' →
      NthLeaf (constantsOf P goals) P (root goals) n a →
      a.Yields (constantsOf P goals) (namesOf goals) m'.answers := fun n m' a hreports ha =>
    (hanswers n).2 m' a hreports (leaf_singleton.2 ha)
  refine ⟨fun n => ?_, hyields, fun n m' a c' hreports ha hc => ?_, fun n => ?_⟩
  · simpa only [leaf_singleton] using (hanswers n).1
  · exact (hyields n m' a hreports ha).alike hequal hc
  · simpa only [leaves_singleton] using hdue.reports_exhausted (k := n) hserves hnames hsearch'

end

/-- Binary trees: `tree(leaf).` and `tree(node(L, R)) :- tree(L), tree(R).` -/
def binaryTrees : List Rule :=
  [⟨.struct "tree" [.const ⟨.atom "leaf", .code 0 0⟩], []⟩,
    ⟨.struct "tree" [.struct "node" [.var "L", .var "R"]],
      [.struct "tree" [.var "L"], .struct "tree" [.var "R"]]⟩]

/-- The question `tree(X), tree(Y).` -/
def twoTrees : List Pattern := [.struct "tree" [.var "X"], .struct "tree" [.var "Y"]]

/-- The question `tree(X), tree(Y).` lists pairs of them. -/
theorem resolution_adequate_trees : ∃ (ts : List Term) (kb kb' : KnowledgeBase) (q : Clause) (m : Machine),
    Consults {} ts binaryTrees kb ∧ ({} : Machine).ask kb (some q) = (none, kb', m) ∧
      ∀ w, Equipped kb' w → w.maxSteps ≤ 0 → Adequate binaryTrees twoTrees w m := by
  -- The texts are read.
  have hleaf : readClause {} "tree(leaf)." 0 = .ok (.app "tree" [.const (.atom "leaf") 5] .none 0) := by
    with_unfolding_all rfl
  have hnode : readClause {} "tree(node(L, R)) :- tree(L), tree(R)." 0 = .ok (.app "rule"
      [.app "tree" [.app "node" [.var "L" 0, .var "R" 0] .none 5] .none 0,
        .app "conj" [.app "tree" [.var "L" 0] .none 20, .app "tree" [.var "R" 0] .none 29] .none 27]
      .none 17) := by
    with_unfolding_all rfl
  have hquestion : readClause {} "tree(X), tree(Y)." 0 = .ok (.app "conj"
      [.app "tree" [.var "X" 0] .none 0, .app "tree" [.var "Y" 0] .none 9] .none 7) := by
    with_unfolding_all rfl
  -- They are the two rules and the goals.
  have hcall (x : String) (pos : Int) : (Term.app "tree" [.var x 0] .none pos).calls? =
      some [⟨"tree", [.var x 0], .none, pos⟩] := by
    simp [Term.calls?, Goal.ofTerm, Goal.isControl, Attrs.has, Attrs.none, Attrs.primitive]
  have hpattern {x : String} (hx : isAnonymous x = false) (compiler n : Nat) (pos : Int) :
      Goal.pattern compiler n ⟨"tree", [.var x 0], .none, pos⟩ = .struct "tree" [.var x] := by
    simp [Goal.pattern, Term.builtPatterns, Term.nestedPatterns, Term.argPatterns, Term.leafPattern, hx]
  have hrule : ({} : Compiler).rule? (.app "tree" [.const (.atom "leaf") 5] .none 0) =
      some ⟨.struct "tree" [.const ⟨.atom "leaf", .code 0 0⟩], []⟩ := by
    rw [Compiler.rule?_fact rfl (by simp) (by simp)]
    simp [headPattern, Term.patterns, Compiler.emitter]
  have hrule' : ({} : Compiler).rule? (.app "rule"
      [.app "tree" [.app "node" [.var "L" 0, .var "R" 0] .none 5] .none 0,
        .app "conj" [.app "tree" [.var "L" 0] .none 20, .app "tree" [.var "R" 0] .none 29] .none 27] .none 17) =
      some ⟨.struct "tree" [.struct "node" [.var "L", .var "R"]],
        [.struct "tree" [.var "L"], .struct "tree" [.var "R"]]⟩ := by
    have hL : isAnonymous "L" = false := by decide
    have hR : isAnonymous "R" = false := by decide
    rw [Compiler.rule?_rule rfl (by simp), Term.calls?, hcall, hcall]
    simp [headPattern, Term.patterns, Compiler.emitter, Goal.patterns, hpattern hL, hpattern hR, hL, hR]
  have hgoals : ({} : Compiler).goals? (.app "conj"
      [.app "tree" [.var "X" 0] .none 0, .app "tree" [.var "Y" 0] .none 9] .none 7) = some twoTrees := by
    have hX : isAnonymous "X" = false := by decide
    have hY : isAnonymous "Y" = false := by decide
    rw [Compiler.goals?_conj, hcall, hcall]
    simp [Goal.patterns, hpattern hX, hpattern hY, twoTrees]
  obtain ⟨q, hq⟩ : ∃ q, (({} : Compiler).query (.app "conj"
      [.app "tree" [.var "X" 0] .none 0, .app "tree" [.var "Y" 0] .none 9] .none 7)).1 = .ok q :=
    ⟨_, by with_unfolding_all rfl⟩
  -- The clauses are inserted.
  obtain ⟨cl, hcl⟩ := Compiler.exists_clause hrule
  obtain ⟨cl', hcl'⟩ := Compiler.exists_clause hrule'
  have hwritten : Term.Written _ := .inl ⟨_, _, _, hleaf⟩
  have hwritten' : Term.Written _ := .inl ⟨_, _, _, hnode⟩
  obtain ⟨himplements, hnone⟩ := Compiler.clause_implements hwritten.proper hrule hcl
  obtain ⟨himplements', hnone'⟩ := Compiler.clause_implements hwritten'.proper hrule' hcl'
  have hinsert := himplements.insertUser_error {} hnone (by simp [Rule.signature, Pattern.signature]) rfl
  have hinsert' := himplements'.insertUser_error (({} : KnowledgeBase).insertUser cl.signature (some cl)).base
    hnone' (by simp [Rule.signature, Pattern.signature]) (by rw [KnowledgeBase.builtin_insertUser]; rfl)
  have hprogram : Consults {} _ binaryTrees _ :=
    .cons hwritten hrule hcl hinsert (.cons hwritten' hrule' hcl' hinsert' .nil)
  -- The calls are calls of the program, and there is one constant.
  have hdefined : ∀ x, (Pattern.struct "tree" [.var x]).Defined binaryTrees := fun x =>
    ⟨by simp [candidates, binaryTrees, Rule.signature, Pattern.signature],
      by simp [Pattern.signature, querySignature, queryFunctor]⟩
  have hbodies : ∀ R ∈ binaryTrees, ∀ p ∈ R.body, p.Defined binaryTrees := by
    intro R hR p hp
    have hcalled : ∃ x, p = .struct "tree" [.var x] := by
      simp only [binaryTrees, List.mem_cons, List.not_mem_nil, or_false] at hR
      rcases hR with rfl | rfl
      · exact absurd hp List.not_mem_nil
      · simp only [List.mem_cons, List.not_mem_nil, or_false] at hp
        exact hp.elim (⟨_, ·⟩) (⟨_, ·⟩)
    obtain ⟨x, rfl⟩ := hcalled
    exact hdefined x
  have hconstant : ∀ c ∈ constantsOf binaryTrees twoTrees, c = ⟨.atom "leaf", .code 0 0⟩ := by
    simp [constantsOf, binaryTrees, twoTrees, Pattern.constants, Pattern.constantsAll]
  have hequal : EqualOn (constantsOf binaryTrees twoTrees) :=
    ⟨fun c hc d hd h => by rwa [hconstant c hc, hconstant d hd] at h ⊢,
      fun c hc d hd e he h _ => by rwa [hconstant e he, ← hconstant d hd]⟩
  have hsearch : Search {} 0 {} := .new {}
  obtain ⟨kb', m, hask, hadequate⟩ := resolution_adequate .empty hprogram (fun _ _ => rfl)
    hbodies (.inl ⟨_, _, _, hquestion⟩) hgoals hq (by simp [twoTrees, hdefined]) hequal hsearch
  exact ⟨_, _, kb', q, m, hprogram, hask, hadequate⟩

end PrologMachine
