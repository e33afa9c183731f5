/-
  PrologMachine.Proofs.Library.Splits ── **QUESTIONS TO `append`.**

  In a session with the library, `append(X, Y, Zs)` with a list of ground terms has one answer for each
  way to split the list, and none besides.

    * `isAppend_of_compiled`: the clauses of the library.
    * `Machine.append_called`: the question comes to its call.
    * `Session.append_splits` is the main statement.
-/
import PrologMachine.Proofs.Library.Append
import PrologMachine.Proofs.Session.Answers
import PrologMachine.Proofs.Session.Libraries
import PrologMachine.Proofs.Session.Questions

namespace PrologMachine

open Machine Term

/-! ## §1. The library. -/

/-- The fact, as it is read. -/
def appendFactTerm : Term := .app "append" [.const .nil (-1), .var "L" 0, .var "L" 0] .none 1

/-- The rule, as it is read. -/
def appendRuleTerm : Term :=
  .app "rule" [.app "append" [cons (.var "H" 0) (.var "T" 0), .var "L" 0,
      cons (.var "H" 0) (.var "R" 0)] .none 19,
    .app "append" [.var "T" 0, .var "L" 0, .var "R" 0] .none 46] .none 43

/-- The text of the library has two clauses. -/
theorem read_append : readProgram {} Library.append.source 0 =
    .ok [appendFactTerm, appendRuleTerm] := by
  with_unfolding_all rfl

/-- What a compiler makes of the fact. -/
theorem clause_appendFact (c : Compiler) : ∃ k : Constant, k.value = .nil ∧
    (c.clause appendFactTerm).1 =
      .ok ⟨⟨"append", 3⟩, [(headLabel, appendFact k)], false, []⟩ := by
  refine ⟨⟨.nil, .code c.id c.constants⟩, rfl, ?_⟩
  have hL : isAnonymous "L" = false := by decide
  simp [Compiler.clause, appendFactTerm, splitClause, headOf, Compiler.emit, clauseOf, decodeHead,
    decodeArgs, decodeArg, decodeVar, decodeConst, decodeNested, hL]
  rfl

/-- What a compiler makes of the rule. -/
theorem clause_appendRule (c : Compiler) : ∃ e op, (op = .call ∨ op = .bcall) ∧
    e.seen = ["R", "T", "H", "L"] ∧ (c.clause appendRuleTerm).1 =
      .ok ⟨⟨"append", 3⟩, [(headLabel, appendHead),
        (bodyLabel, callCode appendGoal e op ++ [{ op := .proceed }])], false, []⟩ := by
  have hhead : (decodeHead "append" [cons (.var "H" 0) (.var "T" 0), .var "L" 0,
      cons (.var "H" 0) (.var "R" 0)] true).eval { compiler := c.id, constants := c.constants } =
      (appendHead, { compiler := c.id, constants := c.constants, seen := ["R", "T", "H", "L"]
                     registers := 2 }) := by
    have hnamed : isAnonymous "H" = false ∧ isAnonymous "T" = false ∧ isAnonymous "L" = false ∧
        isAnonymous "R" = false := by decide
    simp [decodeHead, decodeArgs, decodeArg, decodeVar, decodeNested, cons, hnamed]
    rfl
  exact c.clause_call rfl hhead

/-- The code of the first clause. -/
theorem compiled_appendFact {q : Clause} (h : Clause.CompiledFrom appendFactTerm q) :
    ∃ k : Constant, k.value = .nil ∧
      q = ⟨⟨"append", 3⟩, [(headLabel, appendFact k)], false, []⟩ := by
  obtain ⟨c, hc⟩ := h
  obtain ⟨k, hk, hclause⟩ := clause_appendFact c
  exact ⟨k, hk, Except.ok.inj (hc.symm.trans hclause)⟩

/-- The code of the second clause. -/
theorem compiled_appendRule {q : Clause} (h : Clause.CompiledFrom appendRuleTerm q) :
    ∃ e op, (op = .call ∨ op = .bcall) ∧ e.seen = ["R", "T", "H", "L"] ∧
      q = ⟨⟨"append", 3⟩, [(headLabel, appendHead),
        (bodyLabel, callCode appendGoal e op ++ [{ op := .proceed }])], false, []⟩ := by
  obtain ⟨c, hc⟩ := h
  obtain ⟨e, op, hop, hseen, hclause⟩ := clause_appendRule c
  exact ⟨e, op, hop, hseen, Except.ok.inj (hc.symm.trans hclause)⟩

theorem append_accepts : Session.Accepts [appendFactTerm, appendRuleTerm] := by
  intro t ht
  rcases List.mem_pair.1 ht with rfl | rfl
  · refine ⟨fun _ _ _ h => by simp [appendFactTerm] at h, fun c => ?_⟩
    obtain ⟨k, -, hclause⟩ := clause_appendFact c
    exact ⟨_, _, Prod.ext hclause rfl, (by decide : "append" ≠ ""), (by decide : (0 : Int) ≤ 3),
      List.cons_ne_nil _ _, by rw [Clause.descendants_mk, Clause.descendantsOf]⟩
  · refine ⟨fun _ _ _ h => by simp [appendRuleTerm] at h, fun c => ?_⟩
    obtain ⟨e, op, -, -, hclause⟩ := clause_appendRule c
    exact ⟨_, _, Prod.ext hclause rfl, (by decide : "append" ≠ ""), (by decide : (0 : Int) ≤ 3),
      List.cons_ne_nil _ _, by rw [Clause.descendants_mk, Clause.descendantsOf]⟩

/-- Both are clauses of one predicate. -/
theorem append_defines : Session.Defines ⟨"append", 3⟩ [appendFactTerm, appendRuleTerm] := by
  intro t ht
  rcases List.mem_pair.1 ht with rfl | rfl
  · refine ⟨fun _ _ _ h => ?_, fun q hq => ?_⟩
    · simp [appendFactTerm] at h
    · obtain ⟨k, -, rfl⟩ := compiled_appendFact hq
      exact ⟨rfl, by rw [Clause.descendants_mk, Clause.descendantsOf]⟩
  · refine ⟨fun _ _ _ h => ?_, fun q hq => ?_⟩
    · simp [appendRuleTerm] at h
    · obtain ⟨e, op, -, -, rfl⟩ := compiled_appendRule hq
      exact ⟨rfl, by rw [Clause.descendants_mk, Clause.descendantsOf]⟩

/-- **The clauses of the library**, whatever compilers have made them. -/
theorem isAppend_of_compiled {cs : List Clause}
    (h : List.Forall₂ Clause.CompiledFrom [appendFactTerm, appendRuleTerm] cs) :
    ∃ c₁ c₂, cs = [c₁, c₂] ∧ IsAppend c₁ c₂ := by
  obtain _ | ⟨h₁, _ | ⟨h₂, _ | _⟩⟩ := h
  obtain ⟨k, hk, rfl⟩ := compiled_appendFact h₁
  obtain ⟨e, op, hop, hseen, rfl⟩ := compiled_appendRule h₂
  refine ⟨_, _, rfl, ⟨⟨k, hk, rfl⟩, rfl, ⟨e, op, hop, fun x hx => ?_, rfl⟩, rfl, rfl⟩⟩
  rw [hseen]
  revert x
  decide

/-! ## §2. The question. -/

namespace Machine

variable {w : World} {q : Clause} {l : Term} {pos : Int} {es : List Term} {p : Int}

/-- The question `append(X, Y, Zs)`. -/
def appendQuestion (l : Term) (pos : Int) : Goal :=
  ⟨"append", [.var "X" 0, .var "Y" 0, l], .none, pos⟩

/-- The machine is about to call `append` for the question, with the variables `x` and `y` and the value
    `u`. -/
structure Posing (q : Clause) (n : Nat) (s : StructId) (x y : VarId) (u : Value) (m : Machine) : Prop
    where
  /-- The call. -/
  site : CallSite q bodyLabel n
  /-- The question ends behind it. -/
  last : ∃ block, q.block? bodyLabel = some block ∧ block[n + 3]? = some { op := .end_ }
  /-- It is about to be entered. -/
  calling : Selecting q bodyLabel n queryFrame 1 0 s m
  /-- The arguments. -/
  splitting : Splitting m.heap s x y u
  /-- The first variable of the question. -/
  front : (m.frame queryFrame).get? "X" = some (.var x)
  /-- The second. -/
  back : (m.frame queryFrame).get? "Y" = some (.var y)
  /-- The stack. -/
  stack : m.stack = #[queryFrame, 1]

/-- **The question comes to its call.** -/
theorem append_called (hw : w.maxSteps ≤ 0) (hq : q.AsksFor (appendQuestion l pos)) (hl : l.Ground) :
    ∃ m n s x y u, Reaches w (({} : Machine).posed q) m ∧ Posing q n s x y u m ∧ Rigid m.heap l u := by
  obtain ⟨e, op, hop, hseen, hblock⟩ := hq.body
  have hwhole : Segment (callCode (appendQuestion l pos) e op ++ [{ op := .end_ }]) 0
      (callCode (appendQuestion l pos) e op ++ [{ op := .end_ }]) := ⟨[], (List.append_nil _).symm⟩
  have hcode := hwhole.left
  have hnames : namesAll (appendQuestion l pos).args = ["X", "Y"] := by
    have hnamed : isAnonymous "X" = false ∧ isAnonymous "Y" = false := by decide
    simp [appendQuestion, namesAll, names, hl.names, hnamed]
  obtain ⟨m, s, news, others, hrun, hcalled⟩ := goal_called (m := ({} : Machine).posed q) hw
    (by rw [hnames]; decide) hblock hcode ⟨rfl, rfl, rfl⟩ ⟨rfl, rfl, rfl, rfl⟩ Nat.one_pos
    (by rw [frame_posed]) Nat.one_pos
  -- Both variables get new cells.
  have hfresh : ∀ z ∈ ["X", "Y"], ∃ v, (z, v) ∈ news ∧ m.value? z = some (.var v) := by
    intro z hz
    have hmem : z ∈ news.map Prod.fst := (hcalled.renewed z).2 ⟨hnames.symm ▸ hz, fun hknown =>
      absurd (hseen ▸ hknown.1) List.not_mem_nil⟩
    cases hlookup : news.lookup z with
    | none =>
      obtain ⟨⟨z', v⟩, hin, rfl⟩ := List.mem_map.1 hmem
      exact absurd (List.lookup_eq_none_iff.1 hlookup _ hin) (by simp)
    | some v =>
      obtain ⟨l₁, l₂, rfl, -⟩ := List.lookup_eq_some_iff.1 hlookup
      exact ⟨v, by simp, by rw [hcalled.entries, hlookup]; rfl⟩
  obtain ⟨x, hx, hxvalue⟩ := hfresh "X" (by decide)
  obtain ⟨y, hy, hyvalue⟩ := hfresh "Y" (by decide)
  have hnew : ∀ {z v}, (z, v) ∈ news → v < m.heap.vars.size ∧ m.heap.binding? v = none := fun hin =>
    (hcalled.new _ (List.mem_append_left _ (List.mem_map_of_mem hin))).2
  have hapart : x ≠ y := by
    rintro rfl
    have hnodup : (news.map Prod.snd).Nodup := (List.nodup_append.1 hcalled.distinct).1
    exact absurd (List.inj_on_of_nodup_map hnodup hx hy rfl) (by simp)
  -- The list is built on the heap.
  obtain ⟨us, hcell, hdenotes⟩ := hcalled.goal
  obtain ⟨u, rfl, hlist⟩ : ∃ u, us = [.var x, .var y, u] ∧ Denotes m.heap m.value? l u others := by
    have hnamed : isAnonymous "X" = false ∧ isAnonymous "Y" = false := by decide
    simp only [appendQuestion, DenotesAll, Denotes, hnamed, hxvalue, hyvalue, Bool.false_eq_true,
      if_false, Option.some.injEq] at hdenotes
    obtain ⟨_, _, _, _, rfl, rfl, ⟨rfl, rfl⟩, _, _, _, _, rfl, rfl, ⟨rfl, rfl⟩, u, _, vs, _, rfl, rfl, hu,
      rfl, rfl⟩ := hdenotes
    exact ⟨u, rfl, by simpa using hu⟩
  have hcalling : Selecting q bodyLabel (0 + callIndex (appendQuestion l pos) e) queryFrame 1 0 s m :=
    hcalled.calling
  have hcurrent : m.current = queryFrame := hcalling.current
  have hlast := hwhole.right.head
  rw [length_callCode, ← Nat.add_assoc] at hlast
  exact ⟨m, _, s, x, y, u, hrun,
    { site := callSite_of_segment hop hblock hcode
      last := ⟨_, hblock, hlast⟩
      calling := hcalling
      splitting := ⟨hcell, hapart, hnew hx, hnew hy⟩
      front := hcurrent ▸ hxvalue
      back := hcurrent ▸ hyvalue
      stack := hcalled.stack }, (Denotes.rigid hl hlist).1⟩

/-- The variables of the question stand for the parts of a list. -/
structure ShowsSplit (p : List Term × List Term) (m : Machine) : Prop where
  /-- The front. -/
  front : ∃ x, (m.frame queryFrame).get? "X" = some (.var x) ∧
    m.heap.Stands (.var x) (ofList p.1 (.const .nil (-1))).plain
  /-- The back. -/
  back : ∃ y, (m.frame queryFrame).get? "Y" = some (.var y) ∧
    m.heap.Stands (.var y) (ofList p.2 (.const .nil (-1))).plain

/-- Only the question is left, and its variables are unbound. -/
structure Spent (m : Machine) : Prop where
  /-- The stack. -/
  stack : m.stack = #[queryFrame]
  /-- The first variable. -/
  front : ∃ x, (m.frame queryFrame).get? "X" = some (.var x) ∧ m.heap.binding? x = none
  /-- The second. -/
  back : ∃ y, (m.frame queryFrame).get? "Y" = some (.var y) ∧ m.heap.binding? y = none

/-- A machine that matches shows the same split. -/
theorem ShowsSplit.of_matches {q : List Term × List Term} {m m' : Machine} (hm : Matches m m')
    (h : ShowsSplit q m) : ShowsSplit q m' := by
  refine ⟨?_, ?_⟩
  · rw [hm.frame, hm.heap]
    exact h.front
  · rw [hm.frame, hm.heap]
    exact h.back

/-- A machine that matches is as spent. -/
theorem Spent.of_matches {m m' : Machine} (hm : Matches m m') (h : Spent m) : Spent m' := by
  refine ⟨hm.stack.trans h.stack, ?_, ?_⟩
  · rw [hm.frame, hm.heap]
    exact h.front
  · rw [hm.frame, hm.heap]
    exact h.back

/-- **The search for the answers of the question.** -/
theorem append_answers {c₁ c₂ : Clause} (hw : w.maxSteps ≤ 0) (happend : IsAppend c₁ c₂)
    (hget : w.base.get ⟨"append", 3⟩ = .ok [c₁, c₂])
    (hq : q.AsksFor (appendQuestion (ofList es (.const .nil p)) pos)) (hes : ∀ t ∈ es, t.Ground) :
    Solutions.Answers w ShowsSplit Spent { machine := ({} : Machine).posed q } (splits es) := by
  obtain ⟨m, n, s, x, y, u, hrun, hposing, hlist⟩ := append_called hw hq (ground_ofList hes)
  obtain ⟨block, hblock, hlast⟩ := hposing.last
  -- The end of the question comes behind the call, whether it has returned or was given up.
  have hend : ∀ {ok m₁}, Left q bodyLabel n queryFrame ok m₁ →
      m₁.frame queryFrame = m.frame queryFrame → Ending ok m₁ := fun hleft hframe =>
    ⟨⟨q, bodyLabel, n + 3, block, hleft.place, hblock, hlast⟩, hleft.success, hleft.current, by
      rw [hframe]
      exact hposing.calling.quiet⟩
  have hreplies := append_replies hw happend hget hposing.site hposing.calling hposing.splitting hlist
  have hall : Replies w (fun a m' => Ending true m' ∧ ShowsSplit a m')
      (fun m' => Ending false m' ∧ m'.top? = some queryFrame ∧ Spent m') (({} : Machine).posed q)
      (splits es) := by
    refine (hreplies.mono (fun a m₁ h => ?_) fun m₁ h => ?_).before hrun
    · have hframe : m₁.frame queryFrame = m.frame queryFrame := h.frames _ Nat.one_pos
      refine ⟨hend h.left hframe, ⟨x, ?_, h.front⟩, ⟨y, ?_, h.back⟩⟩
      · rw [hframe]
        exact hposing.front
      · rw [hframe]
        exact hposing.back
    · have hframe : m₁.frame queryFrame = m.frame queryFrame := h.frames _ Nat.one_pos
      have hstack : m₁.stack = #[queryFrame] := by
        rw [h.stack, hposing.stack]
        rfl
      have hunbound : ∀ v, v < m.heap.vars.size ∧ m.heap.binding? v = none → m₁.heap.binding? v = none :=
        fun v hv => (h.cells.bindings v hv.1 List.not_mem_nil).trans hv.2
      refine ⟨hend h.left hframe, by rw [top?, hstack]; rfl, hstack,
        ⟨x, ?_, hunbound x hposing.splitting.front⟩, ⟨y, ?_, hunbound y hposing.splitting.back⟩⟩
      · rw [hframe]
        exact hposing.front
      · rw [hframe]
        exact hposing.back
  have hpoised : Solutions.Poised { machine := ({} : Machine).posed q } :=
    ⟨⟨rfl, fun _ h => by cases h⟩, rfl, rfl⟩
  have hshows : ∀ a m₁ m₂, Matches m₁ m₂ → ShowsSplit a m₁ → ShowsSplit a m₂ :=
    fun _ _ _ => ShowsSplit.of_matches
  exact Replies.answers hw hshows (fun _ _ => Spent.of_matches) hall hpoised rfl ⟨rfl, rfl, rfl, rfl⟩

end Machine

namespace Session

variable {options : SessionOptions} {s₀ s : Session} {source : String} {es : List Term} {p pos : Int}

/-- **ALL SPLITS OF A LIST.**  In every session that was opened with the library, unless another library
    or a native predicate adds to `append`, and without a limit on steps: the question
    `append(X, Y, Zs)` with a list of `n` ground terms has `n + 1` answers, in which `X` and `Y` stand for
    the first `k` terms and the others, for `k` from `0` to `n`.  Behind the last of them nothing is
    left but the question, with `X` and `Y` unbound. -/
theorem append_splits (hoptions : options.KeepsQuestions) (hstart : start options = (none, s₀))
    (hlibrary : Library.append ∈ options.libraries)
    (halone : (s₀.base.builtin.clauses ⟨"append", 3⟩).length = 2) (h : Later s₀ s)
    (hsteps : s.options.maxSteps ≤ 0) (hes : ∀ t ∈ es, t.Ground)
    (hread : readClause {} (questionText source) 0 =
      .ok (.app "append" [.var "X" 0, .var "Y" 0, ofList es (.const .nil p)] .none pos))
    (hcache : KeepsFor s.cache (questionText source)
      (.app "append" [.var "X" 0, .var "Y" 0, ofList es (.const .nil p)] .none pos)) :
    ∃ q s', s.query source = (.ok q, s') ∧ Solutions.Answers s'.world ShowsSplit Spent q
      ((List.range (es.length + 1)).map fun k => (es.take k, es.drop k)) := by
  -- The library's two clauses were stored when the session began, and are found as long as the user has
  -- none.
  have hreserved : ¬ Reserved ⟨"append", 3⟩ := by
    simp [Reserved, querySignature, queryFunctor, isAuxiliary, auxiliaryLead]
  obtain ⟨c₁, c₂, hclauses, happend⟩ := isAppend_of_compiled
    (start_defines hstart hlibrary read_append append_defines hreserved halone)
  -- The question is compiled now, or was compiled in the same words earlier.
  obtain ⟨q, s', hquery, hq, hsame⟩ := query_call hread hcache
  have hlater : Later s₀ s' := by
    have hasked := h.asked source
    rwa [hquery] at hasked
  have hget : s'.world.base.get ⟨"append", 3⟩ = .ok [c₁, c₂] := by
    rw [← hclauses]
    exact hlater.finds hoptions hstart hreserved (by rw [hclauses]; exact List.cons_ne_nil _ _)
  have hunlimited : s'.world.maxSteps ≤ 0 := by
    show s'.options.maxSteps ≤ 0
    rw [hsame]
    exact hsteps
  exact ⟨_, s', hquery, append_answers hunlimited happend hget hq hes⟩

/-- The splits of a list of two terms, in a session with the library alone. -/
theorem append_splits_two : ∃ s q s',
    start { patience := 0, libraries := [Library.append] } = (none, s) ∧
    s.query "append(X, Y, [a, f(b)])" = (.ok q, s') ∧ Solutions.Answers s'.world ShowsSplit Spent q
      [([], [.const (.atom "a") 14, .app "f" [.const (.atom "b") 19] .none 17]),
       ([.const (.atom "a") 14], [.app "f" [.const (.atom "b") 19] .none 17]),
       ([.const (.atom "a") 14, .app "f" [.const (.atom "b") 19] .none 17], [])] := by
  obtain ⟨s, hstart, hcache, hoptions, hlength⟩ := exists_started_with 0 read_append append_accepts
    append_defines (by decide)
  have hkeeping : SessionOptions.KeepsQuestions { patience := 0, libraries := [Library.append] } :=
    nofun
  -- What the question says, and that both elements are ground.
  have hread : readClause {} (questionText "append(X, Y, [a, f(b)])") 0 =
      .ok (.app "append" [.var "X" 0, .var "Y" 0, ofList [.const (.atom "a") 14,
        .app "f" [.const (.atom "b") 19] .none 17] (.const .nil (-1))] .none 0) := by
    with_unfolding_all rfl
  have hground : ∀ t ∈ [Term.const (.atom "a") 14, .app "f" [.const (.atom "b") 19] .none 17],
      t.Ground := by
    simp [Ground, GroundAll]
  have hsteps : s.options.maxSteps ≤ 0 := hoptions ▸ Int.le_refl 0
  have hkeeps : KeepsFor s.cache (questionText "append(X, Y, [a, f(b)])") (.app "append" [.var "X" 0,
      .var "Y" 0, ofList [.const (.atom "a") 14, .app "f" [.const (.atom "b") 19] .none 17]
        (.const .nil (-1))] .none 0) := fun x q hx => by
    rw [hcache] at hx
    cases hx
  obtain ⟨q, s', hquery, hanswers⟩ := append_splits hkeeping hstart List.mem_cons_self hlength
    .opened hsteps hground hread hkeeps
  exact ⟨s, q, s', hstart, hquery, hanswers⟩

end Session

end PrologMachine
