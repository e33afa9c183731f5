/-
  PrologMachine.Proofs.Renumbering.Run ── **RUNS UP TO THE NUMBERS OF A COMPILER.**

  Two searches whose questions and clauses are the same up to renumbering find the same, step for
  step: the same answers after as many instructions, and the same error or end.

    * `Renumbering.Bases`: knowledge bases that answer every goal alike, up to renumbering.
    * `Machines.advance`, `Machines.runFrom`: what a step and a run do to both machines.
    * `Searches.run`: what a slice of both searches reports.
-/
import PrologMachine.Proofs.Machine.Foreign
import PrologMachine.Proofs.Renumbering.Machine
import PrologMachine.Session.Solutions

namespace PrologMachine

namespace Renumbering

open Exec Machine

variable {ρ : Renumbering} {K : Kinds} {admits : Signature → Bool} {q : PrologMachine.Clause}
  {w w' : World} {m m' : Machine} {kb kb' : KnowledgeBase} {g g' : Signature} {n : Nat}

/-! ## §1. Knowledge bases. -/

/-- Both knowledge bases find the same clauses for a goal, or none. -/
inductive Finds (ρ : Renumbering) (kb kb' : KnowledgeBase) (g g' : Signature) : Prop where
  /-- The clauses are the same up to renumbering; native ones belong to the same predicate. -/
  | known {cs cs' : List PrologMachine.Clause} (hcs : kb.get g = .ok cs)
    (hcs' : kb'.get g' = .ok cs') (h : List.Forall₂ ρ.Clause cs cs')
    (hnative : ∀ c ∈ cs, c.native = true → g' = g)
  /-- The predicate is the same and has no clauses. -/
  | unknown {e : StoreError} (hcs : kb.get g = .error e) (hcs' : kb'.get g' = .error e)

/-- **The knowledge bases answer every goal but the query alike.** -/
def Bases (ρ : Renumbering) (kb kb' : KnowledgeBase) : Prop :=
  ∀ {g g'}, g ≠ querySignature → ρ.Goal g g' → ρ.Finds kb kb' g g'

/-- Where the same clauses are found, the same answers are given. -/
theorem Finds.answers (h : ρ.Finds kb kb' g g') (hn : ∀ cs, kb.get g = .ok cs → n < cs.length) :
    ρ.Answers kb kb' n g g' := by
  cases h with
  | known hcs hcs' h hnative => exact .known hcs hcs' h (hn _ hcs) hnative
  | unknown hcs hcs' => exact .unknown hcs hcs'

/-! ## §2. One step. -/

/-- Both machines find the same instruction. -/
theorem Machines.fetch (hm : ρ.Machines K m m') {i : Instruction} (hi : m.fetch = .ok i) :
    ∃ i', m'.fetch = .ok i' ∧ ρ.Instr i i' := by
  have hcode := hm.code
  unfold Machine.fetch at hi ⊢
  rw [hm.label, hm.index]
  generalize m.code = code at hi hcode
  generalize m'.code = code' at hcode ⊢
  cases hcode with
  | none => cases hi
  -- The code, the block and the instruction are looked up one after another, each on both sides.
  | @some c c' hc =>
    have hblock := hc.block? m.label
    simp only at hi ⊢
    generalize c.block? m.label = b at hi hblock
    generalize c'.block? m.label = b' at hblock ⊢
    cases hblock with
    | none => cases hi
    | @some b b' hb =>
      have hrel := getElem?_rel hb m.index
      simp only at hi ⊢
      generalize b[m.index]? = x at hi hrel
      generalize b'[m.index]? = x' at hrel ⊢
      cases hrel with
      | none => cases hi
      | some hinstr =>
        obtain rfl := Except.ok.inj hi
        exact ⟨_, rfl, hinstr⟩

/-- The goal that the code of one machine is about to call has a partner. -/
theorem Machines.exists_goal (hm : ρ.Machines K m m') {c : PrologMachine.Clause}
    (hcode : m.code = some c) {label : String} {index : Nat}
    (hat : c.At admits label index (.ready g)) : ∃ g', ρ.Goal g g' := by
  obtain ⟨code, hblock, i, hi, hregister, rfl⟩ := hat.exists_goal
  have hrel := hm.code
  rw [hcode] at hrel
  generalize m'.code = code' at hrel
  cases hrel with
  | @some _ c' hc =>
    have hcodes := hc.block? label
    rw [hblock] at hcodes
    generalize c'.block? label = b' at hcodes
    cases hcodes with
    | @some _ code' hcodes =>
      obtain ⟨n, hn⟩ := List.getElem?_of_mem hi
      have hinstr := getElem?_rel hcodes n
      rw [hn] at hinstr
      generalize code'[n]? = x' at hinstr
      cases hinstr with
      | some hinstr => exact ⟨_, hinstr.goal hregister⟩

/-- A fault is the same on both sides. -/
theorem Machines.fault (hm : ρ.Machines K m m') (e : Error) :
    ρ.Machines K (m.fault e) (m'.fault e) := by
  unfold Machine.fault
  rw [hm.error]
  split
  · exact hm
  · exact { hm with error := rfl, ended := rfl, frames := hm.frames }

/-- Actions that come out alike are performed alike. -/
theorem Outcomes.perform {x x' : Exec Unit} (h : ρ.Outcomes K Same (eval x m) (eval x' m')) :
    ∃ K', K ≤ K' ∧ ρ.Machines K' (m.perform x) (m'.perform x') := by
  rw [perform_eq, perform_eq]
  generalize eval x m = out at h
  generalize eval x' m' = out' at h
  cases h with
  | ok hK _ hm => exact ⟨_, hK, hm⟩
  | error hK hm => exact ⟨_, hK, hm.fault _⟩

/-- A call of an orderly machine comes out alike. -/
theorem Machines.executeCall (hm : ρ.Machines K m m') (hw : Worlds w w')
    (hb : ρ.Bases w.base w'.base) (hquery : admits querySignature = false)
    {c : PrologMachine.Clause} {j : Nat} {i i' : Instruction}
    (hf : Fetched admits w.base.compiled q m c j (.ready g) i (.returned g)) (hi : ρ.Instr i i')
    (hcalls : i.calls) : ρ.Outcomes K Same (eval (execute w i) m) (eval (execute w' i') m') := by
  obtain ⟨-, f, r, htarget, -, hp, -⟩ := hf.fits
  obtain ⟨s, hx, hgoal⟩ := goal?_eq_some hp.goal
  obtain ⟨g', hg'⟩ := hm.exists_goal hf.code hf.before
  have hg : g ≠ querySignature := by
    rintro rfl
    rw [hf.before.admits_of_ready] at hquery
    cases hquery
  have hexecute : ∀ op,
      ρ.Outcomes K Same (eval (Exec.call w op) m) (eval (Exec.call w' op) m') := by
    -- It is enough that `Exec.call` does the same for the operation that either instruction stands for.
    refine fun op => hm.call hw htarget hx hp.returns (fun k hname harity => ?_) op
    rw [hgoal]
    have hname' : ρ.Name g.name k.name := by rwa [← hgoal]
    have harity' : k.arity = g.arity := by rwa [← hgoal]
    rw [hg'.unique hname' harity']
    refine (hb hg hg').answers fun cs hcs => ?_
    have hlt := (hp.clause (cs.map Clause.standIn) (by rw [KnowledgeBase.get_compiled, hcs]; rfl)).1
    rwa [List.length_map] at hlt
  have hop' := hi.op
  rcases hcalls with hop | hop <;> rw [hop] at hop' <;> simp only [execute, hop, hop'] <;>
    exact hexecute _

/-- **One step of both machines.** -/
theorem Machines.advance (hm : ρ.Machines K m m') (hw : Worlds w w') (hb : ρ.Bases w.base w'.base)
    (hset : Setting admits w.base.compiled q) (hquery : admits querySignature = false)
    (h : Orderly admits w.base.compiled q m) (hactive : m.Active) :
    ∃ K', K ≤ K' ∧ ρ.Machines K' (m.advance w) (m'.advance w') := by
  cases h with
  | running _ hmem hcode hat hfit =>
    obtain ⟨i, p', hi, hfetched⟩ := exists_fetched hset hactive hmem hcode hat hfit
    obtain ⟨i', hi', hinstr⟩ := hm.fetch hi
    rw [advance_eq hi, advance_eq hi', hw.maxSteps, hm.steps]
    split
    -- One instruction too many stops both machines, and otherwise both count it.
    · have hm₁ : ρ.Machines K { m with index := m.index + 1, steps := m.steps + 1 }
          { m' with index := m'.index + 1, steps := m.steps + 1 } :=
        { hm with index := by rw [hm.index], steps := rfl, frames := hm.frames }
      exact ⟨K, le_rfl, hm₁.fault _⟩
    have hm₁ : ρ.Machines K (m.counted w i) (m'.counted w' i') :=
      { hm with
        index := congrArg (· + 1) hm.index, steps := congrArg (· + 1) hm.steps
        frames := hm.frames }
    -- Only a call depends on the knowledge base.
    by_cases hcalls : i.calls
    · obtain ⟨g, hp, hp'⟩ := Phase.ready_of_calls (hfetched w).next hcalls
      subst hp hp'
      exact (hm₁.executeCall hw hb hquery (hfetched w) hinstr hcalls).perform
    · exact (execute_mirrors hinstr hcalls _ _ hm₁).perform
  | headless hadmits =>
    rw [hquery] at hadmits
    cases hadmits
  | answered _ _ hended => rw [hactive.2.2.1] at hended; cases hended
  | exhausted _ _ hended => rw [hactive.2.2.1] at hended; cases hended

/-! ## §3. Runs. -/

/-- What a run of a question needs of the world. -/
structure Hosting (admits : Signature → Bool) (w : World) (q : PrologMachine.Clause) : Prop extends
    Hosted admits w where
  /-- The question was put to the knowledge base. -/
  setting : Setting admits w.base.compiled q
  /-- The query itself is not called. -/
  query : admits querySignature = false

/-- The machine is orderly or has stopped with an error. -/
def Proceeds (admits : Signature → Bool) (w : World) (q : PrologMachine.Clause) (m : Machine) :
    Prop :=
  Orderly admits w.base.compiled q m ∨ m.error.isSome = true

variable {o o' : Machine.Outcome}

/-- A machine under way is orderly. -/
theorem active_of_proceeds (h : Proceeds admits w q m) (herror : m.error = none)
    (hended : m.ended = false) : m.Active ∧ Orderly admits w.base.compiled q m := by
  rcases h with h | h
  · refine ⟨?_, h⟩
    by_contra hactive
    rw [h.ended_of_not_active hactive] at hended
    cases hended
  · rw [herror] at h
    cases h

/-- A step of a machine that proceeds. -/
theorem Machines.step (hm : ρ.Machines K m m') (hw : Worlds w w') (hb : ρ.Bases w.base w'.base)
    (hq : Hosting admits w q) (h : Proceeds admits w q m) :
    (m'.step w').1 = (m.step w).1 ∧ Proceeds admits w q (m.step w).2 ∧
      ∃ K', K ≤ K' ∧ ρ.Machines K' (m.step w).2 (m'.step w').2 := by
  unfold Machine.step
  rw [hm.error]
  -- A machine with an error, without a question or at its end stands still.
  split
  · exact ⟨rfl, h, K, le_rfl, hm⟩
  next herror =>
  rw [hm.asked]
  split
  · exact ⟨rfl, h, K, le_rfl, hm⟩
  rw [hm.ended]
  split
  · exact ⟨rfl, h, K, le_rfl, hm⟩
  next hended =>
  obtain ⟨hactive, horderly⟩ := active_of_proceeds h herror (by simpa using hended)
  obtain ⟨K', hK, hm'⟩ := hm.advance hw hb hq.setting hq.query horderly hactive
  have hproceeds : Proceeds admits w q (m.advance w) :=
    (horderly.advance_hosted hq.setting hq.toHosted hactive).imp (fun ⟨_, _, _, _, h'⟩ => h') And.left
  refine ⟨?_, hproceeds, K', hK, hm'⟩
  simp only [hm'.ended, hm'.error]

/-- The two machines have the same status. -/
theorem Machines.status (hm : ρ.Machines K m m') : m'.status = m.status := by
  unfold Machine.status
  rw [hm.ended, hm.exhausted]

/-- **A run of both machines has one outcome.** -/
theorem Machines.runFrom (hw : Worlds w w') (hb : ρ.Bases w.base w'.base) (hq : Hosting admits w q)
    (budget : Nat) : ∀ {K : Kinds} {m m' : Machine} (taken : Nat), ρ.Machines K m m' →
    Proceeds admits w q m →
    (m'.runFrom w' budget taken).1 = (m.runFrom w budget taken).1 ∧
      Proceeds admits w q (m.runFrom w budget taken).2 ∧
      ∃ K', K ≤ K' ∧ ρ.Machines K' (m.runFrom w budget taken).2 (m'.runFrom w' budget taken).2 := by
  induction budget with
  | zero => exact fun {K} _ _ _ hm h => ⟨rfl, h, K, le_rfl, hm⟩
  | succ budget ih =>
    intro K m m' taken hm h
    obtain ⟨hreport, hproceeds, K₁, hK₁, hm₁⟩ := hm.step hw hb hq h
    unfold Machine.runFrom
    generalize m.step w = r at hreport hproceeds hm₁
    generalize m'.step w' = r' at hreport hm₁
    obtain ⟨⟨done, e⟩, m₁⟩ := r
    obtain ⟨report, m₁'⟩ := r'
    obtain rfl : report = ⟨done, e⟩ := hreport
    -- A run goes on after a step that neither ends it nor fails.
    rcases done with _ | _ <;> rcases e with _ | e
    case false.none =>
      obtain ⟨hout, hproceeds', K₂, hK₂, hm₂⟩ := ih (taken + 1) hm₁ hproceeds
      exact ⟨hout, hproceeds', K₂, hK₁.trans hK₂, hm₂⟩
    case true.none =>
      replace hm₁ : ρ.Machines K₁ m₁ m₁' := hm₁
      refine ⟨?_, hproceeds, K₁, hK₁, hm₁⟩
      simp only [hm₁.status]
    all_goals exact ⟨rfl, hproceeds, K₁, hK₁, hm₁⟩

/-- Two machines run to the same report. -/
theorem Machines.run (hm : ρ.Machines K m m') (hw : Worlds w w') (hb : ρ.Bases w.base w'.base)
    (hq : Hosting admits w q) (h : Proceeds admits w q m) (canceled : Bool) (budget : Nat) :
    (m'.run w' canceled budget).1 = (m.run w canceled budget).1 ∧
      Proceeds admits w q (m.run w canceled budget).2 ∧
      ∃ K', K ≤ K' ∧ ρ.Machines K' (m.run w canceled budget).2 (m'.run w' canceled budget).2 := by
  unfold Machine.run
  rw [hm.asked, hm.ended, hm.status, hm.error]
  split
  · exact ⟨rfl, h, K, le_rfl, hm⟩
  split
  · exact ⟨rfl, h, K, le_rfl, hm⟩
  split
  · exact ⟨rfl, h, K, le_rfl, hm⟩
  · exact Machines.runFrom hw hb hq budget 0 hm h

/-- A run that reports an answer leaves the machine at one. -/
theorem status_of_run {canceled : Bool} {budget : Nat} (h : m.run w canceled budget = (o, m'))
    (herror : o.error = none) (hstatus : o.status = .answer) : m'.status = .answer := by
  -- Only a step that ends the machine without an error can give an answer.
  have hrunFrom : ∀ (n taken : Nat) (m : Machine), m.runFrom w n taken = (o, m') →
      m'.status = .answer := by
    intro n
    induction n with
    | zero =>
      intro taken m h
      cases h
      cases hstatus
    | succ n ih =>
      intro taken m h
      unfold Machine.runFrom at h
      rcases hstep : m.step w with ⟨⟨_ | _, _ | e⟩, m₁⟩ <;> rw [hstep] at h <;> dsimp only at h
      case false.none => exact ih _ _ h
      case true.none =>
        cases h
        exact hstatus
      all_goals
        cases h
        cases herror
  unfold Machine.run at h
  split at h
  · cases h
    cases herror
  split at h
  · cases h
    exact hstatus
  split at h
  · cases h
    cases herror
  · exact hrunFrom _ _ _ h

/-- **The next answer is asked for.** -/
theorem Machines.redo (hm : ρ.Machines K m m') (h : Proceeds admits w q m)
    (hstatus : m.status = .answer) : m'.redo.1 = m.redo.1 ∧ Proceeds admits w q m.redo.2 ∧
      ∃ K', K ≤ K' ∧ ρ.Machines K' m.redo.2 m'.redo.2 := by
  have hproceeds : Proceeds admits w q m.redo.2 := by
    rcases h with h | h
    · exact .inl (h.redo hstatus).2
    · right
      unfold Machine.redo
      rw [h]
      simpa using h
  -- A machine that has nothing to redo is left as it is.
  by_cases hstop : (!m.asked || m.error.isSome || m.exhausted) = true
  · have hstop' : (!m'.asked || m'.error.isSome || m'.exhausted) = true := by
      rwa [hm.asked, hm.error, hm.exhausted]
    have hidle : m.redo = (false, m) := by rw [Machine.redo, if_pos hstop]
    have hidle' : m'.redo = (false, m') := by rw [Machine.redo, if_pos hstop']
    rw [hidle] at hproceeds ⊢
    rw [hidle']
    exact ⟨rfl, hproceeds, K, le_rfl, hm⟩
  -- Any other one fails, with its flags and its count of steps set back.
  · have hstop' : ¬ (!m'.asked || m'.error.isSome || m'.exhausted) = true := by
      rwa [hm.asked, hm.error, hm.exhausted]
    have hm₁ : ρ.Machines K { m with ended := false, success := false, steps := 0 }
        { m' with ended := false, success := false, steps := 0 } :=
      { hm with ended := rfl, success := rfl, steps := rfl, frames := hm.frames }
    obtain ⟨K', hK, hm'⟩ := Outcomes.perform (failure_mirrors _ _ hm₁)
    refine ⟨?_, hproceeds, K', hK, ?_⟩
    · rw [Machine.redo, Machine.redo, if_neg hstop, if_neg hstop']
      show (_ && _) = (_ && _)
      rw [hm'.error, hm'.exhausted]
    · rw [Machine.redo, Machine.redo, if_neg hstop, if_neg hstop']
      exact hm'

/-! ## §4. Searches. -/

/-- The query has the same variables. -/
theorem Machines.queryVars (hm : ρ.Machines K m m') : m'.queryVars = m.queryVars := by
  have hvars := (hm.frames Machine.queryFrame).vars
  unfold Machine.queryVars
  generalize (m.frame Machine.queryFrame).vars = vars at hvars
  generalize (m'.frame Machine.queryFrame).vars = vars' at hvars
  induction hvars with
  | nil => rfl
  | @cons e e' es es' he _ ih =>
    obtain ⟨x, t⟩ := e
    obtain ⟨x', t'⟩ := e'
    obtain ⟨rfl, ht⟩ := he
    -- Registers and anonymous variables are left out on both sides.
    rw [List.filterMap_cons, List.filterMap_cons, ih]
    by_cases hskip : (isRegister x' || isAnonymous x') = true
    · simp only [hskip, if_true]
    have hne : x' ≠ "$x0" := by
      rintro rfl
      exact hskip rfl
    simp only [hskip, Bool.false_eq_true, if_false]
    rw [if_neg hne] at ht
    cases t <;> cases t' <;> first | exact ht.elim | rfl | skip
    obtain rfl : _ = _ := ht
    rfl

/-- **The query variables hold the same solution.** -/
theorem Machines.solution (hm : ρ.Machines K m m') : m'.solution = m.solution := by
  unfold Machine.solution
  rw [hm.queryVars]
  refine congrArg (fun vs => Solution.mk (List.mergeSort vs _)) (List.map_congr_left fun e _ => ?_)
  exact congrArg (Prod.mk e.1) (hm.heap.text (.var e.2))

/-- **Searches that have come equally far**, the first of which is orderly. -/
structure Searches (ρ : Renumbering) (admits : Signature → Bool) (w : World)
    (q : PrologMachine.Clause) (s s' : Solutions) : Prop where
  /-- The machines. -/
  machine : ∃ K, ρ.Machines K s.machine s'.machine
  /-- The first is orderly or has stopped with an error. -/
  proceeds : Proceeds admits w q s.machine
  /-- The last run found an answer. -/
  answered : s'.answered = s.answered
  /-- The search is over. -/
  done : s'.done = s.done
  /-- The error that ended it. -/
  error : s'.error = s.error
  /-- Behind an answer the machine stands at one. -/
  status : s.answered = true → s.machine.status = .answer

variable {s s' : Solutions}

/-- Two searches resume to the same snapshot. -/
theorem Searches.resumeSearch (h : ρ.Searches admits w q s s') (hw : Worlds w w')
    (hb : ρ.Bases w.base w'.base) (hq : Hosting admits w q) (hanswered : s.answered = false)
    (canceled : Bool) (budget : Nat) :
    (s'.resumeSearch w' canceled budget).1 = (s.resumeSearch w canceled budget).1 ∧
      ρ.Searches admits w q (s.resumeSearch w canceled budget).2
        (s'.resumeSearch w' canceled budget).2 := by
  obtain ⟨K, hm⟩ := h.machine
  obtain ⟨hout, hproceeds, K', -, hm'⟩ := hm.run hw hb hq h.proceeds canceled budget
  have hstatus : ∀ o m₁, s.machine.run w canceled budget = (o, m₁) → o.error = none →
      o.status = .answer → m₁.status = .answer := fun _ _ => status_of_run
  unfold Solutions.resumeSearch
  generalize s.machine.run w canceled budget = r at hout hproceeds hm' hstatus
  generalize s'.machine.run w' canceled budget = r' at hout hm'
  obtain ⟨o, m₁⟩ := r
  obtain ⟨o', m₁'⟩ := r'
  obtain rfl : o' = o := hout
  simp only
  rw [hm'.error, hm'.solution]
  -- By how the run ended: with an error, with an answer, exhausted or paused.
  split
  · split
    · exact ⟨rfl, ⟨K', hm'⟩, hproceeds, h.answered, h.done, h.error,
        fun h => by rw [hanswered] at h; cases h⟩
    · exact ⟨rfl, ⟨K', hm'⟩, hproceeds, h.answered, rfl, rfl,
        fun h => by rw [hanswered] at h; cases h⟩
  next herror =>
  split
  next hanswer =>
    exact ⟨rfl, ⟨K', hm'⟩, hproceeds, rfl, h.done, h.error,
      fun _ => hstatus o' m₁ rfl herror hanswer⟩
  · exact ⟨rfl, ⟨K', hm'⟩, hproceeds, h.answered, rfl, rfl,
      fun h => by rw [hanswered] at h; cases h⟩
  · exact ⟨rfl, ⟨K', hm'⟩, hproceeds, h.answered, h.done, h.error,
      fun h => by rw [hanswered] at h; cases h⟩

/-- **A slice of both searches reports the same.** -/
theorem Searches.run (h : ρ.Searches admits w q s s') (hw : Worlds w w')
    (hb : ρ.Bases w.base w'.base) (hq : Hosting admits w q) (canceled : Bool) (budget : Nat) :
    (s'.run w' canceled budget).1 = (s.run w canceled budget).1 ∧
      ρ.Searches admits w q (s.run w canceled budget).2 (s'.run w' canceled budget).2 := by
  unfold Solutions.run
  rw [h.done, h.answered, h.error]
  split
  · exact ⟨rfl, h⟩
  -- An answered search asks its machine for the next answer first.
  split
  · next hanswered =>
    obtain ⟨K, hm⟩ := h.machine
    obtain ⟨hmore, hproceeds, K', -, hm'⟩ := hm.redo h.proceeds (h.status hanswered)
    generalize s.machine.redo = r at hmore hproceeds hm'
    generalize s'.machine.redo = r' at hmore hm'
    obtain ⟨more, m₁⟩ := r
    obtain ⟨more', m₁'⟩ := r'
    obtain rfl : more' = more := hmore
    simp only
    rw [hm'.error]
    split
    · have h' : ρ.Searches admits w q { s with machine := m₁, answered := false }
          { s' with machine := m₁', answered := false, done := s.done, error := s.error } :=
        ⟨⟨K', hm'⟩, hproceeds, rfl, rfl, rfl, fun h => by cases h⟩
      exact h'.resumeSearch hw hb hq rfl canceled budget
    · exact ⟨rfl, ⟨K', hm'⟩, hproceeds, rfl, rfl, rfl, fun h => by cases h⟩
  · next hanswered =>
    exact h.resumeSearch hw hb hq (by simpa using hanswered) canceled budget

/-- Taking what was written and logged changes nothing. -/
theorem Searches.drain (h : ρ.Searches admits w q s s') : ρ.Searches admits w q s s'.drain.2 := by
  obtain ⟨K, hm⟩ := h.machine
  exact ⟨⟨K, { hm with frames := hm.frames }⟩, h.proceeds, h.answered, h.done, h.error, h.status⟩

end Renumbering

end PrologMachine
