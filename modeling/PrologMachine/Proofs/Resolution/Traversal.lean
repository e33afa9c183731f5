/-
  PrologMachine.Proofs.Resolution.Traversal ── **A MACHINE SEARCHES DEPTH FIRST.**

  Between two instructions a machine stands in front of a forest: the resolvent that it is at, and those
  that its choices leave to be tried.  One call takes it to the resolvents below, an answer to the
  resolvents behind.

    * `Ready`: the machine stands in front of these resolvents; `Retrying.settles`, after a failure.
    * `Ready.expands`, `Ready.answers`: the first of them has goals, or is a success leaf.
    * `Due`: a machine that is about to be run.
    * `Due.walks`, `Due.finishes`: runs follow the search, and the search follows runs.
-/
import PrologMachine.Proofs.Machine.Runs
import PrologMachine.Proofs.Resolution.Answers
import PrologMachine.Proofs.Resolution.Failures

namespace PrologMachine

open Machine
open Relation (TransGen)

variable {K : Set Constant} {P : List Rule} {names : Set String} {kb : KnowledgeBase} {w : World} {n : Nat}
  {R : Rule} {r a : Resolvent} {F F' as : List Resolvent} {fs : List FrameId} {env : Copies}
  {x : Choice} {xs : List Choice} {m m' : Machine} {s : Status}

/-! ## §1. The rules that can be used. -/

/-- Structures that describe one tree have the same name and the same number of arguments. -/
theorem Pattern.signature_eq_of_describes {θ θ' : Assignment} {f g : String} {ps qs : List Pattern} {T : Tree}
    (h : (Pattern.struct f ps).Describes K θ T) (h' : (Pattern.struct g qs).Describes K θ' T) :
    (Pattern.struct f ps).signature = (Pattern.struct g qs).signature := by
  obtain ⟨Ts, rfl, hTs⟩ := h
  obtain ⟨Us, heq, hUs⟩ := h'
  obtain ⟨rfl, rfl⟩ := Tree.node_inj heq
  rw [Pattern.signature, Pattern.signature, ← describesAll_length hTs, ← describesAll_length hUs]

/-- **Only the rules for the predicate of a goal can be used.** -/
theorem Serves.children_eq (hserves : Serves K P kb w) {g : Part} {gs : List Part} (hgoals : r.goals = g :: gs)
    (hg : g.2.Callable K P) : r.children K P = r.expand K (candidates P g.2.signature) := by
  rw [Resolvent.children_of_goals hgoals, candidates]
  refine (Resolvent.expand_filter _ fun R hR hdrop hsolvable => ?_).symm
  obtain ⟨Θ, hΘ⟩ := hsolvable
  rw [Resolvent.resolve_of_goals hgoals] at hΘ
  obtain ⟨T, hgoal, hhead⟩ := hΘ _ List.mem_cons_self
  obtain ⟨f, ps, hf, -⟩ := hg.args
  obtain ⟨f', ps', hf'⟩ := hserves.structs R hR
  simp only [Part.Stands, hf, hf'] at hgoal hhead
  have hsame : R.signature = g.2.signature := by
    rw [Rule.signature, hf, hf']
    exact Pattern.signature_eq_of_describes hhead hgoal
  simp [hsame] at hdrop

/-! ## §2. Machines in front of a forest. -/

/-- The machine stands in front of the resolvents: it is at the first one, and its choices leave the others
    to be tried. -/
inductive Ready (K : Set Constant) (P : List Rule) (names : Set String) (w : World) :
    List Resolvent → Machine → Prop where
  /-- It is at a resolvent. -/
  | here {r : Resolvent} {fs : List FrameId} {env : Copies} {xs : List Choice} {m : Machine}
    (hs : Stage K P names r fs env xs m) (hcontrol : Control fs env r.goals m) :
    Ready K P names w (r :: forest K P xs) m
  /-- There are none left. -/
  | spent {m : Machine} (h : Over w m) : Ready K P names w [] m

/-- A machine in front of a forest is active. -/
theorem Ready.active (h : Ready K P names w F m) : m.Active := by
  cases h with
  | here hs => exact hs.active
  | spent h => exact h.active

/-- Behind the last rule nothing is left. -/
theorem Choice.left_of_last (h : (x.rules P).length ≤ x.tried + 1) : x.left K P = [] := by
  rw [Choice.left, List.drop_eq_nil_of_le h, Resolvent.expand_nil]

/-- The resolvents that the present rule and those behind it lead to. -/
noncomputable def Choice.ahead (K : Set Constant) (P : List Rule) (x : Choice) : List Resolvent :=
  x.resolvent.expand K ((x.rules P).drop x.tried)

/-- What is left is what lies ahead of the next try. -/
theorem Choice.left_eq_ahead : x.left K P = (x.try (x.tried + 1)).ahead K P := rfl

/-- What lies ahead begins with the rule that is tried. -/
theorem Choice.ahead_eq (h : (x.rules P)[x.tried]? = some R) :
    x.ahead K P = x.resolvent.expand K (R :: (x.rules P).drop (x.tried + 1)) := by
  obtain ⟨hlt, rfl⟩ := List.getElem?_eq_some_iff.1 h
  rw [ahead, List.drop_eq_getElem_cons hlt]

/-- The forest of the choices, one behind the other. -/
theorem forest_cons : forest K P (x :: xs) = x.left K P ++ forest K P xs := List.flatMap_cons

/-- A call whose choice settles after a failure settles. -/
theorem Calling.settles_of (hserves : Serves K P kb w)
    (hfails : ∀ {m}, Retrying K P names x xs m → Search kb n m →
      ∃ m', Reaches w m m' ∧ Ready K P names w (forest K P (x :: xs)) m')
    (h : Calling K P names x xs m) (hsearch : Search kb n m) (hR : (x.rules P)[x.tried]? = some R) :
    ∃ m', Reaches w m m' ∧ Ready K P names w (x.ahead K P ++ forest K P xs) m' := by
  rw [Choice.ahead_eq hR]
  rcases h.resolves hserves hsearch hR with
    ⟨hnone, m₁, hreaches, hretrying⟩ | ⟨hsome, fs, env, m₁, hreaches, hstage, hcontrol⟩
  · obtain ⟨m₂, hreaches', hready⟩ := hfails hretrying (hsearch.of_reaches hserves.equipped hreaches)
    rw [forest_cons, Choice.left] at hready
    rw [Resolvent.expand_cons_of_not_solvable hnone]
    exact ⟨m₂, hreaches.trans hreaches', hready⟩
  · have hready := Ready.here (w := w) hstage hcontrol
    rw [forest_cons, Choice.left] at hready
    rw [Resolvent.expand_cons_of_solvable hsome]
    exact ⟨m₁, hreaches, hready⟩

/-- Below a choice whose last rule was tried the machine comes to what the others leave. -/
theorem Retrying.settles_last (hserves : Serves K P kb w)
    (hbelow : ∀ {y ys m}, xs = y :: ys → Retrying K P names y ys m → Search kb n m →
      ∃ m', Reaches w m m' ∧ Ready K P names w (forest K P (y :: ys)) m')
    (h : Retrying K P names x xs m) (hsearch : Search kb n m) (hlast : (x.rules P).length ≤ x.tried + 1) :
    ∃ m', Reaches w m m' ∧ Ready K P names w (forest K P (x :: xs)) m' := by
  obtain ⟨m', hreaches, hend⟩ := h.abandons hserves hsearch hlast
  rw [forest_cons, Choice.left_of_last hlast, List.nil_append]
  rcases hend with ⟨rfl, hover⟩ | ⟨y, ys, rfl, hretrying⟩
  · exact ⟨m', hreaches, .spent hover⟩
  · obtain ⟨m'', hreaches', hready⟩ := hbelow rfl hretrying (hsearch.of_reaches hserves.equipped hreaches)
    exact ⟨m'', hreaches.trans hreaches', hready⟩

/-- The rules of the newest choice are tried one after the other. -/
theorem Retrying.settles_of (hserves : Serves K P kb w)
    (hbelow : ∀ {y ys m}, xs = y :: ys → Retrying K P names y ys m → Search kb n m →
      ∃ m', Reaches w m m' ∧ Ready K P names w (forest K P (y :: ys)) m')
    (h : Retrying K P names x xs m) (hsearch : Search kb n m) :
    ∃ m', Reaches w m m' ∧ Ready K P names w (forest K P (x :: xs)) m' := by
  -- The induction is on the number of rules that are left.
  induction hk : (x.rules P).length - x.tried generalizing x m with
  | zero => exact h.settles_last hserves hbelow hsearch (by omega)
  | succ k ih =>
    by_cases hmore : x.tried + 1 < (x.rules P).length
    · obtain ⟨m₁, hreaches, hcalling⟩ := h.retries hserves hsearch hmore
      have hfewer : ((x.try (x.tried + 1)).rules P).length - (x.try (x.tried + 1)).tried = k := by
        simp only [Choice.rules, Choice.try] at hk ⊢
        omega
      obtain ⟨m₂, hreaches', hready⟩ := hcalling.settles_of hserves (fun h' hs' => ih h' hs' hfewer)
        (hsearch.of_reaches hserves.equipped hreaches) (List.getElem?_eq_getElem hmore)
      rw [forest_cons, Choice.left_eq_ahead]
      exact ⟨m₂, hreaches.trans hreaches', hready⟩
    · exact h.settles_last hserves hbelow hsearch (Nat.not_lt.1 hmore)

/-- **After a failure the machine comes to the resolvents that are left.** -/
theorem Retrying.settles (hserves : Serves K P kb w) (h : Retrying K P names x xs m) (hsearch : Search kb n m) :
    ∃ m', Reaches w m m' ∧ Ready K P names w (forest K P (x :: xs)) m' := by
  induction xs generalizing x m with
  | nil => exact h.settles_of hserves nofun hsearch
  | cons y ys ih =>
    refine h.settles_of hserves (fun heq h' hsearch' => ?_) hsearch
    obtain ⟨rfl, rfl⟩ := List.cons.inj heq
    exact ih h' hsearch'

/-! ## §3. From one resolvent to the next. -/

/-- **A call takes the machine to the resolvents below.** -/
theorem Ready.expands (h : Ready K P names w (r :: F) m) (hserves : Serves K P kb w) (hsearch : Search kb n m)
    (hgoals : r.goals ≠ []) :
    ∃ m', TransGen (Step w) m m' ∧ Ready K P names w (r.children K P ++ F) m' := by
  cases h with
  | @here _ fs env xs _ hs hcontrol =>
    cases hcontrol with
    | done _ _ _ _ hnone => exact absurd hnone hgoals
    | @chain c label i k tail ps parts hat hchain hcopy hreturns heq =>
      obtain ⟨x, m₁, hsteps, hcalling, rfl, htried⟩ := hs.calls hserves hsearch hat hchain hcopy hreturns heq
      have hsearch₁ := hsearch.of_reaches hserves.equipped hsteps.to_reflTransGen
      have hcallable := hs.context.callable _ (by rw [hcalling.sound.goals]; exact List.mem_cons_self)
      have hpos : x.tried < (x.rules P).length := htried ▸ List.length_pos_of_ne_nil hcallable.defined.rules
      obtain ⟨m₂, hreaches, hready⟩ := hcalling.settles_of hserves
        (fun h' hs' => h'.settles hserves hs') hsearch₁ (List.getElem?_eq_getElem hpos)
      have hahead : x.ahead K P = x.resolvent.children K P := by
        rw [hserves.children_eq hcalling.sound.goals hcallable, Choice.ahead, htried, List.drop_zero,
          Choice.rules]
      rw [hahead] at hready
      exact ⟨m₂, hsteps.trans_left hreaches, hready⟩

/-- A machine that is about to be run. -/
inductive Due (K : Set Constant) (P : List Rule) (names : Set String) (w : World) :
    List Resolvent → Machine → Prop where
  /-- It comes to the resolvents. -/
  | ready {F : List Resolvent} {m m' : Machine} (hreaches : Reaches w m m')
    (h : Ready K P names w F m') : Due K P names w F m
  /-- Its search is over. -/
  | exhausted {m : Machine} (hasked : m.asked = true) (herror : m.error = none) (hended : m.ended = true)
    (hexhausted : m.exhausted = true) : Due K P names w [] m

/-- An answer of the machine for the resolvent, behind which the others are left. -/
structure Answering (K : Set Constant) (P : List Rule) (names : Set String) (kb : KnowledgeBase) (n : Nat)
    (w : World) (r : Resolvent) (F : List Resolvent) (m : Machine) : Prop where
  /-- It is reported. -/
  status : m.status = .answer
  /-- The values of the variables. -/
  yields : r.Yields K names m.answers
  /-- The search goes on when the next answer is asked for. -/
  search : Search kb n m.redo.2
  /-- The others come next. -/
  due : Due K P names w F m.redo.2

/-- **At a success leaf the machine answers.** -/
theorem Ready.answers (h : Ready K P names w (r :: F) m) (hserves : Serves K P kb w) (hsearch : Search kb n m)
    (hnames : ∀ x ∈ names, isRegister x = false ∧ isAnonymous x = false) (hgoals : r.goals = []) :
    ∃ m', Stops w m m' ∧ Answering K P names kb n w r F m' := by
  cases h with
  | @here _ fs env xs _ hs hcontrol =>
    -- Either a goal is left, which the resolvent has none of, or the question has come to its end.
    cases hcontrol with
    | @chain c label i k tail ps parts hat hchain hcopy hreturns heq =>
      obtain ⟨_, _, _, _, _, _, _, hcode, _⟩ := hchain.exists_code
      rw [hgoals] at heq
      exact absurd (List.map_eq_nil_iff.1 (List.append_eq_nil_iff.1 heq.symm).1) hcode.ne_nil
    | @done c label i block hat hblock hi hcurrent =>
      let m' : Machine := { m.counted w { op := .end_ } with ended := true }
      have hadvance : m.advance w = m' := by
        have heval : Exec.eval (Exec.execute w { op := .end_ }) (m.counted w { op := .end_ }) = (.ok (), m') :=
          Exec.eval_endQuery.trans (if_pos hs.success)
        rw [hat.advance_eq hblock hi (room_of_unlimited hserves.unlimited), Exec.perform_eq, heval]
      obtain ⟨hasked, herror, -, hexhausted⟩ := hs.active
      have hstatus : m'.status = .answer := status_eq_answer.2 ⟨rfl, hexhausted⟩
      -- The search goes on from the answer when the next one is asked for.
      have hsearch' : Search kb n m'.redo.2 := by
        refine .redo ?_ hstatus
        rw [← hadvance, ← step_of_active hs.active]
        exact hsearch.step hserves.equipped
      refine ⟨m', ⟨hs.active, hadvance, herror, rfl⟩, hstatus, ?_, hsearch', ?_⟩
      · exact hs.yields hgoals hnames
      · -- The request for the next answer is a failure.
        have hquiet : (m.frame m.current).alternatives = [] :=
          by
          rw [hcurrent]
          exact hs.quiet _ (List.mem_of_getElem? hs.context.root)
        have hreset : Matches m { m' with ended := false, success := false, steps := 0 } := ⟨rfl, rfl, rfl⟩
        obtain ⟨m₁, heval, hfalls⟩ :=
          (hs.backing.of_matches hreset).failure hquiet
        have hredo : m'.redo.2 = m₁ := by
          have hopen : (!m'.asked || m'.error.isSome || m'.exhausted) = false := by
            simp [m', counted, hasked, herror, hexhausted]
          rw [Machine.redo, hopen]
          simp only [Bool.false_eq_true, if_false]
          rw [Exec.perform_eq, heval]
        rw [hredo] at hsearch' ⊢
        cases hfalls with
        | ends => exact .exhausted hasked herror rfl rfl
        | back hmatches hflags hretrying =>
          obtain ⟨m₂, hreaches, hready⟩ :=
            (hretrying ⟨hasked, herror, rfl, hexhausted⟩).settles hserves hsearch'
          exact .ready hreaches hready

/-! ## §4. Runs and the search. -/

section

variable (hserves : Serves K P kb w) (hnames : ∀ x ∈ names, isRegister x = false ∧ isAnonymous x = false)

include hserves in
/-- A resolvent with a goal is replaced by its children. -/
theorem Due.expands (h : Due K P names w (r :: F) m) (hsearch : Search kb n m) (hgoals : r.goals ≠ []) :
    Due K P names w (r.children K P ++ F) m := by
  cases h with
  | ready hreaches h =>
    obtain ⟨m', hsteps, hready⟩ := h.expands hserves (hsearch.of_reaches hserves.equipped hreaches) hgoals
    exact .ready (hreaches.trans hsteps.to_reflTransGen) hready

include hserves hnames in
/-- A resolvent without goals is an answer. -/
theorem Due.answers (h : Due K P names w (r :: F) m) (hsearch : Search kb n m) (hgoals : r.goals = []) :
    ∃ m', RunsTo w m .answer m' ∧ Answering K P names kb n w r F m' := by
  cases h with
  | ready hreaches h =>
    obtain ⟨m', hstops, hanswering⟩ :=
      h.answers hserves (hsearch.of_reaches hserves.equipped hreaches) hnames hgoals
    exact ⟨m', hanswering.status ▸ hreaches.finishes hstops, hanswering⟩

/-- The instruction that ends the search. -/
theorem Over.stops (h : Over w m) : Stops w m (m.advance w) := ⟨h.active, rfl, h.error, h.ended⟩

/-- Where the forest is empty the search is exhausted. -/
theorem Over.status (h : Over w m) : (m.advance w).status = .exhausted := by
  simp [Machine.status, h.ended, h.exhausted]

/-- When nothing is left the machine says so. -/
theorem Due.exhausts (h : Due K P names w [] m) : ∃ m', RunsTo w m .exhausted m' := by
  cases h with
  | @ready _ _ m' hreaches h =>
    cases h with
    | spent hover => exact ⟨_, hover.status ▸ hreaches.finishes hover.stops⟩
  | exhausted hasked herror hended hexhausted =>
    have hstatus : m.status = .exhausted := by simp [Machine.status, hended, hexhausted]
    exact ⟨m, hstatus ▸ finishes_of_exhausted hasked herror hended⟩

include hserves hnames in
/-- **Runs follow the search.** -/
theorem Due.walks (hwalk : Walk K P F as F') (h : Due K P names w F m) (hsearch : Search kb n m) :
    ∃ m', Answered w m as.length m' ∧ Search kb n m' ∧ Due K P names w F' m' := by
  induction hwalk generalizing m with
  | refl => exact ⟨m, .zero, hsearch, h⟩
  | expand hgoals _ ih => exact ih (h.expands hserves hsearch hgoals) hsearch
  | answer hgoals _ ih =>
    obtain ⟨m₁, hfinishes, hanswering⟩ := h.answers hserves hnames hsearch hgoals
    obtain ⟨m', hanswered, hsearch', hdue⟩ := ih hanswering.due hanswering.search
    exact ⟨m', .succ hfinishes hanswered, hsearch', hdue⟩

/-- What the run of a machine in front of a forest comes to. -/
inductive Meets (K : Set Constant) (P : List Rule) (names : Set String) (kb : KnowledgeBase) (n : Nat)
    (w : World) (F : List Resolvent) : Status → Machine → Prop where
  /-- The first success leaf. -/
  | answer {a : Resolvent} {F' : List Resolvent} {m' : Machine} (hwalk : Walk K P F [] (a :: F'))
    (hgoals : a.goals = []) (h : Answering K P names kb n w a F' m') : Meets K P names kb n w F .answer m'
  /-- The end: there are no success leaves. -/
  | exhausted {m' : Machine} (hwalk : Walk K P F [] []) : Meets K P names kb n w F .exhausted m'

/-- What the children meet the resolvent meets. -/
theorem Meets.expand (hgoals : r.goals ≠ []) (h : Meets K P names kb n w (r.children K P ++ F) s m') :
    Meets K P names kb n w (r :: F) s m' := by
  cases h with
  | answer hwalk hnone h => exact .answer (.expand hgoals hwalk) hnone h
  | exhausted hwalk => exact .exhausted (.expand hgoals hwalk)

include hserves hnames in
/-- A run that is not over yet follows the search. -/
theorem Ready.meets {budget t steps : Nat} (h : Ready K P names w F m) (hsearch : Search kb n m)
    (hrun : m.runFrom w budget t = (⟨s, steps, none⟩, m')) (hs : s ≠ .paused) :
    Meets K P names kb n w F s m' := by
  -- The induction is on the budget: a call uses some of it.
  induction budget using Nat.strong_induction_on generalizing F m t with
  | _ budget ih =>
  obtain _ | b := budget
  · exact absurd (congrArg (·.1.status) hrun).symm hs
  cases hF : F with
  | nil =>
    subst hF
    cases h with
    | spent hover =>
      rw [hover.stops.runFrom, hover.status] at hrun
      obtain rfl := congrArg (·.1.status) hrun
      exact .exhausted .refl
  | cons r F =>
    subst hF
    by_cases hgoals : r.goals = []
    · obtain ⟨m₁, hstops, hanswering⟩ := h.answers hserves hsearch hnames hgoals
      rw [hstops.runFrom, hanswering.status] at hrun
      obtain rfl := congrArg (·.1.status) hrun
      obtain rfl := congrArg (·.2) hrun
      exact .answer .refl hgoals hanswering
    · obtain ⟨m₂, hsteps, hready⟩ := h.expands hserves hsearch hgoals
      obtain ⟨m₁, hstep, hreaches⟩ := Relation.TransGen.head'_iff.1 hsteps
      obtain ⟨k, hk, hpaused, -⟩ := Reaches.budget hreaches
      rw [hstep.runFrom] at hrun
      by_cases hle : b ≤ k
      · have hstatus := hpaused b (t + 1) hle
        rw [hrun] at hstatus
        exact absurd hstatus hs
      · obtain ⟨c, rfl⟩ := Nat.exists_eq_add_of_le (Nat.le_of_not_le hle)
        rw [hk] at hrun
        exact .expand hgoals (ih c (by omega) hready
          (hsearch.of_reaches hserves.equipped hsteps.to_reflTransGen) hrun)

include hserves hnames in
/-- **The search follows a run.** -/
theorem Due.meets (h : Due K P names w F m) (hsearch : Search kb n m) (hrun : RunsTo w m s m')
    (hs : s ≠ .paused) : Meets K P names kb n w F s m' := by
  obtain ⟨budget, steps, hrun⟩ := hrun
  cases h with
  | ready hreaches h =>
    rw [run_of_active (hreaches.active_left h.active)] at hrun
    obtain ⟨k, hk, hpaused, -⟩ := hreaches.budget
    -- The budget must last until the search arrives.
    by_cases hle : budget ≤ k
    · have hstatus := hpaused budget 0 hle
      rw [hrun] at hstatus
      exact absurd hstatus hs
    · obtain ⟨c, rfl⟩ := Nat.exists_eq_add_of_le (Nat.le_of_not_le hle)
      rw [hk] at hrun
      exact h.meets hserves hnames (hsearch.of_reaches hserves.equipped hreaches) hrun hs
  | exhausted hasked herror hended hexhausted =>
    have hstatus : m.status = .exhausted := by simp [Machine.status, hended, hexhausted]
    have hreport : m.run w false budget = (⟨.exhausted, 0, none⟩, m) := by
      simp [Machine.run, hasked, herror, hended, hstatus]
    rw [hreport] at hrun
    obtain rfl := congrArg (·.1.status) hrun
    exact .exhausted .refl

include hserves hnames in
/-- The search follows all answers. -/
theorem Due.of_answered {k : Nat} (hanswered : Answered w m k m') (h : Due K P names w F m)
    (hsearch : Search kb n m) :
    ∃ as F', as.length = k ∧ Walk K P F as F' ∧ Search kb n m' ∧ Due K P names w F' m' := by
  induction hanswered generalizing F with
  | zero => exact ⟨[], F, rfl, .refl, hsearch, h⟩
  | succ hrun _ ih =>
    cases h.meets hserves hnames hsearch hrun nofun with
    | answer hwalk hgoals hanswering =>
      obtain ⟨as, F', hlength, hwalk', hsearch', hdue⟩ := ih hanswering.due hanswering.search
      exact ⟨_ :: as, F', congrArg Nat.succ hlength, hwalk.trans (.answer hgoals hwalk'), hsearch', hdue⟩

include hserves hnames in
/-- **Answers are success leaves**: the machine reports as many as a depth-first search meets, in the same
    order. -/
theorem Due.reports_answer {k : Nat} (h : Due K P names w F m) (hsearch : Search kb n m) :
    ((∃ m', Reports w m k .answer m') ↔ ∃ a, OneLeaf K P F k a) ∧
      ∀ m' a, Reports w m k .answer m' → OneLeaf K P F k a → a.Yields K names m'.answers := by
  -- A reported answer comes from the leaf whose turn it is.
  have hfollows : ∀ m', Reports w m k .answer m' → ∃ a, OneLeaf K P F k a ∧ a.Yields K names m'.answers := by
    rintro m' ⟨m₁, hanswered, hrun⟩
    obtain ⟨as, F', hlength, hwalk, hsearch₁, hdue⟩ := Due.of_answered hserves hnames hanswered h hsearch
    cases hdue.meets hserves hnames hsearch₁ hrun nofun with
    | answer hwalk' hgoals hanswering =>
      have hall := hwalk.trans hwalk'
      rw [List.append_nil] at hall
      exact ⟨_, Walk.oneLeaf_iff.2 ⟨as, _, hlength, hgoals, hall⟩, hanswering.yields⟩
  refine ⟨⟨?_, ?_⟩, fun m' a hreports ha => ?_⟩
  · rintro ⟨m', hreports⟩
    obtain ⟨a, ha, -⟩ := hfollows m' hreports
    exact ⟨a, ha⟩
  -- A leaf is reported once the walk has come to it.
  · rintro ⟨a, ha⟩
    obtain ⟨as, F', rfl, hgoals, hwalk⟩ := Walk.oneLeaf_iff.1 ha
    obtain ⟨m₁, hanswered, hsearch₁, hdue⟩ := Due.walks hserves hnames hwalk h hsearch
    obtain ⟨m', hrun, -⟩ := hdue.answers hserves hnames hsearch₁ hgoals
    exact ⟨m', m₁, hanswered, hrun⟩
  · obtain ⟨b, hb, hyields⟩ := hfollows m' hreports
    rwa [ha.unique hb]

include hserves hnames in
/-- **The machine is exhausted when the trees are finite**, after as many answers as they have leaves. -/
theorem Due.reports_exhausted {k : Nat} (h : Due K P names w F m) (hsearch : Search kb n m) :
    (∃ m', Reports w m k .exhausted m') ↔ ∃ as, AllLeaves K P F as ∧ as.length = k := by
  constructor
  · rintro ⟨m', m₁, hanswered, hrun⟩
    obtain ⟨as, F', hlength, hwalk, hsearch₁, hdue⟩ := Due.of_answered hserves hnames hanswered h hsearch
    cases hdue.meets hserves hnames hsearch₁ hrun nofun with
    | exhausted hwalk' =>
      have hall := hwalk.trans hwalk'
      rw [List.append_nil] at hall
      exact ⟨as, Walk.allLeaves_iff.2 hall, hlength⟩
  · rintro ⟨as, hall, rfl⟩
    obtain ⟨m₁, hanswered, -, hdue⟩ := Due.walks hserves hnames (Walk.allLeaves_iff.1 hall) h hsearch
    obtain ⟨m', hrun⟩ := hdue.exhausts
    exact ⟨m', m₁, hanswered, hrun⟩

end

end PrologMachine
