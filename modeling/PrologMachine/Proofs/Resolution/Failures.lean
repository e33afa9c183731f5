/-
  PrologMachine.Proofs.Resolution.Failures ── **GOING BACK.**

  A failure resumes the newest choice.  Its bindings are undone, and its call tries the next clause for the
  goal as it was.  When no clause is left the frame is dropped, and the choice below it is resumed in turn.
  When there is none the search is over.

    * `Backing`: the choices that a failure finds; `Backing.failure`, the newest of them is resumed.
    * `Retrying.retries`, `Retrying.abandons`: the next clause is tried, or the choice is given up.
-/
import PrologMachine.Proofs.Resolution.Clauses

namespace PrologMachine

open Machine Heap

variable {K : Set Constant} {P : List Rule} {names : Set String} {kb : KnowledgeBase} {w : World} {n k : Nat}
  {r : Resolvent} {fs : List FrameId} {env : Copies} {x : Choice} {xs : List Choice} {m m' m₁ : Machine}

/-! ## §1. Failures. -/

/-- The choices `xs` are on the stack, above the frame of the question. -/
structure Backing (K : Set Constant) (P : List Rule) (names : Set String) (xs : List Choice) (m : Machine) :
    Prop where
  /-- They wait. -/
  pending : ∃ fs env, Pending K P names m m.frames.size fs env xs
  /-- They are the stack. -/
  depth : m.depth = xs.length + 1
  /-- The frame of the question. -/
  bottom : m.stack[0]? = some queryFrame

theorem Stage.backing (h : Stage K P names r fs env xs m) : Backing K P names xs m :=
  ⟨⟨fs, env, h.pending⟩, h.depth, h.bottom⟩

theorem Backing.of_matches (h : Backing K P names xs m) (hm : Matches m m') : Backing K P names xs m' := by
  obtain ⟨fs, env, hpending⟩ := h.pending
  refine ⟨⟨fs, env, ?_⟩, (congrArg Array.size hm.stack).trans h.depth, ?_⟩
  · rw [hm.frames]
    exact hpending.of_matches hm
  · rw [hm.stack]
    exact h.bottom

/-- What comes of a failure. -/
inductive Falls (K : Set Constant) (P : List Rule) (names : Set String) (m : Machine) :
    List Choice → Machine → Prop where
  /-- There is no choice: the search is over. -/
  | ends : Falls K P names m [] { m with success := false, ended := true, exhausted := true }
  /-- The newest choice is resumed. -/
  | back {x : Choice} {xs : List Choice} {m' : Machine} (hmatches : Matches m m') (hflags : Flags m m')
    (hretrying : m.Active → Retrying K P names x xs m') : Falls K P names m (x :: xs) m'

/-- **A failure resumes the newest choice**, or the search is over. -/
theorem Backing.failure (h : Backing K P names xs m) (hquiet : (m.frame m.current).alternatives = []) :
    ∃ m', Exec.eval Exec.failure m = (.ok (), m') ∧ Falls K P names m xs m' := by
  obtain ⟨fs, env, hpending⟩ := h.pending
  cases hpending with
  -- Without a choice only the frame of the query is left.
  | nil =>
    have ht : m.top? = some queryFrame := by
      rw [top?_eq_getElem?, h.depth]
      exact h.bottom
    refine ⟨_, ?_, .ends⟩
    rw [eval_failure_quiet hquiet, Exec.eval_headFail]
    exact Exec.eval_backtrackOrEnd (Exec.eval_backtrack_query (m := { m with success := false }) ht)
  -- The frame of the newest choice is on top, and it is resumed.
  | @cons _ _ _ x xs hsound hwaits htried hlt _ _ hrest =>
    have ht : m.top? = some x.frame := by
      rw [top?_eq_getElem?, h.depth]
      exact hwaits.stack
    have hunderway := hwaits.underway hsound ht hlt (by rw [h.depth, List.length_cons]; omega)
    have hpoint := hunderway.choicePoint
    have hmatches : Matches m (m.resumed x.frame x.site.past) := hpoint.matches_resumed
    refine ⟨_, hpoint.eval_failure hquiet, .back hmatches hpoint.flags_resumed fun hactive => ?_⟩
    have hpending : Pending K P names (m.resumed x.frame x.site.past) (x.frame + 1) x.fs x.env (x :: xs) :=
      .of_matches (.cons hsound hwaits htried (Nat.lt_succ_self _) (List.prefix_refl _) (fun _ _ _ => id) hrest)
        hmatches
    cases hpending with
    | cons _ hwaits' htried' _ _ _ hrest' =>
      exact
        { sound := hsound
          waits := hwaits'
          tried := htried'
          failing := hunderway.resumes hactive
          pending := hrest'
          depth := (congrArg Array.size hmatches.stack).trans h.depth
          bottom := (congrArg (·[0]?) hmatches.stack).trans h.bottom }

/-! ## §2. After a failure. -/

/-- The next instruction ends the search. -/
structure Over (w : World) (m : Machine) : Prop where
  /-- The search was going on. -/
  active : m.Active
  /-- There is no error. -/
  error : (m.advance w).error = none
  /-- It ends. -/
  ended : (m.advance w).ended = true
  /-- There are no more answers. -/
  exhausted : (m.advance w).exhausted = true

theorem Retrying.memory (h : Retrying K P names x xs m) (hsearch : Search kb n m) : m.Memory := by
  obtain ⟨block, op, hblock, -, -, hi, -⟩ := h.waits.behind.site.exists_block
  exact hsearch.memory h.failing.active (h.failing.place.fetch_eq hblock hi)

/-- The same choice, with another rule to try. -/
def Choice.try (x : Choice) (j : Nat) : Choice := { x with tried := j }

/-- **The next clause is tried.** -/
theorem Retrying.retries (h : Retrying K P names x xs m) (hserves : Serves K P kb w) (hsearch : Search kb n m)
    (hmore : x.tried + 1 < (x.rules P).length) :
    ∃ m', Reaches w m m' ∧ Calling K P names (x.try (x.tried + 1)) xs m' := by
  have hm := h.memory hsearch
  have hunwindable := hm.unwindable h.failing.top
  obtain ⟨m', hstep, hat, htarget, hcurrent, hheap, hstack, hupdates⟩ :=
    h.failing.retries hserves.unlimited h.waits.behind.site hunwindable
      (by rw [h.tried.clause, h.tried.clauses]; exact hmore)
  -- The frames below keep their variables.
  have hunder := hsearch.under hserves.equipped hm (.single hstep)
  have hsame : ∀ d : Nat, m'.stack[d]? = m.stack[d]? := fun d => by rw [hstack]
  have hcells : m.heap.HasCells m'.heap := by
    rw [hheap]
    exact .resetAll ..
  have hwaits := h.waits.updates h.sound hupdates rfl h.waits.uncut h.waits.uncommitted h.waits.goal
    hcells (hsame _) (hunder _ _ h.waits.stack ((hsame _).trans h.waits.stack))
  refine ⟨m', .single hstep, ?_⟩
  exact
    { sound := ⟨h.sound.goals, h.sound.context, h.sound.older, h.sound.known, h.sound.poses⟩
      waits := ⟨hwaits.stack, hwaits.point, hwaits.uncut, hwaits.uncommitted, hwaits.goal, hwaits.under,
        hwaits.cells, hwaits.held, hwaits.quiet, hwaits.behind⟩
      selecting :=
        { toUnderway := h.failing.toUnderway.updates hupdates rfl rfl rfl hstack
          place := hat
          active := hstep.goes
          target := htarget
          current := hcurrent
          goal := (congrArg (·.get? "$x0") hupdates.self).trans h.waits.goal
          clause := (congrArg Frame.clause hupdates.self).trans (congrArg (· + 1) h.tried.clause)
          trail := congrArg Frame.trail hupdates.self }
      pending := h.pending.carried (.of_others hcells fun f hf => hupdates.others f (Nat.ne_of_lt hf))
        (fun d _ _ => hsame d) hunder
      depth := (congrArg Array.size hstack).trans h.depth
      bottom := (hsame 0).trans h.bottom }

/-- Behind a call that has failed the clause fails. -/
theorem BehindCall.fails {points : FrameId → Option ReturnPoint} {s : Site} {parts : List Part}
    (h : BehindCall points fs env s parts) (w : World) :
    ∃ block instr, s.clause.block? s.label = some block ∧ block[s.index + 3]? = some instr ∧
      ∀ m : Machine, m.success = false →
        Exec.eval (Exec.execute w instr) m = Exec.eval Exec.failure m := by
  have hfail : ∀ (op : Opcode) (m : Machine), op = .maybeFail ∨ op = .end_ ∨ op = .proceed → m.success = false →
      Exec.eval (Exec.execute w { op }) m = Exec.eval Exec.failure m := by
    rintro op m (rfl | rfl | rfl) hs
    · exact Exec.eval_maybeFail.trans (if_neg (by simp [hs]))
    · exact Exec.eval_endQuery.trans (if_neg (by simp [hs]))
    · exact Exec.eval_proceed_failure hs
  cases h with
  | query _ _ _ hgoes =>
    cases hgoes with
    | ends hblock hi => exact ⟨_, _, hblock, hi, fun m => hfail .end_ m (by simp)⟩
    | more hblock hi => exact ⟨_, _, hblock, hi, fun m => hfail .maybeFail m (by simp)⟩
  | clause _ _ _ _ hgoes =>
    cases hgoes with
    | ends hblock hi => exact ⟨_, _, hblock, hi, fun m => hfail .proceed m (by simp)⟩
    | more hblock hi => exact ⟨_, _, hblock, hi, fun m => hfail .maybeFail m (by simp)⟩

/-- **A choice without clauses left is given up**, and the one below it is resumed. -/
theorem Retrying.abandons (h : Retrying K P names x xs m) (hserves : Serves K P kb w) (hsearch : Search kb n m)
    (hlast : (x.rules P).length ≤ x.tried + 1) :
    ∃ m', Reaches w m m' ∧
      ((xs = [] ∧ Over w m') ∨ ∃ y ys, xs = y :: ys ∧ Retrying K P names y ys m') := by
  have hm := h.memory hsearch
  obtain ⟨m₁, hreaches, hleft, hheap, hstack, hothers, hsize⟩ :=
    h.failing.abandons hserves.unlimited h.waits.behind.site (hm.unwindable h.failing.top)
      (by rw [h.tried.clause, h.tried.clauses]; exact hlast)
  have hcells : m.heap.HasCells m₁.heap := by
    rw [hheap]
    exact .resetAll ..
  have hbelow : ∀ d, d < xs.length + 1 → m₁.stack[d]? = m.stack[d]? := by
    intro d hd
    have hdepth : m.stack.size = xs.length + 2 := h.depth
    rw [hstack, Array.getElem?_pop, if_pos (by omega)]
  have hpending := h.pending.carried (.of_others hcells fun f hf => hothers f (Nat.ne_of_lt hf))
    (fun d _ hd => hbelow d (Nat.lt_succ_of_le hd)) (hsearch.under hserves.equipped hm hreaches)
  have hbacking : Backing K P names xs m₁ :=
    { pending := ⟨x.fs, x.env, hpending.mono (by rw [hsize]; exact h.failing.lt.le) (List.prefix_refl _)
        fun _ _ _ => id⟩
      depth := by
        show m₁.stack.size = _
        rw [hstack, Array.size_pop]
        exact congrArg (· - 1) h.depth
      bottom := (hbelow 0 (Nat.succ_pos _)).trans h.bottom }
  -- Behind the call stands an instruction that fails in turn.
  obtain ⟨block, instr, hblock, hi, hfails⟩ := h.waits.behind.fails w
  have hquiet : (m₁.frame m₁.current).alternatives = [] := by
    rw [hleft.current, hothers _ (Nat.ne_of_lt (h.sound.caller h.waits))]
    exact h.failing.quiet
  have hcounted : Matches m₁ (m₁.counted w instr) := ⟨rfl, rfl, rfl⟩
  obtain ⟨m', heval, hfalls⟩ := (hbacking.of_matches hcounted).failure hquiet
  have heval' := (hfails (m₁.counted w instr) hleft.success).trans heval
  have hadvance : m₁.advance w = m' := by
    rw [hleft.place.advance_eq hblock hi (room_of_unlimited hserves.unlimited), Exec.perform_eq, heval']
  cases hfalls with
  | ends =>
    refine ⟨m₁, hreaches, .inl ⟨rfl, hleft.active, ?_, ?_, ?_⟩⟩
    · rw [hadvance]
      exact hleft.active.2.1
    · rw [hadvance]
    · rw [hadvance]
  | back hmatches hflags hretrying =>
    have hactive : (m₁.counted w instr).Active := hleft.active
    exact ⟨m', hreaches.trans (.single ⟨hleft.active, hadvance, hflags.active hactive⟩),
      .inr ⟨_, _, rfl, hretrying hactive⟩⟩

end PrologMachine
