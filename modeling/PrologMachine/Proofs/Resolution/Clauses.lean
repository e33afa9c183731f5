/-
  PrologMachine.Proofs.Resolution.Clauses ── **ENTERING A CLAUSE.**

  A call enters a clause.  When the head does not match, the call is resumed to try the next clause.  When
  it matches, control goes to the body of the clause, or for a fact back to the caller, and from there on
  through all that is at its end, until the next goal is reached or the question is at its end.

    * `BehindCall.proceeds`: from a call that succeeded to the next goal.
    * `Entering.misses`, `Entering.goes`: the head does not match, or it does.
    * `Calling.resolves`: a call tries a clause.
-/
import PrologMachine.Proofs.Resolution.Calls

namespace PrologMachine

open Machine Heap

variable {K : Set Constant} {P : List Rule} {names : Set String} {kb : KnowledgeBase} {w : World} {n k : Nat}
  {r : Resolvent} {fs : List FrameId} {env : Copies} {x : Choice} {xs : List Choice} {m m' m₁ : Machine}
  {cl : Clause} {R : Rule}

/-! ## §1. Machines that match. -/

/-- What was carried stays so while nothing is changed. -/
theorem Carried.of_matches {b : FrameId} (h : Carried b fs env m m₁) (hm : Matches m₁ m') :
    Carried b fs env m m' where
  cells := hm.heap ▸ h.cells
  fields f hf := by
    rw [hm.frame f]
    exact h.fields f hf
  values f hf y t hy ht := by
    rw [hm.frame f]
    exact h.values f hf y t hy ht

/-- Choices wait in the cells, the frames and the stack. -/
theorem Pending.of_matches {b : FrameId} (h : Pending K P names m b fs env xs) (hm : Matches m m') :
    Pending K P names m' b fs env xs :=
  h.carried (.of_others (hm.heap ▸ .refl _) fun f _ => hm.frame f) (fun d _ _ => by rw [hm.stack])
    fun _ _ _ _ _ => bindingUnder_congr hm.stack (fun f => by rw [hm.frame f]) (by rw [hm.heap])

/-- A stage is in the cells, the frames and the stack. -/
theorem Stage.of_matches (hs : Stage K P names r fs env xs m) (hm : Matches m m') (hactive : m'.Active)
    (hsuccess : m'.success = true) : Stage K P names r fs env xs m' where
  context := hs.context
  store := by
    rw [hm.heap]
    exact hs.store
  held k f y t hk hy := by
    rw [hm.frame f]
    exact hs.held k f y t hk hy
  quiet f hf := by
    rw [hm.frame f]
    exact hs.quiet f hf
  bounded f hf := by
    rw [hm.frames]
    exact hs.bounded f hf
  pending := by
    rw [hm.frames]
    exact hs.pending.of_matches hm
  depth := (congrArg Array.size hm.stack).trans hs.depth
  bottom := by
    rw [hm.stack]
    exact hs.bottom
  active := hactive
  success := hsuccess

/-! ## §2. Going on. -/

/-- **Behind a call that succeeded control goes to the next goal**, or to the end of the question. -/
theorem BehindCall.proceeds {points : FrameId → Option ReturnPoint} {s : Site} {parts : List Part}
    (h : BehindCall points fs env s parts) (hw : w.maxSteps ≤ 0) :
    ∀ {m : Machine}, (∀ f, (m.frame f).returnPoint = points f) →
      Left s.clause s.label s.index s.frame true m →
      ∃ m', Reaches w m m' ∧ Matches m m' ∧ m'.Active ∧ m'.success = true ∧ Control fs env parts m' := by
  -- What is behind the call in its own block, and how the block ends, for the two kinds of callers.
  have hmore : ∀ {s : Site} {tail : Instruction} {ps : List Pattern} {rest : List Part} {block : Code}
      {m : Machine}, s.clause.block? s.label = some block →
      block[s.index + 3]? = some { op := .maybeFail } →
      ChainAt tail (env s.copy) s.clause s.label (s.index + 4) ps → fs[s.copy]? = some s.frame →
      Left s.clause s.label s.index s.frame true m →
      Returns (fun f => (m.frame f).returnPoint) fs env s.copy tail s.frame rest →
      ∃ m', Reaches w m m' ∧ Matches m m' ∧ m'.Active ∧ m'.success = true ∧
        Control fs env (ps.map (Prod.mk s.copy) ++ rest) m' := by
    intro s tail ps rest block m hblock hi hchain hcopy hleft hreturns
    have heval : Exec.eval (Exec.execute w { op := .maybeFail }) (m.counted w { op := .maybeFail }) =
        (.ok (), m.counted w { op := .maybeFail }) :=
      Exec.eval_maybeFail.trans (if_pos hleft.success)
    have hstep := hleft.place.step hblock hi (room_of_unlimited hw) hleft.active heval ⟨rfl, rfl, rfl, rfl⟩
    refine ⟨_, .single hstep, ⟨rfl, rfl, rfl⟩, hstep.goes, hleft.success, ?_⟩
    exact .chain hleft.place.counted hchain (hleft.current ▸ hcopy) (hleft.current ▸ hreturns) rfl
  induction h with
  | @query s ps hsite hcopy hroot hgoes =>
    intro m hpoints hleft
    cases hgoes with
    | ends hblock hi =>
      refine ⟨m, .refl m, .refl m, hleft.active, hleft.success, ?_⟩
      exact .done hleft.place hblock hi (hleft.current.trans hroot.1) rfl
    | more hblock hi hchain =>
      have hreturns : Returns (fun f => (m.frame f).returnPoint) fs env s.copy { op := .end_ } s.frame [] :=
        hroot.1.symm ▸ .query hroot.2
      have := hmore hblock hi hchain hcopy hleft hreturns
      rwa [List.append_nil] at this
  | @clause s s' ps parts hsite hcopy hpoint hlt hgoes hrest ih =>
    intro m hpoints hleft
    have hpoint' := (hpoints s.frame).trans hpoint
    cases hgoes with
    | ends hblock hi =>
      obtain ⟨m₁, hr₁, hm₁, hleft₁⟩ := proceed_returns hpoint' hlt hw hrest.site hleft.place hblock hi
        hleft.active hleft.current hleft.success
      obtain ⟨m₂, hr₂, hm₂, hrest₂⟩ := ih (fun f => by rw [hm₁.frame f]; exact hpoints f) hleft₁
      exact ⟨m₂, hr₁.trans hr₂, hm₁.trans hm₂, hrest₂⟩
    | more hblock hi hchain =>
      exact hmore hblock hi hchain hcopy hleft (.clause hpoint' hlt
        (hrest.congr (fun f _ => hpoints f) fun _ _ _ hj => ⟨hj, rfl⟩))

/-! ## §3. Entering a clause. -/

/-- The call of the choice `x` has entered the clause `cl`. -/
structure Entering (K : Set Constant) (P : List Rule) (names : Set String) (x : Choice) (xs : List Choice)
    (cl : Clause) (m : Machine) : Prop where
  /-- The choice. -/
  sound : x.Sound K P names
  /-- Its frame and what is under it. -/
  waits : x.Waits (xs.length + 1) m
  /-- The number of the clause. -/
  tried : x.Tried P m
  /-- The frame has the goal and nothing else. -/
  enters : EntersHead cl x.frame (.struct x.goal) m
  /-- There are no other alternatives. -/
  alone : (m.frame x.frame).alternatives = []
  /-- The goal on the heap. -/
  poses : ∃ Q, Poses K x.resolvent.unified x.env Q m.heap x.part x.goal
  /-- The search goes on. -/
  active : m.Active
  /-- The other calls wait. -/
  pending : Pending K P names m x.frame x.fs x.env xs
  /-- They are the stack. -/
  depth : m.depth = xs.length + 2
  /-- The frame of the question. -/
  bottom : m.stack[0]? = some queryFrame

/-- The machine is at the call. -/
theorem Calling.memory (h : Calling K P names x xs m) (hsearch : Search kb n m) : m.Memory := by
  obtain ⟨block, op, hblock, -, hi, -⟩ := h.waits.behind.site.exists_block
  exact hsearch.memory h.selecting.active (h.selecting.place.fetch_eq hblock hi)

/-- **A call enters a clause of a rule.** -/
theorem Calling.enters (h : Calling K P names x xs m) (hserves : Serves K P kb w) (hsearch : Search kb n m)
    (hR : (x.rules P)[x.tried]? = some R) :
    ∃ cl m', cl.Implements R ∧ Step w m m' ∧ Entering K P names x xs cl m' := by
  have hm := h.memory hsearch
  obtain ⟨Q, hposes⟩ := h.sound.poses
  have hextends := h.waits.extends hm h.selecting.top h.depth h.selecting.trail
  have hposes' := hposes.extend hextends
  have hdefined := (h.sound.context.callable _ (by rw [h.sound.goals]; exact List.mem_cons_self)).defined
  -- The clauses of the predicate stand in for its rules one by one.
  obtain ⟨cs, hcs, hall⟩ := hserves.clauses _ hdefined.unreserved hdefined.rules
  obtain ⟨cl, hcl, himplements⟩ : ∃ cl, cs[x.tried]? = some cl ∧ cl.Implements R := by
    obtain ⟨hlt, heq⟩ := List.getElem?_eq_some_iff.1 hR
    have hlt' : x.tried < cs.length := hall.length_eq ▸ hlt
    refine ⟨cs[x.tried], List.getElem?_eq_getElem hlt', ?_⟩
    rw [← heq]
    exact hall.get hlt' hlt
  have hnative : cl.native = false := by
    obtain ⟨_, _, _, _, hc⟩ := himplements
    exact hc.native
  -- The step that enters the clause changes the frame of the call only.
  obtain ⟨m', hstep, hentered, hheap, hstack, hupdates⟩ := h.selecting.enters hserves.unlimited
    h.waits.behind.site rfl (hposes'.signature ▸ hcs) hcl hnative
  have hunder := hsearch.under hserves.equipped hm (.single hstep)
  have hsame : ∀ d : Nat, m'.stack[d]? = m.stack[d]? := fun d => by rw [hstack]
  have hcells : m.heap.HasCells m'.heap := hheap ▸ .refl _
  refine ⟨cl, m', himplements, hstep, ?_⟩
  exact
    { sound := h.sound
      waits := h.waits.updates h.sound hupdates rfl rfl h.selecting.uncommitted rfl hcells (hsame _)
        (hunder _ _ h.waits.stack ((hsame _).trans h.waits.stack))
      tried := ⟨by rw [hupdates.self]; exact hall.length_eq, by rw [hupdates.self]; exact h.selecting.clause⟩
      enters :=
        { head := ⟨hentered.place.code, hentered.place.label, hentered.place.index, hentered.current,
            by rw [top?, hstack]; exact h.selecting.top, by rw [hupdates.size]; exact h.selecting.lt,
            hentered.success⟩
          vars := by rw [hupdates.self]
          register := hentered.register }
      alone := by rw [hupdates.self]
      poses := ⟨_, hheap.symm ▸ hposes'⟩
      active := hentered.active
      pending := h.pending.carried (.of_others hcells fun f hf => hupdates.others f (Nat.ne_of_lt hf))
        (fun d _ _ => hsame d) hunder
      depth := (congrArg Array.size hstack).trans h.depth
      bottom := (hsame 0).trans h.bottom }

/-- The code of a head ends with a jump or a return. -/
theorem decodeHead_ends (name : String) {args : List Term} (hasBody : Bool) {e : Emitter}
    (hargs : Term.AllNamed args) (hseen : e.seen = []) :
    ∃ code, (Emit.eval (decodeHead name args hasBody) e).1 = code ++ [headEnd hasBody] := by
  cases args with
  | nil => exact ⟨[getStruct name 0 0], decodeHead_nil name hasBody e⟩
  | cons a as =>
    obtain ⟨out, -, -, hcode, -⟩ :=
      decodeHead_equations (e := e) Set.univ name hasBody hargs (List.cons_ne_nil a as) hseen
    exact ⟨out.1, hcode⟩

namespace Entering

/-- The code of the head is there. -/
theorem memory (h : Entering K P names x xs cl m) (himplements : cl.Implements R) (hsearch : Search kb n m) :
    m.Memory := by
  obtain ⟨name, args, hasBody, e, hc⟩ := himplements
  obtain ⟨code, hcode⟩ := decodeHead_ends name hasBody hc.named hc.fresh
  have hi : ∃ instr, (code ++ [headEnd hasBody])[0]? = some instr := by cases code <;> exact ⟨_, rfl⟩
  obtain ⟨instr, hi⟩ := hi
  have hat : At cl headLabel 0 m := ⟨h.enters.head.code, h.enters.head.label, h.enters.head.index⟩
  exact hsearch.memory h.active (hat.fetch_eq (hc.headCode.trans (congrArg some hcode)) hi)

/-- The call is under way. -/
theorem underway (h : Entering K P names x xs cl m) :
    Underway x.site.clause x.site.label x.site.index x.site.frame x.frame m :=
  h.waits.underway h.sound h.enters.head.top h.enters.head.frame (by rw [h.depth]; omega)

/-- What head code does disturbs nothing that waits. -/
theorem carried (h : Entering K P names x xs cl m) (hc : Confined m m') (hgrows : m.scope.Grows m'.scope) :
    Carried (x.frame + 1) x.fs x.env m m' :=
  .of_confined hc hgrows h.enters.head.current h.sound.older

end Entering

/-- Head code that runs is reached. -/
theorem Machine.TreadsHead.reaches {c : Clause} {f : FrameId} {i : Nat} (h : TreadsHead w c f i n m)
    (hactive : m.Active) : Reaches w m ((advance w)^[n] m) := by
  have hall : ∀ k ≤ n, Reaches w m ((advance w)^[k] m) := by
    intro k
    induction k with
    | zero => exact fun _ => .refl m
    | succ k ih =>
      intro hk
      refine (ih (Nat.le_of_succ_le hk)).trans (.single ⟨?_, ?_, ?_⟩)
      · exact (h.confined k (Nat.le_of_succ_le hk)).flags.active hactive
      · exact (Function.iterate_succ_apply' ..).symm
      · exact (h.confined (k + 1) hk).flags.active hactive
  exact hall n le_rfl

namespace Entering

/-- **A head that does not match**: the call has failed. -/
theorem misses (h : Entering K P names x xs cl m) (himplements : cl.Implements R)
    (hserves : Serves K P kb w) {n₀ : Nat} (hsearch : Search kb n₀ m)
    (hmisses : MissesHead w cl x.frame 0 n m) :
    ∃ m', Reaches w m m' ∧ Retrying K P names x xs m' := by
  obtain ⟨k, -, htreads, m₁, hhead, hfail, hconfined, hgrows⟩ := hmisses.exists_fail
  have hm := h.memory himplements hsearch
  have hcurrent := h.enters.head.current
  have hcaller := h.sound.caller h.waits
  have hfield : ∀ {α : Type} (p : Frame → α), (∀ fr : Frame, p { fr with vars := [], trail := [] } = p fr) →
      p (m₁.frame x.frame) = p (m.frame x.frame) := by
    intro α p hp
    rw [← hp (m₁.frame x.frame), ← hcurrent, hconfined.fields, hp]
  have hunderway : Underway x.site.clause x.site.label x.site.index x.site.frame x.frame m₁ :=
    h.underway.later (hfield Frame.returnPoint fun _ => rfl) (hfield Frame.cutTo fun _ => rfl)
      (hfield Frame.committed fun _ => rfl)
      (hconfined.others _ (by rw [hcurrent]; exact Nat.ne_of_lt hcaller)) hconfined.size.ge hconfined.stack
  have hpoint := hunderway.choicePoint
  have hactive : m₁.Active := hconfined.flags.active h.active
  -- The mismatch resumes the call.
  have hresumed : (advance w)^[k + 1] m = m₁.resumed x.frame x.site.past := by
    rw [hfail, Exec.perform_eq, hpoint.eval_headFail]
    rfl
  have hfailing : Failing x.site.clause x.site.label x.site.index x.site.frame x.frame
      (m₁.resumed x.frame x.site.past) := hunderway.resumes hactive
  have hmatches : Matches m₁ (m₁.resumed x.frame x.site.past) := hpoint.matches_resumed
  have hreaches : Reaches w m (m₁.resumed x.frame x.site.past) := by
    refine (htreads.reaches h.active).trans (.single ⟨?_, ?_, hfailing.active⟩)
    · exact (htreads.confined k le_rfl).flags.active h.active
    · exact (Function.iterate_succ_apply' ..).symm.trans hresumed
  have hcarried := (h.carried hconfined hgrows).of_matches hmatches
  have hunder := hsearch.under hserves.equipped hm hreaches
  have hsame : ∀ d : Nat, (m₁.resumed x.frame x.site.past).stack[d]? = m.stack[d]? := fun d => by
    rw [hmatches.stack, hconfined.stack]
  exact ⟨_, hreaches,
    { sound := h.sound
      waits := h.waits.carried hcarried (Nat.lt_succ_self _) hcaller h.sound.older (hsame _)
        (hunder _ _ h.waits.stack ((hsame _).trans h.waits.stack))
      tried := h.tried.carried hcarried (Nat.lt_succ_self _)
      failing := hfailing
      pending := h.pending.carried (hcarried.mono (Nat.le_succ _) (List.prefix_refl _) fun _ _ _ => id)
        (fun d _ _ => hsame d) hunder
      depth := (congrArg Array.size (hmatches.stack.trans hconfined.stack)).trans h.depth
      bottom := (hsame 0).trans h.bottom }⟩

end Entering

/-! ## §4. Going on in a clause. -/

/-- The resolvent after the head: the body's goals in front of the others. -/
theorem Resolvent.resolve_of_goals {g : Part} {gs : List Part} (h : r.goals = g :: gs) (R : Rule) :
    r.resolve R =
      { goals := R.body.map (Prod.mk r.copies) ++ gs
        unified := (g, (r.copies, R.head)) :: r.unified
        copies := r.copies + 1 } := by
  rw [Resolvent.resolve, h]

/-- The values of the copies when the clause with this head has been entered. -/
def Choice.entered (x : Choice) (R : Rule) (σ : String → Option Value) : Copies :=
  Function.update x.env x.fs.length (R.head.named σ)

section

variable {σ : String → Option Value}

/-- Older frames keep their variables. -/
theorem Choice.entered_of_lt {k : Nat} (hk : k < x.fs.length) : x.entered R σ k = x.env k :=
  Function.update_of_ne (Nat.ne_of_lt hk) ..

/-- The new frame has the variables of the head. -/
theorem Choice.entered_self : x.entered R σ x.fs.length = R.head.named σ := Function.update_self ..

/-- What a variable had, it has still. -/
theorem Choice.Sound.entered_of_some (hs : x.Sound K P names) {k : Nat} {y : String} {t : Value}
    (hy : x.env k y = some t) : x.entered R σ k y = some t := by
  rw [Choice.entered_of_lt, hy]
  by_contra hk
  rw [hs.context.fresh k (Nat.not_lt.1 hk)] at hy
  cases hy

/-- The copies of a resolvent that comes of a rule. -/
theorem Choice.Sound.resolve (hs : x.Sound K P names) (hbody : ∀ p ∈ R.body, p.Callable K P) :
    Context K P names (x.resolvent.resolve R) (x.fs ++ [x.frame]) (x.entered R σ) := by
  have hroot : 0 < x.fs.length := (List.getElem?_eq_some_iff.1 hs.context.root).1
  rw [Resolvent.resolve_of_goals hs.goals]
  exact
    { copies := by
        rw [List.length_append, List.length_singleton, hs.context.copies]
      fresh := fun k hk y => by
        rw [List.length_append, List.length_singleton] at hk
        rw [Choice.entered, Function.update_of_ne (Nat.ne_of_gt hk)]
        exact hs.context.fresh k (Nat.le_of_succ_le hk) y
      nodup := by
        refine List.nodup_append.2 ⟨hs.context.nodup, List.nodup_singleton _, fun f hf f' hf' => ?_⟩
        obtain rfl := List.mem_singleton.1 hf'
        exact Nat.ne_of_lt (hs.older f hf)
      root := get?_of_longer (List.prefix_append _ _) hs.context.root
      -- A goal is one of the body's or one of those that were waiting.
      callable := fun q hq => by
        rcases List.mem_append.1 hq with hq | hq
        · obtain ⟨p, hp, rfl⟩ := List.mem_map.1 hq
          exact hbody p hp
        · exact hs.context.callable q (by rw [hs.goals]; exact List.mem_cons_of_mem _ hq)
      named := fun y hy => by
        rw [Choice.entered_of_lt hroot]
        -- A name of the question is bound already or occurs in a goal still to come.
        rcases hs.context.named y hy with hsome | ⟨p, hp, hmem⟩
        · exact .inl hsome
        · rw [hs.goals] at hp
          rcases List.mem_cons.1 hp with hp | hp
          · have hknown := hs.known y (by rw [← hp]; exact hmem)
            rw [← hp] at hknown
            exact .inl hknown
          · exact .inr ⟨p, List.mem_append_right _ hp, hmem⟩
      cells := fun y t hy => by
        rw [Choice.entered_of_lt hroot] at hy
        exact hs.context.cells y t hy }

namespace Entering

/-- The machine is at the resolvent of the rule when its head has matched. -/
theorem stage (h : Entering K P names x xs cl m) (hserves : Serves K P kb w) {n₀ : Nat}
    (himplements : cl.Implements R) (hsearch : Search kb n₀ m) (hR : R ∈ P)
    (hruns : TreadsHead w cl x.frame 0 n m) (hgrows : m.scope.Grows ((advance w)^[n] m).scope)
    (hstore : ∃ Q, Store K ((x.part, (x.fs.length, R.head)) :: x.resolvent.unified)
      (x.entered R ((advance w)^[n] m).value?) Q ((advance w)^[n] m).heap) :
    Stage K P names (x.resolvent.resolve R) (x.fs ++ [x.frame]) (x.entered R ((advance w)^[n] m).value?)
      (x :: xs) ((advance w)^[n] m) := by
  have hm := h.memory himplements hsearch
  have hconfined := hruns.confined n le_rfl
  have hhead := hruns.runs n le_rfl
  have hreaches := hruns.reaches h.active
  have hcurrent := h.enters.head.current
  have hcarried := h.carried hconfined hgrows
  have hunder := hsearch.under hserves.equipped hm hreaches
  have hsame : ∀ d : Nat, ((advance w)^[n] m).stack[d]? = m.stack[d]? := fun d => by rw [hconfined.stack]
  have hwaits : x.Waits (xs.length + 1) ((advance w)^[n] m) :=
    h.waits.carried hcarried (Nat.lt_succ_self _) (h.sound.caller h.waits) h.sound.older (hsame _)
      (hunder _ _ h.waits.stack ((hsame _).trans h.waits.stack))
  exact
    { context := h.sound.resolve (hserves.bodies R hR)
      store := by
        rw [Resolvent.resolve_of_goals h.sound.goals, ← h.sound.context.copies]
        exact hstore
      held := fun k f y t hk hy => by
        -- A frame of the resolvent is an older one or that of the clause.
        by_cases hlt : k < x.fs.length
        · rw [List.getElem?_append_left hlt] at hk
          rw [Choice.entered_of_lt hlt] at hy
          exact hwaits.held k f y t hk hy
        · obtain ⟨hle, -⟩ := List.getElem?_eq_some_iff.1 hk
          rw [List.length_append, List.length_singleton] at hle
          obtain rfl : k = x.fs.length := by omega
          rw [List.getElem?_concat_length] at hk
          obtain rfl := Option.some.inj hk
          rw [Choice.entered_self] at hy
          rw [← hcurrent, ← hconfined.current]
          exact (Pattern.named_eq_some.1 hy).2
      quiet := fun f hf => by
        rcases List.mem_append.1 hf with hf | hf
        · exact hwaits.quiet f hf
        · obtain rfl := List.mem_singleton.1 hf
          exact (hcarried.field (Nat.lt_succ_self _) Frame.alternatives fun _ => rfl).trans h.alone
      bounded := fun f hf => by
        rw [hconfined.size]
        rcases List.mem_append.1 hf with hf | hf
        · exact (h.sound.older f hf).trans h.enters.head.frame
        · obtain rfl := List.mem_singleton.1 hf
          exact h.enters.head.frame
      pending := .cons h.sound hwaits (h.tried.carried hcarried (Nat.lt_succ_self _))
        (by rw [hconfined.size]; exact h.enters.head.frame) (List.prefix_append _ _)
        (fun _ _ _ => h.sound.entered_of_some)
        (h.pending.carried (hcarried.mono (Nat.le_succ _) (List.prefix_refl _) fun _ _ _ => id)
          (fun d _ _ => hsame d) hunder)
      depth := (congrArg Array.size hconfined.stack).trans h.depth
      bottom := (hsame 0).trans h.bottom
      active := hconfined.flags.active h.active
      success := hhead.success }

/-- **A head that matches**: control goes to the goals of the rule, or behind the call. -/
theorem goes {name : String} {args : List Term} {hasBody : Bool} {e : Emitter}
    (h : Entering K P names x xs cl m) (hserves : Serves K P kb w) (hc : cl.Coded R name args hasBody e)
    (hruns : TreadsHead w cl x.frame 0 ((Emit.eval (decodeHead name args hasBody) e).1.length - 1) m)
    (hs : Stage K P names (x.resolvent.resolve R) (x.fs ++ [x.frame]) (x.entered R σ) (x :: xs)
      ((advance w)^[(Emit.eval (decodeHead name args hasBody) e).1.length - 1] m))
    (hnames : ∀ y ∈ R.head.names, (σ y).isSome) :
    ∃ m', Reaches w m m' ∧
      Stage K P names (x.resolvent.resolve R) (x.fs ++ [x.frame]) (x.entered R σ) (x :: xs) m' ∧
      Control (x.fs ++ [x.frame]) (x.entered R σ) (x.resolvent.resolve R).goals m' := by
  have hreaches := hruns.reaches h.active
  have hhead := hruns.runs _ le_rfl
  obtain ⟨code, hcode⟩ := decodeHead_ends name hasBody hc.named hc.fresh
  have hlength : (Emit.eval (decodeHead name args hasBody) e).1.length - 1 = code.length := by
    rw [hcode, List.length_append, List.length_singleton, Nat.add_sub_cancel]
  rw [hlength] at hreaches hhead hs
  have hblock := hc.headCode.trans (congrArg some hcode)
  generalize (advance w)^[code.length] m = m₁ at hreaches hhead hs
  have hat : At cl headLabel code.length m₁ := ⟨hhead.code, hhead.label, by rw [hhead.index, Nat.zero_add]⟩
  have hi : (code ++ [headEnd hasBody])[code.length]? = some (headEnd hasBody) := List.getElem?_concat_length
  obtain ⟨hwaits, hcaller⟩ : x.Waits (xs.length + 1) m₁ ∧ x.site.frame < x.frame := by
    cases hs.pending with
    | cons hsound hwaits => exact ⟨hwaits, hsound.caller hwaits⟩
  -- What is behind the call does not depend on the new copy.
  have hbehind : BehindCall (fun f => (m₁.frame f).returnPoint) (x.fs ++ [x.frame]) (x.entered R σ)
      x.site x.rest :=
    hwaits.behind.congr (fun _ _ => rfl) fun k f _ hk =>
      ⟨get?_of_longer (List.prefix_append _ _) hk, Choice.entered_of_lt (List.getElem?_eq_some_iff.1 hk).1⟩
  cases hasBody with
  | true =>
    obtain ⟨body, hbody, hchain⟩ := hc.bodyCode rfl
    have heval : Exec.eval (Exec.execute w (headEnd true)) (m₁.counted w (headEnd true)) =
        (.ok (), { m₁.counted w (headEnd true) with label := bodyLabel, index := 0 }) := rfl
    have hstep := hat.step hblock hi (room_of_unlimited hserves.unlimited) hs.active heval ⟨rfl, rfl, rfl, rfl⟩
    refine ⟨_, hreaches.trans (.single hstep), hs.of_matches ⟨rfl, rfl, rfl⟩ hstep.goes hs.success, ?_⟩
    refine @Control.chain _ _ _ _ cl bodyLabel 0 x.fs.length { op := .proceed } R.body x.rest
      ⟨hhead.code, rfl, rfl⟩
      ⟨⟨body, body, _, _, _, hbody, ⟨[], (List.append_nil _).symm⟩, hchain, fun y => ?_⟩⟩ ?_ ?_ ?_
    · rw [Choice.entered_self, Pattern.named, (decodeHead_emitted name true hc.named hc.fresh).seen y,
        ← hc.head]
      split
      next hy => exact iff_of_true hy (hnames y hy)
      next hy => exact iff_of_false hy (by simp)
    · rw [List.getElem?_concat_length]
      exact congrArg some hhead.current.symm
    · show Returns _ _ _ _ _ m₁.current _
      rw [hhead.current]
      exact .clause hwaits.point hcaller hbehind
    · rw [Resolvent.resolve_of_goals h.sound.goals, ← h.sound.context.copies]
  | false =>
    obtain ⟨m₂, hr₂, hm₂, hleft⟩ := proceed_returns hwaits.point hcaller hserves.unlimited
      hwaits.behind.site hat hblock hi hs.active hhead.current hs.success
    obtain ⟨m₃, hr₃, hm₃, hactive, hsuccess, hcontrol⟩ :=
      hbehind.proceeds hserves.unlimited (fun f => by rw [hm₂.frame f]) hleft
    refine ⟨m₃, (hreaches.trans hr₂).trans hr₃, hs.of_matches (hm₂.trans hm₃) hactive hsuccess, ?_⟩
    rw [Resolvent.resolve_of_goals h.sound.goals, hc.fact rfl]
    exact hcontrol

end Entering

end

/-- **A call tries a rule**: it fails when the rule cannot be used, and otherwise control goes to the goals
    of the resolvent that comes of the rule. -/
theorem Calling.resolves (h : Calling K P names x xs m) (hserves : Serves K P kb w) (hsearch : Search kb n m)
    (hR : (x.rules P)[x.tried]? = some R) :
    (¬ (x.resolvent.resolve R).Solvable K ∧ ∃ m', Reaches w m m' ∧ Retrying K P names x xs m') ∨
    ((x.resolvent.resolve R).Solvable K ∧ ∃ fs env m', Reaches w m m' ∧
      Stage K P names (x.resolvent.resolve R) fs env (x :: xs) m' ∧
      Control fs env (x.resolvent.resolve R).goals m') := by
  obtain ⟨cl, m₁, himplements, hstep, hentering⟩ := h.enters hserves hsearch hR
  have hsearch₁ := hsearch.of_reaches hserves.equipped (.single hstep)
  obtain ⟨name, args, hasBody, e, hc⟩ := id himplements
  -- The head of the rule and the goal have the same predicate.
  obtain ⟨Q, hposes⟩ := hentering.poses
  obtain ⟨hRP, hsignature⟩ : R ∈ P ∧ R.signature = x.part.2.signature := by
    simpa [Choice.rules, candidates] using List.mem_of_getElem? hR
  have hhead : x.part.2.signature = ⟨name, args.length⟩ := by
    rw [← hsignature, Rule.signature, hc.head, signature_headPattern name e hc.named]
  have hpairs : (x.resolvent.resolve R).unified =
      (x.part, (x.fs.length, R.head)) :: x.resolvent.unified := by
    rw [Resolvent.resolve_of_goals h.sound.goals, h.sound.context.copies]
  have hresolves := hentering.enters.resolves hserves.equal hposes
    (h.sound.context.fresh _ le_rfl) hc.named hc.fresh hhead
    (fun c hmem => hserves.heads R hRP c (by rw [hc.head]; exact hmem)) hc.headCode hserves.unlimited
  rw [← hc.head] at hresolves
  rw [Resolvent.Solvable, hpairs]
  -- A goal that misses the head has no unifier, and one that meets it is replaced by the body.
  cases hresolves with
  | missed hmisses hnone =>
    obtain ⟨m', hreaches, hretrying⟩ := hentering.misses himplements hserves hsearch₁ hmisses
    exact .inl ⟨hnone, m', (Reaches.single hstep).trans hreaches, hretrying⟩
  | @matched Q' hruns hgrows hstore hnames =>
    have hstage := hentering.stage hserves himplements hsearch₁ hRP hruns hgrows ⟨Q', hstore⟩
    obtain ⟨m', hreaches, hstage', hcontrol⟩ := hentering.goes hserves hc hruns hstage hnames
    exact .inr ⟨hstore.solvable, _, _, m', (Reaches.single hstep).trans hreaches, hstage', hcontrol⟩

end PrologMachine
