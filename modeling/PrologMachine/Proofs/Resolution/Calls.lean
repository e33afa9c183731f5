/-
  PrologMachine.Proofs.Resolution.Calls ── **CALLING THE FIRST GOAL.**

  The code of a goal builds it on the heap and sets its call up.  Names that have not occurred before get
  new cells, nothing is bound, and the call waits on the stack from then on.

    * `Chain.uncons`: the code of the first goal, and what is behind it.
    * `Called.extends`, `Called.renews`: what building the goal does to the heap and to the names.
    * `Stage.calls`: a machine in front of the goals of a resolvent comes to the call of the first one.
-/
import PrologMachine.Proofs.Resolution.Stages

namespace PrologMachine

open Machine Heap

variable {K : Set Constant} {P : List Rule} {names : Set String} {kb : KnowledgeBase} {w : World} {n : Nat}
  {r : Resolvent} {fs : List FrameId} {env : Copies} {x : Choice} {xs : List Choice} {m m' : Machine}
  {tail : Instruction} {seen : List String} {compiler i k : Nat} {ps : List Pattern} {code : Code}
  {c : Clause} {label : String} {g : Goal} {e : Emitter} {op : Opcode} {s : StructId}
  {news : List (String × VarId)} {others : List VarId} {σ : String → Option Value}

/-! ## §1. The code of the first goal. -/

/-- What stands behind a call in a chain. -/
inductive ChainRest (tail : Instruction) (compiler : Nat) (seen : List String) (n : Nat) :
    List Pattern → Code → Prop where
  /-- The end. -/
  | ends : ChainRest tail compiler seen n [] [tail]
  /-- A check of the outcome, and more calls. -/
  | more {ps : List Pattern} {code : Code} (hrest : Chain tail compiler seen n ps code) :
    ChainRest tail compiler seen n ps ({ op := .maybeFail } :: code)

/-- A chain starts with a call. -/
theorem Chain.uncons (h : Chain tail compiler seen n ps code) :
    ∃ (g : Goal) (e : Emitter) (op : Opcode) (ps' : List Pattern) (rest : Code),
      ps = g.pattern e.compiler e.constants :: ps' ∧ code = callCode g e op ++ rest ∧
      (op = .call ∨ op = .bcall) ∧ Term.AllNamed g.args ∧ e.seen = seen ∧
      ∃ n', ChainRest tail compiler ((Emit.eval (buildGoal g) e).2.seen) n' ps' rest := by
  cases h with
  | @last g e op hop hargs hcompiler =>
    subst hcompiler
    exact ⟨g, e, op, [], [tail], rfl, rfl, hop, hargs, rfl, 0, .ends⟩
  | @more g e op ps code hop hargs hcompiler hrest =>
    subst hcompiler
    exact ⟨g, e, op, ps, _, rfl, rfl, hop, hargs, rfl, _, .more hrest⟩

/-- Behind the call the block goes on with the other goals. -/
theorem ChainRest.goesOn {block rest : Code} {site : Site}
    (h : ChainRest tail compiler seen n ps rest) (hblock : site.clause.block? site.label = some block)
    (hseg : Segment block (site.index + 3) rest) (hseen : ∀ x, x ∈ seen ↔ (σ x).isSome) :
    site.GoesOn tail σ ps := by
  cases h with
  | ends => exact .ends hblock hseg.head
  | more hrest => exact .more hblock hseg.head ⟨⟨block, _, compiler, n, seen, hblock, hseg.tail, hrest, hseen⟩⟩

/-! ## §2. What building a goal does. -/

/-- Cells that are what they were, and new ones. -/
theorem Heap.Grown.later {h h' : Heap} (hg : Grown [] h h') : h.Later h' where
  vars := hg.size
  structs := by
    by_contra hsize
    have hlt := Nat.not_le.1 hsize
    have hlast := hg.structs h'.structs.size _ (Array.getElem?_eq_getElem hlt)
    rw [Array.getElem?_size] at hlast
    cases hlast
  cells s hs := by
    have hcell := Array.getElem?_eq_getElem hs
    rw [structCell_of_get hcell, structCell_of_get (hg.structs s _ hcell)]
  keeps v t hv := (hg.bindings v (lt_size_of_binding? hv) List.not_mem_nil).trans hv

namespace Machine.Called

variable {y : String}

/-- Nothing is bound. -/
theorem extend (h : Called c label i g e.seen news others s m m') (hr : Raised g e news others s m m')
    (hm : m'.Memory) : m.heap.Extends m'.heap :=
  ⟨h.grown.later, hr.bindings, hm.good⟩

/-- A new name has its cell as value. -/
theorem new_value (h : Called c label i g e.seen news others s m m') (hy : y ∈ news.map Prod.fst) :
    ∃ v, (y, v) ∈ news ∧ m'.value? y = some (.var v) := by
  cases hlookup : news.lookup y with
  | none =>
    obtain ⟨entry, hentry, rfl⟩ := List.mem_map.1 hy
    exact absurd (List.lookup_eq_none_iff.1 hlookup entry hentry) (by simp)
  | some v =>
    obtain ⟨before, behind, rfl, -⟩ := List.lookup_eq_some_iff.1 hlookup
    refine ⟨v, by simp, ?_⟩
    rw [h.entries, hlookup]
    rfl

/-- No other name gets another value. -/
theorem old_value (h : Called c label i g e.seen news others s m m') (hy : y ∉ news.map Prod.fst) :
    m'.value? y = m.value? y := by
  have hlookup : news.lookup y = none := by
    rw [List.lookup_eq_none_iff]
    intro entry hentry
    rw [bne_iff_ne]
    rintro rfl
    exact hy (List.mem_map_of_mem hentry)
  rw [h.entries, hlookup]
  rfl

/-- **What building a goal does to the names of the clause**, which have the values `σ` before. -/
theorem renews (h : Called c label i g e.seen news others s m m') (hr : Raised g e news others s m m')
    (hseen : ∀ y, y ∈ e.seen ↔ (σ y).isSome) (hheld : ∀ y t, σ y = some t → m.value? y = some t)
    (hholds : ∀ y t, σ y = some t → m.heap.Holds t) :
    Renews m.heap m'.heap σ (m'.known (Emit.eval (buildGoal g) e).2.seen) others := by
  -- A name keeps its value, or its value is its new cell.
  have hcases : ∀ y t, m'.known (Emit.eval (buildGoal g) e).2.seen y = some t →
      σ y = some t ∨ ∃ v, (y, v) ∈ news ∧ t = .var v := by
    intro y t hy
    rw [known] at hy
    split at hy
    next hoccurred =>
      rcases (hr.occurred y).1 hoccurred with hold | hnew
      · obtain ⟨u, hu⟩ := Option.isSome_iff_exists.1 ((hseen y).1 hold)
        rw [hr.kept y hold (by rw [hheld y u hu]; rfl), hheld y u hu] at hy
        exact .inl (hu.trans hy)
      · obtain ⟨v, hv, hvalue⟩ := h.new_value hnew
        exact .inr ⟨v, hv, Option.some.inj (hy.symm.trans hvalue)⟩
    next => cases hy
  have hnew : ∀ y v, m.heap.vars.size ≤ v →
      m'.known (Emit.eval (buildGoal g) e).2.seen y = some (.var v) → (y, v) ∈ news := by
    intro y v hv hy
    rcases hcases y _ hy with hold | ⟨v', hmem, heq⟩
    · exact absurd (hholds y _ hold) (Nat.not_lt.2 hv)
    · obtain rfl := Value.var.inj heq
      exact hmem
  obtain ⟨hcells, hothers, hapart⟩ := List.nodup_append.1 h.distinct
  exact
    { old := fun y t hy => by
        have hold := (hseen y).2 (by rw [hy]; rfl)
        rw [known, if_pos ((hr.occurred y).2 (.inl hold)),
          hr.kept y hold (by rw [hheld y t hy]; rfl), hheld y t hy]
      new := fun y t hy => (hcases y t hy).imp_right <| by
        rintro ⟨v, hv, heq⟩
        obtain ⟨hle, hlt, -⟩ := h.new v (List.mem_append_left _ (List.mem_map_of_mem (f := Prod.snd) hv))
        exact ⟨v, heq, hle, hlt⟩
      distinct := fun y z v hv hy hz =>
        congrArg Prod.fst (List.inj_on_of_nodup_map hcells (hnew y v hv hy) (hnew z v hv hz) rfl)
      others := fun v hv => by
        obtain ⟨hle, hlt, -⟩ := h.new v (List.mem_append_right _ hv)
        exact ⟨hle, hlt⟩
      nodup := hothers
      apart := fun v hv y hy => by
        obtain ⟨hle, -⟩ := h.new v (List.mem_append_right _ hv)
        exact hapart v (List.mem_map_of_mem (f := Prod.snd) (hnew y v hle hy)) v hv rfl }

/-- Afterwards the names that have occurred are those with values. -/
theorem occurred (h : Called c label i g e.seen news others s m m') (hr : Raised g e news others s m m')
    (hseen : ∀ y, y ∈ e.seen ↔ (σ y).isSome) (hheld : ∀ y t, σ y = some t → m.value? y = some t) (y : String) :
    y ∈ (Emit.eval (buildGoal g) e).2.seen ↔ (m'.known (Emit.eval (buildGoal g) e).2.seen y).isSome := by
  rw [known]
  split
  next hmem =>
    refine iff_of_true hmem ?_
    rcases (hr.occurred y).1 hmem with hold | hnew
    · obtain ⟨t, ht⟩ := Option.isSome_iff_exists.1 ((hseen y).1 hold)
      rw [hr.kept y hold (by rw [hheld y t ht]; rfl), hheld y t ht]
      rfl
    · obtain ⟨v, -, hvalue⟩ := h.new_value hnew
      rw [hvalue]
      rfl
  next hnot => exact iff_of_false hnot (by simp)

end Machine.Called

/-! ## §3. The call. -/

/-- A frame has one copy. -/
theorem Context.copy_unique {f : FrameId} {j : Nat} (h : Context K P names r fs env) (hj : fs[j]? = some f)
    (hk : fs[k]? = some f) : j = k := by
  obtain ⟨hlt, hj⟩ := List.getElem?_eq_some_iff.1 hj
  obtain ⟨hlt', hk⟩ := List.getElem?_eq_some_iff.1 hk
  exact (List.Nodup.getElem_inj_iff h.nodup).1 (hj.trans hk.symm)

/-- Building a goal of copy `k` disturbs nothing that waits. -/
theorem Machine.Called.carried (h : Called c label i g e.seen news others s m m')
    (hr : Raised g e news others s m m') (hm : m'.Memory) (hcontext : Context K P names r fs env)
    (hcopy : fs[k]? = some m.current) (hnames : ∀ y ∈ Term.namesAll g.args, isRegister y = false)
    (hseen : ∀ y, y ∈ e.seen ↔ (env k y).isSome) : Carried m.frames.size fs env m m' where
  cells := (h.extend hr hm).later.hasCells
  fields f hf := by
    by_cases hcurrent : f = m.current
    · rw [hcurrent]
      exact congrArg (fun fr : Frame => { fr with trail := [] }) h.fields
    · rw [h.frames f hf hcurrent]
  values f hf y t hy ht := by
    by_cases hcurrent : f = m.current
    · subst hcurrent
      have hvalue : m'.value? y = m.value? y := by
        rcases hy with rfl | ⟨j, hj, hsome⟩
        · refine h.old_value fun hmem => ?_
          have hname := hnames _ ((h.renewed _).1 hmem).1
          exact absurd hname (by decide)
        · obtain rfl := hcontext.copy_unique hj hcopy
          exact hr.kept y ((hseen y).2 hsome) (by rw [show m.value? y = some t from ht]; rfl)
      rw [← h.calling.current]
      exact hvalue.trans ht
    · rwa [h.frames f hf hcurrent]

/-- The context of a resolvent when names get new cells. -/
theorem Context.renew {h h' : Heap} {σ' : String → Option Value} {vs : List VarId}
    (hc : Context K P names r fs env) (hr : Renews h h' (env k) σ' vs) (hk : k < fs.length) :
    Context K P names r fs (Function.update env k σ') where
  copies := hc.copies
  fresh j hj y := by
    rw [Function.update_of_ne (Nat.ne_of_gt (hk.trans_le hj))]
    exact hc.fresh j hj y
  nodup := hc.nodup
  root := hc.root
  callable := hc.callable
  named y hy := (hc.named y hy).imp_left fun hsome => by
    obtain ⟨t, ht⟩ := Option.isSome_iff_exists.1 hsome
    rw [hr.update ht]
    rfl
  cells y t hy := by
    rcases Copies.update_eq_some.1 hy with ⟨rfl, hσ⟩ | ⟨-, hy⟩
    · rcases hr.new y t hσ with hold | ⟨v, rfl, -, -⟩
      · exact hc.cells y t hold
      · exact ⟨v, rfl⟩
    · exact hc.cells y t hy

/-- The call of a goal is a choice that waits. -/
theorem Machine.Called.waits {parts : List Part} (h : Called c label i g e.seen news others s m m')
    (hr : Raised g e news others s m m') (hs : PrologMachine.Stage K P names r fs env xs m) (hm : m'.Memory)
    (hcopy : fs[k]? = some m.current) (hnames : ∀ y ∈ Term.namesAll g.args, isRegister y = false)
    (hseen : ∀ y, y ∈ e.seen ↔ (env k y).isSome)
    (hbehind : BehindCall (fun f => (m.frame f).returnPoint) fs
      (Function.update env k (m'.known (Emit.eval (buildGoal g) e).2.seen)) ⟨c, label, i, m.current, k⟩ parts)
    (part : Part) :
    Choice.Waits
      { frame := m.frames.size, site := ⟨c, label, i, m.current, k⟩, goal := s, heap := m'.heap, resolvent := r,
        part, rest := parts, env := Function.update env k (m'.known (Emit.eval (buildGoal g) e).2.seen), fs
        tried := 0 } (xs.length + 1) m' := by
  have hcarried := h.carried hr hm hs.context hcopy hnames hseen
  have hunderway := h.calling.toUnderway
  have hcurrent : m.current < m.frames.size := hs.bounded _ (List.mem_of_getElem? hcopy)
  have hdepth : m'.depth = xs.length + 1 + 1 := by
    show m'.stack.size = _
    rw [h.stack, Array.size_push]
    exact congrArg (· + 1) hs.depth
  exact
    { stack := by
        rw [h.stack, ← hs.depth]
        exact Array.getElem?_push_size
      point := hunderway.point
      uncut := hunderway.uncut
      uncommitted := hunderway.uncommitted
      goal := h.calling.goal
      under := bindingUnder_top hunderway.top hdepth h.calling.trail
      cells := .refl _
      held := fun j f y t hj hy => by
        have hf := hs.bounded f (List.mem_of_getElem? hj)
        rcases Copies.update_eq_some.1 hy with ⟨rfl, hσ⟩ | ⟨-, hy⟩
        · obtain rfl := Option.some.inj (hj.symm.trans hcopy)
          rw [known] at hσ
          split at hσ
          · rw [← h.calling.current]
            exact hσ
          · cases hσ
        · refine hcarried.values f hf y t (.inr ⟨j, hj, ?_⟩) (hs.held j f y t hj hy)
          rw [hy]
          rfl
      quiet := fun f hf =>
        (hcarried.field (hs.bounded f hf) Frame.alternatives fun _ => rfl).trans (hs.quiet f hf)
      behind := hbehind.congr
        (fun f hf => hcarried.field (hf.trans_lt hcurrent) Frame.returnPoint fun _ => rfl)
        fun _ _ _ hj => ⟨hj, rfl⟩ }

/-- **A machine in front of the goals of a resolvent comes to the call of the first one.** -/
theorem Stage.calls {goals : List Part} (hs : Stage K P names r fs env xs m)
    (hserves : Serves K P kb w) (hsearch : Search kb n m) (hat : At c label i m)
    (hchain : ChainAt tail (env k) c label i ps) (hcopy : fs[k]? = some m.current)
    (hreturns : Returns (fun f => (m.frame f).returnPoint) fs env k tail m.current goals)
    (hgoals : r.goals = ps.map (Prod.mk k) ++ goals) :
    ∃ x m', Relation.TransGen (Step w) m m' ∧ Calling K P names x xs m' ∧ x.resolvent = r ∧ x.tried = 0 := by
  obtain ⟨block, code, compiler, n₀, seen, hblock, hseg, hcode, hseen⟩ := hchain.exists_code
  obtain ⟨g, e, op, ps', rest, rfl, rfl, hop, hargs, rfl, n', hrest⟩ := hcode.uncons
  have hnames : ∀ y ∈ Term.namesAll g.args, isRegister y = false := hargs.names
  have hcurrent : m.current < m.frames.size := hs.bounded _ (List.mem_of_getElem? hcopy)
  obtain ⟨m', s, news, others, hreaches, hcalled, hraised⟩ := goal_raised hserves.unlimited hnames hblock
    hseg.left hat hs.active hcurrent (hs.quiet _ (List.mem_of_getElem? hcopy)) (by rw [hs.depth]; omega)
  have hsite := callSite_of_segment hop hblock hseg.left
  -- The memory is in shape before and behind.
  have hm : m.Memory := by
    have hi : block[i]? = some { op := .allocate } := hseg.left.head
    exact hsearch.memory hs.active (hat.fetch_eq hblock hi)
  have hm' : m'.Memory := by
    obtain ⟨block', op', hblock', -, hi, -⟩ := hsite.exists_block
    exact (hsearch.of_reaches hserves.equipped hreaches).memory hcalled.calling.active
      (hcalled.calling.place.fetch_eq hblock' hi)
  -- What building the goal did.
  obtain ⟨Q, hstore⟩ := hs.store
  have hextends := hcalled.extend hraised hm'
  have hrenews := hcalled.renews hraised hseen (fun y t => hs.held k _ y t hcopy)
    fun y t hy => (hstore.values k y t hy).1
  have hcarried := hcalled.carried hraised hm' hs.context hcopy hnames hseen
  have hcallable := hs.context.callable _ (by rw [hgoals]; exact List.mem_cons_self)
  obtain ⟨Q', hposes⟩ := hstore.poses hextends hrenews hraised.depicts
    ((Term.builtPatterns_full e.compiler e.constants g.args).of_constants hcallable.constants)
  have hstays : ∀ j f, f < m.current → fs[j]? = some f →
      Function.update env k (m'.known ((buildGoal g).eval e).2.seen) j = env j := by
    intro j f hf hj
    refine Function.update_of_ne ?_ ..
    rintro rfl
    exact Nat.ne_of_lt hf (Option.some.inj (hj.symm.trans hcopy))
  have hbehind : BehindCall (fun f => (m.frame f).returnPoint) fs
      (Function.update env k (m'.known ((buildGoal g).eval e).2.seen))
      ⟨c, label, i + callIndex g e, m.current, k⟩ (ps'.map (Prod.mk k) ++ goals) := by
    refine Returns.behind (s := ⟨c, label, i + callIndex g e, m.current, k⟩)
      (hreturns.congr (fun _ _ => rfl) fun j f hf hj => ⟨hj, hstays j f hf hj⟩) hsite hcopy ?_
    refine hrest.goesOn hblock ?_ (σ := Function.update env k _ k) fun y => ?_
    · have := hseg.right
      rwa [length_callCode, ← Nat.add_assoc] at this
    · rw [Function.update_self]
      exact hcalled.occurred hraised hseen (fun y t => hs.held k _ y t hcopy) y
  have hunder : ∀ d, d < xs.length + 1 → m'.stack[d]? = m.stack[d]? := by
    intro d hd
    rw [hcalled.stack, Array.getElem?_push, if_neg]
    have hdepth : m.stack.size = xs.length + 1 := hs.depth
    omega
  refine ⟨{ frame := m.frames.size, site := ⟨c, label, i + callIndex g e, m.current, k⟩, goal := s
            heap := m'.heap, resolvent := r, part := (k, g.pattern e.compiler e.constants)
            rest := ps'.map (Prod.mk k) ++ goals
            env := Function.update env k (m'.known ((buildGoal g).eval e).2.seen), fs, tried := 0 },
    m', ?_, ?_, rfl, rfl⟩
  · rcases Relation.reflTransGen_iff_eq_or_transGen.1 hreaches with rfl | hsteps
    · exact absurd (congrArg Array.size hcalled.stack) (by simp)
    · exact hsteps
  · exact
      { sound :=
          { goals := hgoals
            context := hs.context.renew hrenews (List.getElem?_eq_some_iff.1 hcopy).1
            older := hs.bounded
            known := fun y hy => by
              show (Function.update env k _ k y).isSome
              rw [Function.update_self]
              exact hraised.depicts.names y hy
            poses := ⟨Q', hposes⟩ }
        waits := hcalled.waits hraised hs hm' hcopy hnames hseen hbehind _
        selecting := hcalled.calling
        pending := (hs.pending.carried hcarried
          (fun d _ hd => hunder d (hd.trans_lt (Nat.lt_succ_self _)))
          (hsearch.under hserves.equipped hm hreaches)).mono le_rfl (List.prefix_refl _)
            fun _ _ _ => hrenews.update
        depth := by
          show m'.stack.size = _
          rw [hcalled.stack, Array.size_push]
          exact congrArg (· + 1) hs.depth
        bottom := (hunder 0 (Nat.succ_pos _)).trans hs.bottom }

end PrologMachine
