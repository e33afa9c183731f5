/-
  PrologMachine.Proofs.Machine.Trails ── **TRAILS ARE EXACT.**

  Bindings are recorded before they are made in some places and behind in others, undone in pieces, and
  dropped with the frames that are popped.  Between two steps the trails of the stack name all variables
  of the question that are bound, each once, and no others.

    * `Moves.memory`, `Fails.memory`: every move keeps the memory in shape.
    * `Recorded`: with all frames left, no variable of the question is bound.
    * `Exact`, `trails_exact`: the trails are exact in every search, and stay so when a frame is unwound
      or popped.
-/
import PrologMachine.Proofs.Machine.Restoration
import PrologMachine.Proofs.Machine.Stack

namespace PrologMachine

namespace Machine

open Exec

variable {kb : KnowledgeBase} {w : World} {m m' : Machine} {f : FrameId} {i : Instruction}
  {n : Nat} {v : VarId}

/-! ## §1. Every move keeps the memory in shape. -/

/-- Resuming a call keeps the memory in order. -/
theorem Memory.resumed (hm : m.Memory) (f : FrameId) (r : ReturnPoint) : (m.resumed f r).Memory :=
  hm.modify r.frame (fun fr => { fr with alternatives := r.alternatives }) (by intro; rfl)
    (by intro; rfl) rfl rfl rfl

theorem Backs.memory (h : Backs m m') (hm : m.Memory) : m'.Memory := by
  cases h with
  | spent => exact hm.of_eq rfl rfl rfl fun _ => ⟨rfl, rfl⟩
  | @top f r => exact hm.resumed f r
  | cutQuery => exact (hm.poppedMany _).of_eq rfl rfl rfl fun _ => ⟨rfl, rfl⟩
  | @cut f f' b r =>
    have hcleared := (hm.poppedMany (m.depth - 1 - b)).changeFrame (f := f')
      (g := fun fr => { fr with cutTo := none }) (by intro; rfl) (by intro; rfl)
    exact hcleared.resumed f' r

theorem Fails.memory (h : Fails m m') (hm : m.Memory) : m'.Memory := by
  cases h with
  | @alternative f a rest ht =>
    have hrest := hm.changeFrame (f := m.current) (g := fun fr => { fr with alternatives := rest })
      (by intro; rfl) (by intro; rfl)
    exact (hrest.unwound ht a.mark).of_eq rfl rfl rfl fun _ => ⟨rfl, rfl⟩
  | back _ hback => exact hback.memory hm.pruned

theorem Invokes.memory (h : Invokes w m m') (hm : m.Memory) : m'.Memory := by
  cases h with
  | @enters f s cs c _ ht _ _ hx =>
    exact (hm.called ht hx cs.length).of_eq rfl rfl rfl fun _ => ⟨rfl, rfl⟩
  | responds _ _ _ _ _ htame => exact htame.memory.of_eq rfl rfl rfl fun _ => ⟨rfl, rfl⟩

/-- **Every move keeps the memory in shape.** -/
theorem Moves.memory (h : Moves w i m m') (hm : m.Memory) : m'.Memory := by
  -- By moves: each is one of the changes of which the lemmas on memory speak.
  cases h with
  | stays n ht hindex => exact ht.memory
  | mismatches ht hback => exact hback.memory (ht.memory.of_eq rfl rfl rfl fun _ => ⟨rfl, rfl⟩)
  | fails ht hfails => exact hfails.memory ht.memory
  | allocates => exact hm.pushed
  | setsUp => exact hm.changeFrame (by intro; rfl) (by intro; rfl)
  | invokes h => exact h.memory hm
  | @retries f _ _ ht =>
    exact (hm.unwound ht 0).modify f (fun fr => { fr with clause := fr.clause + 1 }) (by intro; rfl)
      (by intro; rfl) rfl rfl rfl
  | givesUp _ _ ht => exact hm.unwound ht 0
  | denies => exact (hm.poppedMany _).of_eq rfl rfl rfl fun _ => ⟨rfl, rfl⟩
  | affirms _ _ ht => exact (hm.unwound ht 0).popped.of_eq rfl rfl rfl fun _ => ⟨rfl, rfl⟩
  | drops =>
    have hfree : { m with target := none }.Memory := hm.of_eq rfl rfl rfl fun _ => ⟨rfl, rfl⟩
    exact hfree.popped
  | records => exact hm.changeFrame (by intro; rfl) (by intro; rfl)
  | prunes => exact hm.changeFrame (by intro; rfl) (by intro; rfl)
  | jumps => exact hm.of_eq rfl rfl rfl fun _ => ⟨rfl, rfl⟩
  | returns => exact hm.of_eq rfl rfl rfl fun _ => ⟨rfl, rfl⟩
  | answers => exact hm.of_eq rfl rfl rfl fun _ => ⟨rfl, rfl⟩
  | @cuts f =>
    have hmarked := hm.changeFrame (f := f) (g := fun fr =>
        { fr with cutTo := lowerMark (m.frame m.current).position fr.cutTo })
      (by intro; rfl) (by intro; rfl)
    exact hmarked.changeFrame (by intro; rfl) (by intro; rfl)

/-! ## §2. What is bound with all frames left. -/

/-- The memory is in shape, and no variable of the question would be bound with all frames left. -/
structure Recorded (n : Nat) (m : Machine) : Prop where
  /-- The memory. -/
  memory : m.Memory
  /-- The bindings. -/
  under : ∀ v, n ≤ v → m.bindingUnder 0 v = none

/-- A question that has just been asked has no variables. -/
theorem Recorded.posed (hgood : m.heap.Good) (q : Clause) : Recorded m.heap.vars.size (m.posed q) where
  memory := .posed hgood q
  under v hv := by
    have hnone : (m.posed q).heap.binding? v = none := Heap.binding?_eq_none hv
    rw [bindingUnder, hnone, ite_self]

/-- Bindings that are recorded stay so. -/
theorem Recorded.keeps (h : Recorded n m) (hm : m'.Memory) (hkeeps : Keeps 0 m m') : Recorded n m' where
  memory := hm
  under v hv := (hkeeps.under v).trans (h.under v hv)

/-- **Whatever can happen in a search leaves nothing bound that is not recorded.** -/
theorem Happens.recorded (h : Happens m m') (hr : Recorded n m) (hs : Shape m) (hs' : Shape m') :
    Recorded n m' := by
  have hkeeps : Keeps 0 m m' := h.keeps hs.depth_pos hs'.depth_pos
  cases h with
  | moves _ hm _ hmove => exact hr.keeps (hmove.memory (Tame.counted hm 0).memory) hkeeps
  | retreats _ hm _ hfails =>
    let m₀ : Machine := { m with ended := false, success := false, steps := 0 }
    have hm₀ : m₀.Memory := hm.of_eq rfl rfl rfl fun _ => ⟨rfl, rfl⟩
    exact hr.keeps (hfails.memory hm₀) hkeeps

/-- In a search everything bound since the question is recorded. -/
theorem Search.recorded (h : Search kb n m) (hasked : m.asked = true) (herror : m.error = none) :
    Recorded n m :=
  (h.invariant (P := fun n m => Shape m ∧ Recorded n m)
    (fun m q hgood => ⟨.posed m q, .posed hgood q⟩)
    (fun hhappens ⟨hs, hr⟩ => ⟨hhappens.shape hs, hhappens.recorded hr hs (hhappens.shape hs)⟩)
    hasked herror).2

/-! ## §3. Exact trails. -/

/-- The trails of the stack name the bound variables from `n` on, each once, and no others. -/
structure Exact (n : Nat) (m : Machine) : Prop where
  /-- A variable from `n` on is bound if and only if it is recorded. -/
  recorded : ∀ v, n ≤ v → (m.heap.isBound v = true ↔ ∃ f ∈ m.stack, v ∈ (m.frame f).trail)
  /-- No frame records a variable twice. -/
  once : ∀ f ∈ m.stack, (m.frame f).trail.Nodup
  /-- No two frames record the same variable. -/
  apart : ∀ f ∈ m.stack, ∀ g ∈ m.stack, ∀ v ∈ (m.frame f).trail, v ∈ (m.frame g).trail → f = g

/-- A variable is on one of the trails. -/
theorem mem_trailsOf {fs : List FrameId} :
    v ∈ m.trailsOf fs ↔ ∃ f ∈ fs, v ∈ (m.frame f).trail := by
  simp [trailsOf]

/-- What is recorded in order is exact. -/
theorem Recorded.exact (h : Recorded n m) : Exact n m := by
  obtain ⟨honce, hapart⟩ := List.nodup_flatMap.1 h.memory.trailsNodup
  refine ⟨fun v hv => ⟨fun hbound => ?_, ?_⟩, fun f hf => ?_, fun f hf g hg v hvf hvg => ?_⟩
  · -- What is bound would be unbound with all frames left, so one of them records it.
    have hunder := h.under v hv
    unfold bindingUnder at hunder
    split at hunder
    · next hmem =>
      obtain ⟨f, hf, hvf⟩ := mem_trailsOf.1 hmem
      exact ⟨f, by simpa using hf, hvf⟩
    · rw [Heap.isBound, hunder] at hbound
      cases hbound
  · rintro ⟨f, hf, hmem⟩
    exact h.memory.trailsBound v (mem_trailsOf.2 ⟨f, by simpa using hf, hmem⟩)
  · exact honce f (by simpa using hf)
  · by_contra hne
    have hsymm : Std.Symm (Function.onFun List.Disjoint fun f => (m.frame f).trail) :=
      ⟨fun _ _ hab => hab.symm⟩
    exact hapart.forall (by simpa using hf) (by simpa using hg) hne hvf hvg

/-- What is recorded for a frame can be undone. -/
theorem Recorded.unwindable (h : Recorded n m) (hf : f ∈ m.stack) : Unwindable m f :=
  ⟨h.exact.once f hf, fun v hv =>
    h.memory.trailsBound v (mem_trailsOf.2 ⟨f, by simpa using hf, hv⟩)⟩

/-- **Undoing bindings of a frame leaves the trails exact.** -/
theorem Exact.unwound (h : Exact n m) (hf : f ∈ m.stack) (hlt : f < m.frames.size) (mark : Nat) :
    Exact n (m.unwound f mark) := by
  set taken := (m.frame f).trail.take ((m.frame f).trail.length - mark) with htaken
  set left := (m.frame f).trail.drop ((m.frame f).trail.length - mark) with hleft
  -- The frame keeps the rest of its trail, and the other frames keep theirs.
  have hsplit : (m.frame f).trail = taken ++ left := (List.take_append_drop _ _).symm
  have hself : ((m.unwound f mark).frame f).trail = left :=
    congrArg Frame.trail (frame_unwound_self hlt mark)
  have hothers : ∀ {g}, g ≠ f → ((m.unwound f mark).frame g).trail = (m.frame g).trail :=
    fun hne => congrArg Frame.trail (frame_changeFrame_of_ne hne)
  have hsub : ∀ {g}, ((m.unwound f mark).frame g).trail <:+ (m.frame g).trail := by
    intro g
    by_cases hne : g = f
    · rw [hne, hself]
      exact List.drop_suffix _ _
    · rw [hothers hne]
  refine ⟨fun v hv => ?_, fun g hg => (h.once g hg).sublist hsub.sublist,
    fun g hg g' hg' v hvg hvg' => h.apart g hg g' hg' v (hsub.mem hvg) (hsub.mem hvg')⟩
  show (m.heap.resetAll taken).isBound v = true ↔ _
  have hnodup := h.once f hf
  rw [hsplit] at hnodup
  rw [Heap.isBound, Heap.binding?_resetAll]
  by_cases hmem : v ∈ taken
  · -- What is undone was recorded for this frame only, and once.
    rw [if_pos hmem]
    constructor
    · intro hbound
      cases hbound
    rintro ⟨g, hg, hvg⟩
    obtain rfl : g = f := h.apart g hg f hf v (hsub.mem hvg) (hsplit ▸ List.mem_append_left _ hmem)
    rw [hself] at hvg
    exact absurd rfl ((List.nodup_append.1 hnodup).2.2 v hmem v hvg)
  · rw [if_neg hmem]
    refine (h.recorded v hv).trans (exists_congr fun g => and_congr_right fun _ => ?_)
    refine ⟨fun hvg => ?_, fun hvg => hsub.mem hvg⟩
    by_cases hne : g = f
    · subst hne
      rw [hsplit] at hvg
      rw [hself]
      exact (List.mem_append.1 hvg).resolve_left hmem
    · rwa [hothers hne]

/-- A frame that records nothing may leave the stack. -/
theorem Exact.pop (h : Exact n m) (ht : m.top? = some f) (hempty : (m.frame f).trail = []) :
    Exact n { m with stack := m.stack.pop } := by
  have hsub : ∀ {g}, g ∈ m.stack.pop → g ∈ m.stack := fun {g} hg => by
    rw [← Array.mem_toList_iff, Array.toList_pop] at hg
    exact Array.mem_toList_iff.1 (List.mem_of_mem_dropLast hg)
  refine ⟨fun v hv => (h.recorded v hv).trans (exists_congr fun g => and_congr_left fun hvg => ?_),
    fun g hg => h.once g (hsub hg), fun g hg g' hg' => h.apart g (hsub hg) g' (hsub hg')⟩
  refine ⟨fun hg => ?_, hsub⟩
  rw [← Array.mem_toList_iff, top?_eq ht, List.mem_append, List.mem_singleton] at hg
  rcases hg with hg | rfl
  · rwa [← Array.mem_toList_iff, Array.toList_pop]
  · rw [hempty] at hvg
    cases hvg

/-- **Trails are exact.**  In every search, whatever native predicates it calls, a variable that was made
    since the question was asked is bound if and only if a frame of the stack records it; one frame
    does, and once.  So undoing the bindings of a frame meets no unbound variable, and neither does
    popping one, and the trails are exact again. -/
theorem trails_exact (h : Search kb n m) (hasked : m.asked = true) (herror : m.error = none) :
    Exact n m ∧
      (∀ f ∈ m.stack, ∀ mark, ∃ m', eval (unwindTo f mark) m = (.ok (), m') ∧ Exact n m') ∧
      (1 < m.depth → ∃ m', eval pop m = (.ok (), m') ∧ Exact n m') := by
  have hr := h.recorded hasked herror
  have hlt : ∀ f ∈ m.stack, f < m.frames.size := fun f hf =>
    hr.memory.stackBounded f (Array.mem_toList_iff.2 hf)
  refine ⟨hr.exact, fun f hf mark => ⟨_, eval_unwindTo (hr.unwindable hf) mark,
    hr.exact.unwound hf (hlt f hf) mark⟩, fun hd => ?_⟩
  obtain ⟨f, ht⟩ := exists_top_of_lt hd
  have hf : f ∈ m.stack := Array.mem_toList_iff.1 (mem_of_top? ht)
  refine ⟨_, eval_pop hd ht (hr.unwindable hf), ?_⟩
  have hpopped : m.popped = { m.unwound f 0 with stack := m.stack.pop } := by
    simp only [Machine.popped, ht]
  have hempty : ((m.unwound f 0).frame f).trail = [] := by
    rw [frame_unwound_self (hlt f hf)]
    simp
  rw [hpopped]
  exact (hr.exact.unwound hf (hlt f hf) 0).pop ht hempty

/-- With `same(Z, Z)` and `p(b)`, the question `same(X, Y), p(X)` is at the end of its second call: the
    first one has linked `X` to `Y`, and the second one has bound `Y`. -/
theorem trails_exact_linked : ∃ (kb : KnowledgeBase) (m : Machine), Search kb 0 m ∧ m.asked = true ∧
    m.error = none ∧ (m.stack = #[0, 1, 2] ∧ (m.frame 1).trail = [0] ∧ (m.frame 2).trail = [1]) ∧
      Exact 0 m ∧
      (∀ f ∈ m.stack, ∀ mark, ∃ m', eval (unwindTo f mark) m = (.ok (), m') ∧ Exact 0 m') ∧
      (1 < m.depth → ∃ m', eval pop m = (.ok (), m') ∧ Exact 0 m') := by
  -- The clause of `p`, and what it is compiled from.
  let p : Clause := ⟨⟨"p", 1⟩, [("head", [
    { op := .getStruct, functor := "p", arity := 1, register := "$x0" },
    { op := .getTerm, constant := some ⟨.atom "b", .code 0 0⟩ }, { op := .proceed }])], false, []⟩
  have hp : CompiledFrom (fun _ => True) p :=
    ⟨{}, .app "p" [.const (.atom "b") 2] .none 0, .inl ⟨{}, "p(b).", 0, rfl⟩, trivial, by cbv⟩
  let kb₀ : KnowledgeBase := ((({} : KnowledgeBase).insertUser linking.signature (some linking)).base.insertUser
    p.signature (some p)).base
  let x := (({} : Machine).ask kb₀ (some linkedCall)).2
  let w : World := { base := x.1, natives := Registry.core }
  -- After 20 steps two frames have trails.
  let m := (x.2.trace w 20).2
  have hstart : Search x.1 0 x.2 :=
    .ask (.new {}) (.user (.user .empty linking_compiled) hp) linkedCall_question rfl
  have hw : Equipped x.1 w := ⟨rfl, Registry.sober_core⟩
  have hsearch : Search x.1 0 m := hstart.trace hw 20
  have hasked : m.asked = true := by decide +kernel
  have herror : m.error = none := Option.isNone_iff_eq_none.1 (by decide +kernel)
  exact ⟨x.1, m, hsearch, hasked, herror, by decide +kernel, trails_exact hsearch hasked herror⟩

end Machine

end PrologMachine
