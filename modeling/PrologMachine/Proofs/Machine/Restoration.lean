/-
  PrologMachine.Proofs.Machine.Restoration ── **BACKTRACKING RESTORES THE STORE.**

  Bindings are recorded on the trail of the frame that is on top when they are made, and undone in
  pieces.  What survives every piece is this: if all that is recorded from a frame on upwards were undone,
  the variables that existed when the frame was pushed would have the bindings of that moment.

    * `Keeps d m m'`: up to stack index `d` the frames are the same with the same trails, and the
      bindings under the frame at `d` are the same.
    * `Moves.keeps`, `Fails.keeps`: every move keeps what is under a frame that it leaves on the stack.
    * `Happens.keeps`, `Continues.upholds`: so does every search.
    * `restored_at_retry`: when another clause of the frame is tried, nothing is recorded from it on.
-/
import PrologMachine.Proofs.Machine.Searches

namespace PrologMachine

namespace Machine

open Exec

variable {admits : Signature → Bool} {kb : KnowledgeBase} {q : Clause} {w : World}
  {m m' m'' : Machine} {f : FrameId} {i : Instruction} {n d j k : Nat} {v : VarId}

/-! ## §1. What is under a frame. -/

/-- The frame at stack index `d` and those below it are the same, the ones below with the same trails,
    and the variables have the same bindings once the frames from `d` on are left. -/
structure Keeps (d : Nat) (m m' : Machine) : Prop where
  /-- The frames. -/
  stack : ∀ k, k ≤ d → m'.stack[k]? = m.stack[k]?
  /-- The trails below. -/
  trails : ∀ k f, k < d → m.stack[k]? = some f → (m'.frame f).trail = (m.frame f).trail
  /-- The bindings. -/
  under : ∀ v, m'.bindingUnder d v = m.bindingUnder d v

/-- Under lower frames popping the top frame is undoing its bindings: its trail is empty by then. -/
theorem bindingUnder_popped (hm : m.Memory) (ht : m.top? = some f) (hd : d < m.depth) :
    m.popped.bindingUnder d v = (m.unwound f 0).bindingUnder d v := by
  have hpopped : m.popped = { m.unwound f 0 with stack := m.stack.pop } := by
    simp only [Machine.popped, ht]
  have ht' : (m.unwound f 0).top? = some f := ht
  have hempty : ((m.unwound f 0).frame f).trail = [] := by
    rw [frame_unwound_self (hm.lt_of_top? ht)]
    simp
  have hupper : (m.unwound f 0).trailsOf ((m.unwound f 0).stack.toList.drop d) =
      (m.unwound f 0).trailsOf (m.stack.toList.dropLast.drop d) := by
    refine (trailsOf_drop ht' hd).trans ?_
    rw [hempty, List.nil_append]
    rfl
  have hstack : m.popped.stack.toList = m.stack.toList.dropLast := by
    rw [stack_popped, Array.toList_pop]
  unfold bindingUnder
  rw [hupper, hstack, hpopped]
  rfl

/-- Above a frame there is one on top. -/
theorem exists_top_of_lt (hd : d < m.depth) : ∃ f, m.top? = some f := by
  rw [top?_eq_getElem?]
  exact ⟨_, Array.getElem?_eq_getElem (by simp only [depth] at hd ⊢; omega)⟩

namespace Keeps

protected theorem refl (d : Nat) (m : Machine) : Keeps d m m :=
  ⟨fun _ _ => rfl, fun _ _ _ _ => rfl, fun _ => rfl⟩

protected theorem trans (h : Keeps d m m') (h' : Keeps d m' m'') : Keeps d m m'' where
  stack k hk := (h'.stack k hk).trans (h.stack k hk)
  trails k f hk hf := (h'.trails k f hk (by rw [h.stack k (by omega), hf])).trans (h.trails k f hk hf)
  under v := (h'.under v).trans (h.under v)

/-- Fields that have nothing to do with the stack, the trails and the heap. -/
theorem fields (d : Nat) (hstack : m'.stack = m.stack) (hheap : m'.heap = m.heap)
    (htrails : ∀ f, (m'.frame f).trail = (m.frame f).trail) : Keeps d m m' where
  stack k _ := by rw [hstack]
  trails _ f _ _ := htrails f
  under v := bindingUnder_congr hstack htrails (by rw [hheap])

/-- A change of one frame. -/
theorem modify (d : Nat) (f : FrameId) (change : Frame → Frame) (hstack : m'.stack = m.stack)
    (hheap : m'.heap = m.heap) (hframes : m'.frames = m.frames.modify f change)
    (htrail : ∀ fr, (change fr).trail = fr.trail) : Keeps d m m' := by
  refine .fields d hstack hheap fun f' => ?_
  rw [frame_modify hframes]
  exact frame_changeFrame_field Frame.trail htrail

/-- A quiet change keeps what is under any frame. -/
theorem of_quiet (h : Quiet n m m') (hm : m.Memory) (hd : d < m.depth) : Keeps d m m' where
  stack k _ := by rw [h.stack]
  trails k f hk hf := h.trails f fun ht => hm.ne_top ht k (by omega) hf
  under v := h.under d v hd

/-- Undoing bindings of the frame on top. -/
theorem unwound (hm : m.Memory) (ht : m.top? = some f) (hd : d < m.depth) (mark : Nat) :
    Keeps d m (m.unwound f mark) where
  stack _ _ := rfl
  trails k f' hk hf' := by
    have hne : f' ≠ f := by
      rintro rfl
      exact hm.ne_top ht k (by omega) hf'
    rw [Machine.unwound, frame_changeFrame_of_ne hne]
    rfl
  under v := by
    have ht' : (m.unwound f mark).top? = some f := ht
    -- The trail of the frame on top loses what is undone.
    have hlower : (m.unwound f mark).trailsOf (m.stack.toList.dropLast.drop d) =
        m.trailsOf (m.stack.toList.dropLast.drop d) := by
      refine trailsOf_congr fun f' hf' => ?_
      have hne : f' ≠ f := by
        rintro rfl
        exact hm.top_not_below ht (List.mem_of_mem_drop hf')
      rw [Machine.unwound, frame_changeFrame_of_ne hne]
      rfl
    have hupper : (m.unwound f mark).trailsOf (m.stack.toList.drop d) =
        (m.frame f).trail.drop ((m.frame f).trail.length - mark) ++
          m.trailsOf (m.stack.toList.dropLast.drop d) := by
      refine (trailsOf_drop ht' hd).trans ?_
      rw [frame_unwound_self (hm.lt_of_top? ht)]
      exact congrArg _ hlower
    have hsplit : ∀ v, v ∈ (m.frame f).trail ↔
        v ∈ (m.frame f).trail.take ((m.frame f).trail.length - mark) ∨
          v ∈ (m.frame f).trail.drop ((m.frame f).trail.length - mark) := by
      intro v
      rw [← List.mem_append, List.take_append_drop]
    unfold bindingUnder
    show (if v ∈ (m.unwound f mark).trailsOf (m.stack.toList.drop d) then none
      else (m.heap.resetAll _).binding? v) = _
    rw [hupper, trailsOf_drop ht hd, Heap.binding?_resetAll]
    simp only [List.mem_append, hsplit v]
    by_cases htake : v ∈ (m.frame f).trail.take ((m.frame f).trail.length - mark)
    · rw [if_pos htake, ite_self, if_pos (.inl (.inl htake))]
    · simp only [htake, false_or, if_false]

/-- Popping a frame above. -/
theorem popped (hm : m.Memory) (hd : d < m.depth - 1) : Keeps d m m.popped := by
  have hd' : d < m.depth := by omega
  obtain ⟨f, ht⟩ := exists_top_of_lt hd'
  have hpopped : m.popped = { m.unwound f 0 with stack := m.stack.pop } := by
    simp only [Machine.popped, ht]
  refine (Keeps.unwound hm ht hd' 0).trans
    ⟨fun k hk => ?_, fun _ _ _ _ => ?_, fun v => bindingUnder_popped hm ht hd'⟩
  · rw [stack_popped, Array.getElem?_pop, if_pos (by simp only [depth] at hd; omega)]
    rfl
  · rw [hpopped]
    rfl

theorem poppedMany (n : Nat) : ∀ {m : Machine}, m.Memory → d < m.depth - n →
    Keeps d m (m.poppedMany n) := by
  induction n with
  | zero => intro m _ _; exact .refl d m
  | succ n ih =>
    intro m hm hd
    exact (Keeps.popped hm (by omega)).trans (ih hm.popped (by rw [depth_popped]; omega))

/-- Pushing a frame. -/
theorem pushed (hm : m.Memory) (hd : d < m.depth) : Keeps d m m.pushed where
  stack k hk := stack_pushed (by omega)
  trails k f _ hf := by rw [frame_pushed_of_ne (Nat.ne_of_lt (hm.lt_of_getElem? hf))]
  under v := by
    have hstack : m.pushed.stack.toList.drop d = m.stack.toList.drop d ++ [m.frames.size] := by
      simp only [Machine.pushed, Array.toList_push]
      exact List.drop_append_of_le_length (by simp only [depth] at hd; simp; omega)
    have htrails : m.pushed.trailsOf (m.stack.toList.drop d) = m.trailsOf (m.stack.toList.drop d) :=
      trailsOf_congr fun f hf => by
        rw [frame_pushed_of_ne (Nat.ne_of_lt (hm.stackBounded f (List.mem_of_mem_drop hf)))]
    unfold bindingUnder
    rw [hstack, trailsOf_append, frame_pushed_self, List.nil_append, htrails]
    rfl

end Keeps

/-! ## §2. Every move keeps what is under the frames it leaves. -/

/-- Resuming a call changes the place in the code. -/
theorem Keeps.resumed (d : Nat) (f : FrameId) (r : ReturnPoint) : Keeps d m (m.resumed f r) :=
  .modify d r.frame (fun fr => { fr with alternatives := r.alternatives }) rfl rfl rfl (by intro; rfl)

/-- Backtracking keeps what is under the frames that are left. -/
theorem Backs.keeps (h : Backs m m') (hm : m.Memory) (hd' : d < m'.depth) : Keeps d m m' := by
  cases h with
  | spent ht => exact .fields d rfl rfl fun _ => rfl
  | top ht hf hcut hr => exact .resumed d _ _
  | @cutQuery f barrier ht hf hcut ht' =>
    have hdepth : d < m.depth - (m.depth - 1 - barrier) := by
      rw [← depth_poppedMany]
      exact hd'
    exact (Keeps.poppedMany _ hm hdepth).trans (.fields d rfl rfl fun _ => rfl)
  | @cut f f' barrier r ht hf hcut ht' hf' hr =>
    have hdepth : d < m.depth - (m.depth - 1 - barrier) := by
      rw [← depth_poppedMany]
      exact hd'
    have hcleared : Keeps d (m.poppedMany (m.depth - 1 - barrier))
        ((m.poppedMany (m.depth - 1 - barrier)).changeFrame f' (fun fr => { fr with cutTo := none })) :=
      .modify d f' (fun fr => { fr with cutTo := none }) rfl rfl rfl (by intro; rfl)
    exact (Keeps.poppedMany _ hm hdepth).trans (hcleared.trans (.resumed d _ _))

theorem Fails.keeps (h : Fails m m') (hm : m.Memory) (hd : d < m.depth) (hd' : d < m'.depth) :
    Keeps d m m' := by
  cases h with
  | @alternative f a rest ht has ha =>
    have hrest : Keeps d m (m.changeFrame m.current (fun fr => { fr with alternatives := rest })) :=
      .modify d m.current (fun fr => { fr with alternatives := rest }) rfl rfl rfl (by intro; rfl)
    have hm₁ : (m.changeFrame m.current (fun fr => { fr with alternatives := rest })).Memory :=
      hm.changeFrame (by intro; rfl) (by intro; rfl)
    exact hrest.trans ((Keeps.unwound hm₁ ht hd a.mark).trans (.fields d rfl rfl fun _ => rfl))
  | back has hback =>
    have hpruned : Keeps d m m.pruned :=
      .modify d m.current (fun fr => { fr with
          alternatives := pruneAlternatives m.depth (m.frame m.current).alternatives })
        rfl rfl rfl (by intro; rfl)
    exact hpruned.trans (hback.keeps hm.pruned hd')

/-- A call does not touch the bindings. -/
theorem Keeps.called (d : Nat) (f : FrameId) (goal : Value) (count : Nat) :
    Keeps d m (m.called f goal count) :=
  .modify d f (fun fr => { fr with
      vars := [("$x0", goal)], alternatives := [], cutTo := none, clauses := count })
    rfl rfl rfl (by intro; rfl)

theorem Invokes.keeps (h : Invokes w m m') (hm : m.Memory) (hd : d < m.depth) : Keeps d m m' := by
  cases h with
  | @enters f s cs c => exact (Keeps.called d f _ _).trans (.fields d rfl rfl fun _ => rfl)
  | @responds f s r m₁ ok count htarget ht hcut hcommitted hr htame =>
    refine (Keeps.called d f (.struct s) count).trans ⟨fun k _ => ?_, fun k f' hk hf' => ?_,
      fun v => htame.quiet.under d v hd⟩
    · rw [htame.quiet.stack]
    · exact htame.quiet.trails f' fun ht' => hm.ne_top ht' k (show k < m.depth - 1 by omega) hf'

/-- **A move keeps what is under every frame that it leaves on the stack.** -/
theorem Moves.keeps (h : Moves w i m m') (hm : m.Memory) (hd : d < m.depth) (hd' : d < m'.depth) :
    Keeps d m m' := by
  -- By moves: binding goes on the trail on top, and frames are popped with their bindings undone.
  cases h with
  | stays n ht hindex => exact .of_quiet ht.quiet hm hd
  | @mismatches m₁ _ ht hback =>
    have hm₁ : ({ m₁ with success := false } : Machine).Memory :=
      ht.memory.of_eq rfl rfl rfl fun _ => ⟨rfl, rfl⟩
    have hfailed : Keeps d m₁ { m₁ with success := false } := .fields d rfl rfl fun _ => rfl
    exact (Keeps.of_quiet ht.quiet hm hd).trans (hfailed.trans (hback.keeps hm₁ hd'))
  | fails ht hf =>
    exact (Keeps.of_quiet ht.quiet hm hd).trans
      (hf.keeps ht.memory (by rwa [ht.quiet.depth]) hd')
  | allocates => exact .pushed hm hd
  | @setsUp f htarget ht huntried =>
    exact .modify d f (fun fr => { fr with clause := 0, returnPoint := some m.callPoint })
      rfl rfl rfl (by intro; rfl)
  | invokes h => exact h.keeps hm hd
  | @retries f hs htarget ht hcut hcommitted hmore =>
    exact (Keeps.unwound hm ht hd 0).trans (.modify d f (fun fr =>
      { fr with clause := fr.clause + 1 }) rfl rfl rfl (by intro; rfl))
  | givesUp hs htarget ht hcut hmore => exact .unwound hm ht hd 0
  | @denies f k hs htarget hk hf =>
    have hdepth : d < m.depth - (m.depth - k) := by
      rw [← depth_poppedMany]
      exact hd'
    exact (Keeps.poppedMany _ hm hdepth).trans (.fields d rfl rfl fun _ => rfl)
  | @affirms f hs htarget ht hcut =>
    have hdepth : d < (m.unwound f 0).depth - 1 := by
      rw [← depth_popped]
      exact hd'
    exact (Keeps.unwound hm ht hd 0).trans
      ((Keeps.popped (hm.unwound ht 0) hdepth).trans (.fields d rfl rfl fun _ => rfl))
  | @drops f hs htarget ht hf hcut =>
    have hm₁ : ({ m with target := none } : Machine).Memory :=
      hm.of_eq rfl rfl rfl fun _ => ⟨rfl, rfl⟩
    have hdepth : d < ({ m with target := none } : Machine).depth - 1 := by
      rw [← depth_popped]
      exact hd'
    have hfree : Keeps d m { m with target := none } := .fields d rfl rfl fun _ => rfl
    exact hfree.trans (Keeps.popped hm₁ hdepth)
  | @records f hi ht =>
    exact .modify d m.current (fun fr => { fr with alternatives :=
        ⟨i.label, m.depth, (m.frame f).trail.length⟩ :: fr.alternatives }) rfl rfl rfl (by intro; rfl)
  | prunes =>
    exact .modify d m.current (fun fr => { fr with
        alternatives := pruneAlternatives m.depth fr.alternatives }) rfl rfl rfl (by intro; rfl)
  | jumps label => exact .fields d rfl rfl fun _ => rfl
  | returns hs hq hr hcaller => exact .fields d rfl rfl fun _ => rfl
  | answers hs => exact .fields d rfl rfl fun _ => rfl
  | @cuts f hi ht hplace =>
    have hmark : Keeps d m (m.changeFrame f (fun fr =>
        { fr with cutTo := lowerMark (m.frame m.current).position fr.cutTo })) :=
      .modify d f (fun fr => { fr with cutTo := lowerMark (m.frame m.current).position fr.cutTo })
        rfl rfl rfl (by intro; rfl)
    exact hmark.trans (.modify d m.current
      (fun fr => { fr with committed := true, alternatives := [] }) rfl rfl rfl (by intro; rfl))

/-! ## §3. Runs of one question. -/

/-- The run of a question goes on: steps are taken, and the next answer is asked for when one was
    found. -/
inductive Continues (kb : KnowledgeBase) (m : Machine) : Machine → Prop where
  /-- Nothing happens. -/
  | refl : Continues kb m m
  /-- A step is taken. -/
  | step {m' : Machine} {w : World} : Continues kb m m' → Equipped kb w →
    Continues kb m (m'.step w).2
  /-- The next answer is asked for. -/
  | redo {m' : Machine} : Continues kb m m' → m'.status = .answer → Continues kb m m'.redo.2

/-- The run of a question stays in its search. -/
theorem Continues.search (h : Continues kb m m') (hm : Search kb n m) : Search kb n m' := by
  induction h with
  | refl => exact hm
  | step _ hw ih => exact ih.step hw
  | redo _ hstatus ih => exact ih.redo hstatus

/-- A trace goes on with the run. -/
theorem Continues.trace (hw : Equipped kb w) (n : Nat) : ∀ {m' : Machine}, Continues kb m m' →
    Continues kb m (m'.trace w n).2 := by
  induction n with
  | zero => intro m' h; exact h
  | succ n ih =>
    intro m' h
    rw [Machine.trace]
    simp only
    split
    · exact h.step hw
    · exact ih (h.step hw)

/-- A result that is there was a result. -/
theorem eq_ok_of_toOption {ε α : Type} {e : Except ε α} {a : α} (h : e.toOption = some a) :
    e = .ok a := by
  cases e with
  | error => cases h
  | ok b => rw [Option.some.inj h]

/-- An instruction is fetched with its operation. -/
theorem exists_fetch (m : Machine) (op : Opcode) (h : m.fetch.toOption.map (·.op) = some op) :
    ∃ i, m.fetch = .ok i ∧ i.op = op := by
  obtain ⟨i, hi, hop⟩ := Option.map_eq_some_iff.1 h
  exact ⟨i, eq_ok_of_toOption hi, hop⟩

/-- A machine is active when its flags say so. -/
theorem active_of_isNone
    (h : m.asked = true ∧ m.error.isNone = true ∧ m.ended = false ∧ m.exhausted = false) : m.Active :=
  ⟨h.1, Option.isNone_iff_eq_none.1 h.2.1, h.2.2⟩

/-- The clause of `same(Z, Z)`, which links its two arguments. -/
def linking : Clause :=
  ⟨⟨"same", 2⟩, [("head", [
    { op := .getStruct, functor := "same", arity := 2, register := "$x0" },
    { op := .getVar, name := "Z" }, { op := .getValue, name := "Z" }, { op := .proceed }])], false, []⟩

/-- It is compiled from its text. -/
theorem linking_compiled : CompiledFrom (fun _ => True) linking :=
  ⟨{}, .app "same" [.var "Z" 0, .var "Z" 0] .none 0, .inl ⟨{}, "same(Z, Z).", 0, rfl⟩, trivial, by cbv⟩

/-- The question `same(X, Y), p(X)`: `p` is called with a variable that is linked to an older one. -/
def linkedCall : Clause :=
  ⟨querySignature, [("g0", [
    { op := .allocate }, { op := .putStruct, functor := "same", arity := 2, register := "$x0" },
    { op := .putVar, name := "X" }, { op := .putVar, name := "Y" }, { op := .setup }, { op := .call },
    { op := .maybeRetry }, { op := .deallocate }, { op := .maybeFail },
    { op := .allocate }, { op := .putStruct, functor := "p", arity := 1, register := "$x0" },
    { op := .putValue, name := "X" }, { op := .setup }, { op := .call },
    { op := .maybeRetry }, { op := .deallocate }, { op := .end_ }])], false, []⟩

/-- It is compiled from its text. -/
theorem linkedCall_question : Question (fun _ => True) linkedCall :=
  ⟨{}, .app "conj" [.app "same" [.var "X" 0, .var "Y" 0] .none 0, .app "p" [.var "X" 0] .none 12] .none 10,
    .inl ⟨{}, "same(X, Y), p(X).", 0, rfl⟩, trivial, by cbv⟩

/-- What a search relies on that goes on with the instruction `i`. -/
structure Poised (i : Instruction) (m : Machine) : Prop where
  /-- The memory is in shape. -/
  memory : m.Memory
  /-- No clause runs and no call returns where a cut passes over. -/
  barriers : Barriers m
  /-- The query is at the bottom. -/
  bottom : m.stack[0]? = some queryFrame
  /-- The frame of the running clause knows its place. -/
  place : m.stack[(m.frame m.current).position]? = some m.current
  /-- A call returns to another frame. -/
  caller : ∀ (k : Nat) g r, g ≠ queryFrame → m.stack[k]? = some g →
    (m.frame g).returnPoint = some r → r.frame ≠ g
  /-- A negated call that is asked for its outcome is not cut off. -/
  denied : ∀ g j, i.op = .maybeRetryN → m.target = some g → m.stack[j]? = some g →
    ¬ CutOff m m.depth j

/-- Counting the instruction changes nothing else. -/
theorem Poised.counted {i' : Instruction} (h : Poised i m) : Poised i (m.counted w i') where
  memory := (Tame.counted h.memory 0).memory
  barriers := Mild.counted.barriers h.barriers
  bottom := h.bottom
  place := h.place
  caller := h.caller
  denied := h.denied

/-- A call does not return into its own frame. -/
theorem Calls.caller_ne {g : FrameId} {r : ReturnPoint} (hc : Calls admits kb q m n) (hm : m.Memory)
    (hk : k < n) (hg : g ≠ queryFrame) (hf : m.stack[k]? = some g)
    (hr : (m.frame g).returnPoint = some r) : r.frame ≠ g := by
  obtain ⟨-, g', r', hp, -⟩ := hc.pending hk hf hg
  obtain rfl := Option.some.inj (hr.symm.trans hp.returns)
  obtain ⟨j, hj, hcaller⟩ := hp.caller
  intro heq
  have hsame := hm.index_unique (heq ▸ hcaller) hf
  omega

theorem Fits.caller_ne {p : Phase} {g : FrameId} {r : ReturnPoint}
    (h : Fits admits kb q m j p) (hm : m.Memory) (hg : g ≠ queryFrame) (hf : m.stack[k]? = some g)
    (hr : (m.frame g).returnPoint = some r) : r.frame ≠ g := by
  have hk : k < m.depth := (Array.getElem?_eq_some_iff.1 hf).1
  -- The frames below the one on top are calls; the one on top depends on the phase.
  have htop : ¬ k < m.depth - 1 → m.top? = some g := by
    intro hlast
    rw [top?_eq_getElem?, show m.depth - 1 = k by omega, hf]
  cases p with
  | head pending last left => exact h.2.1.toCalls.caller_ne hm hk hg hf hr
  | body => exact h.2.toCalls.caller_ne hm hk hg hf hr
  | build regs begun left =>
    obtain ⟨-, hc, f, -, ht, -, -, huntried⟩ := h
    by_cases hlow : k < m.depth - 1
    · exact hc.toCalls.caller_ne hm hlow hg hf hr
    · -- The frame under construction does not return anywhere yet.
      obtain rfl := Option.some.inj (ht.symm.trans (htop hlow))
      rw [huntried] at hr
      cases hr
  | ready goal =>
    obtain ⟨hc, f, r', -, ht, hp, -⟩ := h
    by_cases hlow : k < m.depth - 1
    · exact hc.toCalls.caller_ne hm hlow hg hf hr
    · obtain rfl := Option.some.inj (ht.symm.trans (htop hlow))
      obtain rfl := Option.some.inj (hr.symm.trans hp.returns)
      obtain ⟨l, hl, hcaller⟩ := hp.caller
      intro heq
      have hsame := hm.index_unique (heq ▸ hcaller) hf
      omega
  | returned goal => exact h.1.toCalls.caller_ne hm hk hg hf hr
  | retried => exact h.1.toCalls.caller_ne hm hk hg hf hr
  | outcome => exact h.1.toCalls.caller_ne hm hk hg hf hr
  | operands count => exact h.2.1.toCalls.caller_ne hm hk hg hf hr
  | failed => exact h.elim
  | closed => exact h.elim

/-- Between two instructions everything is in order. -/
theorem Orderly.poised (h : Orderly admits kb q m) (hset : Setting admits kb q)
    (hfence : Fenced admits m) (hactive : m.Active) (hi : m.fetch = .ok i) : Poised i m := by
  cases h with
  | running _ hm hcode hat hfit =>
    obtain ⟨i', p', hi', hfetched⟩ := exists_fetched hset hactive hm hcode hat hfit
    obtain rfl := Except.ok.inj (hi.symm.trans hi')
    obtain ⟨n, hc⟩ := hfit.exists_control
    refine ⟨hm, hfence.toBarriers, hc.bottom, hc.place, fun k g r => hfit.caller_ne hm,
      fun g j hop htarget hf => ?_⟩
    obtain ⟨goal, rfl⟩ := Phase.returned_of_maybeRetryN (hfetched {}).next hop
    exact hfence.clear _ goal hcode hat g j htarget hf
  | headless _ _ _ hcode hlabel hhead =>
    have hblock := block?_headless hlabel hhead
    simp [fetch, hcode, hblock] at hi
  | answered _ _ hended => rw [hactive.2.2.1] at hended; cases hended
  | exhausted _ _ hended => rw [hactive.2.2.1] at hended; cases hended

/-- The machine of a search is ready for the instruction that it fetches. -/
theorem Search.poised (h : Search kb n m) (hactive : m.Active) (hi : m.fetch = .ok i) : Poised i m := by
  obtain ⟨q, hset, horderly⟩ := h.orderly hactive.1 hactive.2.1
  exact horderly.poised hset (h.fenced hactive.1 hactive.2.1 hactive.2.2.2) hactive hi

/-- Asking for the next answer is a failure of the query. -/
theorem Search.redo_fails (h : Search kb n m) (hstatus : m.status = .answer)
    (herror : m.redo.2.error = none) : Poised { op := .invalid } m ∧
      Fails { m with ended := false, success := false, steps := 0 } m.redo.2 := by
  obtain ⟨q, horderly, hfails⟩ := h.retreats hstatus herror
  have hended := status_eq_answer.1 hstatus
  have hfence := h.fenced horderly.error_none.2 horderly.error_none.1 hended.2
  refine ⟨?_, hfails⟩
  cases horderly with
  | running hactive => rw [hactive.2.2.1] at hended; cases hended.1
  | headless _ hactive => rw [hactive.2.2.1] at hended; cases hended.1
  | exhausted _ _ _ hmore => rw [hmore] at hended; cases hended.2
  | answered _ _ _ _ hm hc =>
    exact ⟨hm, hfence.toBarriers, hc.bottom, hc.place, fun k g r hg hf hr =>
      hc.toCalls.caller_ne hm (Array.getElem?_eq_some_iff.1 hf).1 hg hf hr, fun _ _ hop => by cases hop⟩

/-- The frames of the stack behind a move are old ones, or one is new. -/
theorem Effects.stack (h : Effects i m m') : m.frames.size ≤ m'.frames.size ∧
    ∀ (k : Nat) f, m'.stack[k]? = some f → m.stack[k]? = some f ∨ f = m.frames.size := by
  cases h with
  | keeps h => exact ⟨h.size, fun k f hf => .inl (h.stack k f hf)⟩
  | enters h => exact ⟨h.size, fun k f hf => .inl (h.stack k f hf)⟩
  | returns h => exact ⟨h.size, fun k f hf => .inl (h.stack k f hf)⟩
  | drops h => exact ⟨h.size, fun k f hf => .inl (h.stack k f hf)⟩
  | denies h => exact ⟨h.size, fun k f hf => .inl (h.stack k f hf)⟩
  | resumes h =>
    refine ⟨?_, fun k f hf => .inl (h.settles.stack k f hf)⟩
    simpa [resumed] using h.settles.size
  | exhausts h => exact ⟨h.settles.size, fun k f hf => .inl (h.settles.stack k f hf)⟩
  | pushes =>
    refine ⟨by simp [pushed], fun k f hf => ?_⟩
    by_cases hne : f = m.frames.size
    · exact .inr hne
    · exact .inl (frame_of_pushed hf hne).1
  | setsUp => exact ⟨by simp [readied], fun k f hf => .inl hf⟩
  | records => exact ⟨by simp [recorded], fun k f hf => .inl hf⟩
  | cuts => exact ⟨by simp [severed], fun k f hf => .inl hf⟩

/-- What happens in a search pushes new frames only. -/
theorem Happens.grows (h : Happens m m') : m.frames.size ≤ m'.frames.size ∧
    ∀ (k : Nat) f, m'.stack[k]? = some f → m.stack[k]? = some f ∨ f = m.frames.size := by
  cases h with
  | moves hmore hm hb hmove => exact (hmove.effects (Mild.counted.barriers hb)).stack
  | retreats hmore hm hb hfails =>
    let m₁ : Machine := { m with ended := false, success := false, steps := 0 }
    have hm₁ : m₁.Memory := hm.of_eq rfl rfl rfl fun _ => ⟨rfl, rfl⟩
    have hmild : Mild m m₁ := .fields _ ⟨rfl, rfl, rfl, rfl⟩
    have heffects : Effects { op := .invalid } m₁ m' :=
      hfails.effects (.fields _ ⟨rfl, rfl, rfl, rfl⟩) hm₁ (hmild.barriers hb)
    exact heffects.stack

/-- A frame that is no new one was on the stack before. -/
theorem Happens.stack (h : Happens m m') (hlt : f < m.frames.size) (hf : m'.stack[k]? = some f) :
    m.stack[k]? = some f :=
  (h.grows.2 k f hf).resolve_right (Nat.ne_of_lt hlt)

/-- **Whatever can happen in a search keeps what is under a frame.** -/
theorem Happens.keeps (h : Happens m m') (hd : d < m.depth) (hd' : d < m'.depth) : Keeps d m m' := by
  cases h with
  | @moves w i _ hmore hm hb hmove =>
    have hcounted : Keeps d m (m.counted w i) := .fields d rfl rfl fun _ => rfl
    exact hcounted.trans (hmove.keeps (Tame.counted hm 0).memory hd hd')
  | retreats hmore hm hb hfails =>
    let m₁ : Machine := { m with ended := false, success := false, steps := 0 }
    have hm₁ : m₁.Memory := hm.of_eq rfl rfl rfl fun _ => ⟨rfl, rfl⟩
    have hreset : Keeps d m m₁ := .fields d rfl rfl fun _ => rfl
    exact hreset.trans (hfails.keeps hm₁ hd hd')

/-- A frame that stays on the stack keeps its place and what is under it. -/
def Upholds (d : Nat) (f : FrameId) (m m' : Machine) : Prop :=
  f < m'.frames.size ∧ ∀ k, m'.stack[k]? = some f → k = d ∧ Keeps d m m'

theorem Upholds.refl (hm : m.Memory) (hf : m.stack[d]? = some f) : Upholds d f m m :=
  ⟨hm.lt_of_getElem? hf, fun _ hk => ⟨hm.index_unique hk hf, .refl d m⟩⟩

theorem Upholds.happens (h : Upholds d f m m') (hhappens : Happens m' m'') : Upholds d f m m'' := by
  obtain ⟨hlt, hkeeps⟩ := h
  refine ⟨hlt.trans_le hhappens.grows.1, fun k hk => ?_⟩
  have hold := hhappens.stack hlt hk
  obtain ⟨rfl, hkept⟩ := hkeeps k hold
  exact ⟨rfl, hkept.trans (hhappens.keeps (Array.getElem?_eq_some_iff.1 hold).1
    (Array.getElem?_eq_some_iff.1 hk).1)⟩

/-- **A run keeps what is under a frame as long as the frame is on the stack.** -/
theorem Continues.upholds (h : Continues kb m m') (hm : Search kb n m) (hmem : m.Memory)
    (hf : m.stack[d]? = some f) (herror : m'.error = none) : Upholds d f m m' := by
  induction h with
  | refl => exact .refl hmem hf
  | step hrun hw ih =>
    have hbefore := ih (error_none_of_step herror)
    rcases (hrun.search hm).step_happens hw herror with hidle | hhappens
    · rw [hidle]
      exact hbefore
    · exact hbefore.happens hhappens
  | redo hrun hstatus ih =>
    exact (ih (error_none_of_redo herror)).happens ((hrun.search hm).redo_happens hstatus herror)

/-! ## §4. Trying another clause. -/

/-- Backtracking tries no other clause. -/
theorem Backs.clause (h : Backs m m') (f : FrameId) : (m'.frame f).clause = (m.frame f).clause := by
  cases h with
  | spent => rfl
  | top => exact frame_resumed_field Frame.clause fun _ _ => rfl
  | cutQuery =>
    show ((m.poppedMany _).frame f).clause = _
    rw [frame_poppedMany]
  | cut =>
    refine (frame_resumed_field Frame.clause fun _ _ => rfl).trans ?_
    rw [frame_changeFrame_field Frame.clause (by intro; rfl), frame_poppedMany]

theorem Fails.clause (h : Fails m m') (f : FrameId) : (m'.frame f).clause = (m.frame f).clause := by
  cases h with
  | alternative =>
    refine (frame_changeFrame_field (m := { Machine.changeFrame m _ _ with heap := _ }) Frame.clause
      (by intro; rfl)).trans ?_
    exact frame_changeFrame_field Frame.clause (by intro; rfl)
  | back has hback =>
    refine (hback.clause f).trans ?_
    exact frame_changeFrame_field (m := { m with success := false }) Frame.clause (by intro; rfl)

/-- Only a retry moves a frame on to its next clause. -/
theorem Moves.retries_of_clause (h : Moves w i m m')
    (hclause : (m'.frame f).clause = (m.frame f).clause + 1) :
    m.top? = some f ∧ (m.frame f).cutTo = none ∧ (m.frame f).committed = false ∧
      m' = { m.unwound f 0 with index := m.index - 2 }.changeFrame f
        (fun fr => { fr with clause := fr.clause + 1 }) := by
  have hsame : (m'.frame f).clause ≠ (m.frame f).clause := by omega
  -- Every other move leaves the number of the clause alone, or sets it to zero in a new frame.
  cases h with
  | stays n ht hindex => exact (hsame (by rw [ht.quiet.frames f])).elim
  | @mismatches m₁ _ ht hback =>
    refine (hsame ((hback.clause f).trans ?_)).elim
    show (m₁.frame f).clause = _
    rw [ht.quiet.frames f]
  | fails ht hf => exact (hsame ((hf.clause f).trans (by rw [ht.quiet.frames f]))).elim
  | allocates =>
    by_cases hne : f = m.frames.size
    · subst hne
      rw [frame_pushed_self] at hclause
      cases hclause
    · exact (hsame (by rw [frame_pushed_of_ne hne])).elim
  | @setsUp f' htarget ht huntried =>
    by_cases hne : f = f'
    · subst hne
      by_cases hlt : f < m.frames.size
      · rw [readied, frame_changeFrame_self hlt] at hclause
        cases hclause
      · simp [readied, frame, Machine.changeFrame, hlt] at hclause
    · exact (hsame (by rw [readied, frame_changeFrame_of_ne hne])).elim
  | invokes h =>
    cases h with
    | enters => exact (hsame (frame_changeFrame_field Frame.clause (by intro; rfl))).elim
    | @responds f' s r m₁ ok count _ _ _ _ _ htame =>
      refine (hsame ?_).elim
      show (m₁.frame f).clause = _
      rw [htame.quiet.frames f]
      exact frame_changeFrame_field Frame.clause (by intro; rfl)
  | @retries f' hs htarget ht hcut hcommitted hmore =>
    by_cases hne : f = f'
    · subst hne
      exact ⟨ht, hcut, hcommitted, rfl⟩
    · refine (hsame ?_).elim
      rw [frame_changeFrame_of_ne hne]
      show ((m.unwound f' 0).frame f).clause = _
      rw [unwound, frame_changeFrame_of_ne hne]
      rfl
  | givesUp =>
    exact (hsame (frame_changeFrame_field (m := { m with heap := _ }) Frame.clause
      (by intro; rfl))).elim
  | denies =>
    refine (hsame ?_).elim
    show ((m.poppedMany _).frame f).clause = _
    rw [frame_poppedMany]
  | affirms =>
    refine (hsame ?_).elim
    show ((Machine.popped _).frame f).clause = _
    rw [frame_popped]
    exact frame_changeFrame_field (m := { m with heap := _ }) Frame.clause (by intro; rfl)
  | drops =>
    refine (hsame ?_).elim
    rw [frame_popped]
    rfl
  | records => exact (hsame (frame_changeFrame_field Frame.clause (by intro; rfl))).elim
  | prunes => exact (hsame (frame_changeFrame_field Frame.clause (by intro; rfl))).elim
  | jumps => exact (hsame rfl).elim
  | returns => exact (hsame rfl).elim
  | answers => exact (hsame rfl).elim
  | cuts =>
    refine (hsame ?_).elim
    rw [severed, frame_changeFrame_field Frame.clause (by intro; rfl)]
    exact frame_changeFrame_field Frame.clause (by intro; rfl)

/-- The next step pushes frame `f`. -/
def Allocates (m : Machine) (f : FrameId) : Prop :=
  m.Active ∧ (∃ i, m.fetch = .ok i ∧ i.op = .allocate) ∧ f = m.frames.size

/-- The next step goes back to the call of frame `f` for its next clause. -/
def Retries (w : World) (m : Machine) (f : FrameId) : Prop :=
  (∃ i, m.fetch = .ok i ∧ (i.op = .maybeRetry ∨ i.op = .maybeRetryN)) ∧ m.target = some f ∧
    (m.step w).2.error = none ∧ ((m.step w).2.frame f).clause = (m.frame f).clause + 1

/-- The step that pushes a frame does nothing else, unless the limit is used up. -/
theorem Allocates.step_eq (h : Allocates m f) (herror : (m.step w).2.error = none) :
    ∃ i, (m.step w).2 = (m.counted w i).pushed := by
  obtain ⟨hactive, ⟨i, hi, hop⟩, -⟩ := h
  have hexecute : execute w i = allocate := by simp only [execute, hop]
  exact ⟨i, by rw [step_performed hactive hi herror, perform_eq, hexecute, eval_allocate]⟩

/-- A machine with an error stays as it is. -/
theorem Continues.eq_of_error (h : Continues kb m m') (herror : m.error.isSome = true) : m' = m := by
  induction h with
  | refl => rfl
  | step _ _ ih =>
    subst ih
    exact step_of_idle (.inl herror)
  | redo _ _ ih =>
    subst ih
    exact redo_of_error herror

/-- A run without an error has none in between. -/
theorem Continues.error_eq_none (h : Continues kb m m') (herror : m'.error = none) : m.error = none := by
  by_contra hne
  rw [h.eq_of_error (Option.isSome_iff_ne_none.2 hne)] at herror
  exact hne herror

/-- Under a frame on top without recorded bindings are the present bindings. -/
theorem bindingUnder_top (ht : m.top? = some f) (hd : m.depth = d + 1)
    (htrail : (m.frame f).trail = []) (v : VarId) : m.bindingUnder d v = m.heap.binding? v := by
  have hrest : m.stack.toList.dropLast.drop d = [] := by
    rw [List.drop_eq_nil_iff]
    simp only [depth] at hd
    simp only [List.length_dropLast, Array.length_toList]
    omega
  unfold bindingUnder
  rw [trailsOf_drop ht (by omega), htrail, hrest]
  exact if_neg List.not_mem_nil

/-- **Backtracking restores the store.**  When a search, whatever native predicates it calls, goes back to
    the call of a frame for its next clause, every variable that existed when the frame was pushed has the
    binding of that moment, and below the frame are the same frames with the same trails. -/
theorem restored_at_retry {m₀ m : Machine} {w₀ w : World} {f : FrameId}
    (hsearch : Search kb n m₀) (hw₀ : Equipped kb w₀) (hpush : Allocates m₀ f)
    (hrun : Continues kb (m₀.step w₀).2 m) (hw : Equipped kb w) (hretry : Retries w m f) :
    (∀ v, v < m₀.heap.vars.size → (m.step w).2.heap.binding? v = m₀.heap.binding? v) ∧
      (m.step w).2.stack = m₀.stack.push f ∧
      ∀ g ∈ m₀.stack, ((m.step w).2.frame g).trail = (m₀.frame g).trail := by
  obtain ⟨-, -, herror, hclause⟩ := hretry
  have hsearch₁ : Search kb n (m₀.step w₀).2 := hsearch.step hw₀
  -- No error occurred: the machine would stand still.
  have hgoes : (m.step w).2 ≠ m := fun heq => by
    rw [heq] at hclause
    omega
  have herrorm : m.error = none := error_none_of_step herror
  have herror₁ : (m₀.step w₀).2.error = none := hrun.error_eq_none herrorm
  -- The frame is pushed.
  obtain ⟨i₀, hpushed⟩ := hpush.step_eq herror₁
  obtain ⟨hactive₀, ⟨_, hi₀, -⟩, rfl⟩ := hpush
  have hmem₀ : m₀.Memory := (hsearch.poised hactive₀ hi₀).memory
  have hmem₁ : (m₀.step w₀).2.Memory := by
    rw [hpushed]
    have hcounted : (m₀.counted w₀ i₀).Memory := (Tame.counted hmem₀ 0).memory
    exact hcounted.pushed
  have hstack₁ : (m₀.step w₀).2.stack = m₀.stack.push m₀.frames.size := by rw [hpushed]; rfl
  have hat₁ : (m₀.step w₀).2.stack[m₀.depth]? = some m₀.frames.size := by
    rw [hstack₁]
    exact Array.getElem?_push_size
  -- It is still on the stack, on top, when its next clause is tried.
  obtain ⟨-, hkeeps⟩ := hrun.upholds hsearch₁ hmem₁ hat₁ herrorm
  have hsearchm := hrun.search hsearch₁
  rcases hsearchm.advances hw herror with hidle | ⟨i, q, hactive, hi, -, hmove, -⟩
  · exact absurd hidle hgoes
  have hmem : m.Memory := (hsearchm.poised hactive hi).memory
  obtain ⟨ht, -, -, hafter⟩ := hmove.retries_of_clause (f := m₀.frames.size) hclause
  have htop : m.stack[m.depth - 1]? = some m₀.frames.size := top?_eq_getElem? ▸ ht
  obtain ⟨hdepth, hkept⟩ := hkeeps _ htop
  have hpos : m.depth - 1 < m.depth := (Array.getElem?_eq_some_iff.1 htop).1
  have hstack : (m.step w).2.stack = m.stack := by rw [hafter]; rfl
  have hdepth' : (m.step w).2.depth = m₀.depth + 1 := by
    rw [depth, hstack]
    show m.depth = _
    omega
  have hcounted : Keeps m₀.depth m (m.counted w i) := .fields _ rfl rfl fun _ => rfl
  have hkept' : Keeps m₀.depth (m₀.step w₀).2 (m.step w).2 :=
    hkept.trans (hcounted.trans (hmove.keeps (Tame.counted hmem 0).memory
      (show m₀.depth < m.depth by omega) (by omega)))
  refine ⟨fun v hv => ?_, ?_, fun g hg => ?_⟩
  · -- Nothing is recorded from the frame on, neither now nor when it was pushed.
    have hbefore : (m₀.step w₀).2.bindingUnder m₀.depth v = m₀.heap.binding? v := by
      rw [hpushed]
      exact bindingUnder_top top?_pushed depth_pushed (by rw [frame_pushed_self]) v
    have hnow : (m.step w).2.bindingUnder m₀.depth v = (m.step w).2.heap.binding? v := by
      refine bindingUnder_top (f := m₀.frames.size) ?_ hdepth' ?_ v
      · rw [top?, hstack]
        exact ht
      · rw [hafter, frame_changeFrame_field Frame.trail (by intro; rfl)]
        show (((m.counted w i).unwound m₀.frames.size 0).frame m₀.frames.size).trail = []
        have hmem' : (m.counted w i).Memory := (Tame.counted hmem 0).memory
        rw [frame_unwound_self (hmem'.lt_of_top? ht)]
        simp
    rw [← hnow, ← hbefore]
    exact hkept'.under v
  · rw [← hstack₁]
    apply Array.ext_getElem?
    intro k
    by_cases hk : k ≤ m₀.depth
    · exact hkept'.stack k hk
    · rw [Array.getElem?_eq_none (by simp only [depth] at hdepth' hk; omega),
        Array.getElem?_eq_none (by rw [hstack₁]; simp only [depth] at hk; simp; omega)]
  · obtain ⟨k, hk⟩ := Array.getElem?_of_mem hg
    have hkd : k < m₀.depth := (Array.getElem?_eq_some_iff.1 hk).1
    have hne : g ≠ m₀.frames.size := Nat.ne_of_lt (hmem₀.lt_of_getElem? hk)
    rw [hkept'.trails k g hkd (by rw [hpushed, stack_pushed (m := m₀.counted w₀ i₀) hkd]; exact hk),
      hpushed, frame_pushed_of_ne (m := m₀.counted w₀ i₀) hne]
    rfl

/-- With `same(Z, Z)`, `p(a) :- fail` and `p(b)`, the question `same(X, Y), p(X)` links `X` to `Y` before
    `p` is called, and its first clause binds `Y`; when the second is tried, `Y` is unbound again. -/
theorem restored_at_retry_branch : ∃ (kb : KnowledgeBase) (m₀ m : Machine) (w : World),
    Search kb 0 m₀ ∧ Allocates m₀ 2 ∧ Continues kb (m₀.step w).2 m ∧
      Retries w m 2 ∧ (m₀.heap.isBound 1 = false ∧ m.heap.isBound 1 = true) ∧
      (∀ v, v < m₀.heap.vars.size → (m.step w).2.heap.binding? v = m₀.heap.binding? v) ∧
      (m.step w).2.stack = m₀.stack.push 2 ∧
      ∀ g ∈ m₀.stack, ((m.step w).2.frame g).trail = (m₀.frame g).trail := by
  -- The clauses of `p`, and what they are compiled from.
  let p₁ : Clause := ⟨⟨"p", 1⟩, [("head", [
    { op := .getStruct, functor := "p", arity := 1, register := "$x0" },
    { op := .getTerm, constant := some ⟨.atom "a", .code 0 0⟩ }, { op := .jump, label := "g0" }]),
    ("g0", [{ op := .fail }])], false, []⟩
  let p₂ : Clause := ⟨⟨"p", 1⟩, [("head", [
    { op := .getStruct, functor := "p", arity := 1, register := "$x0" },
    { op := .getTerm, constant := some ⟨.atom "b", .code 0 1⟩ }, { op := .proceed }])], false, []⟩
  have hp₁ : CompiledFrom (fun _ => True) p₁ :=
    ⟨{}, .app "rule" [.app "p" [.const (.atom "a") 2] .none 0, .const (.atom "fail") 8] .none 5,
      .inl ⟨{}, "p(a) :- fail.", 0, rfl⟩, trivial, by cbv⟩
  have hp₂ : CompiledFrom (fun _ => True) p₂ :=
    ⟨{ constants := 1 }, .app "p" [.const (.atom "b") 2] .none 0, .inl ⟨{}, "p(b).", 0, rfl⟩, trivial,
      by cbv⟩
  let kb₀ : KnowledgeBase := (((({} : KnowledgeBase).insertUser linking.signature
    (some linking)).base.insertUser p₁.signature (some p₁)).base.insertUser p₂.signature (some p₂)).base
  let s := (({} : Machine).ask kb₀ (some linkedCall)).2
  let w : World := { base := s.1, natives := Registry.core }
  have hw : Equipped s.1 w := ⟨rfl, Registry.sober_core⟩
  -- The machine runs up to the call, and from there until its first clause has failed.
  let m₀ := (s.2.trace w 13).2
  let m := ((m₀.step w).2.trace w 8).2
  have hstart : Search s.1 0 s.2 :=
    .ask (.new {}) (.user (.user (.user .empty linking_compiled) hp₁) hp₂) linkedCall_question rfl
  have hsearch : Search s.1 0 m₀ := hstart.trace hw 13
  have hrun : Continues s.1 (m₀.step w).2 m := Continues.refl.trace hw 8
  have hpush : Allocates m₀ 2 := by
    obtain ⟨i, hi, hop⟩ := exists_fetch m₀ .allocate (by decide +kernel)
    exact ⟨active_of_isNone (by decide +kernel), ⟨i, hi, hop⟩, by decide +kernel⟩
  have hretry : Retries w m 2 := by
    obtain ⟨i, hi, hop⟩ := exists_fetch m .maybeRetry (by decide +kernel)
    exact ⟨⟨i, hi, .inl hop⟩, by decide +kernel,
      Option.isNone_iff_eq_none.1 (by decide +kernel), by decide +kernel⟩
  exact ⟨s.1, m₀, m, w, hsearch, hpush, hrun, hretry, by decide +kernel,
    restored_at_retry hsearch hw hpush hrun hw hretry⟩

end Machine

end PrologMachine
