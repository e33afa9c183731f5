/-
  PrologMachine.Proofs.Machine.Negation ── **NEGATION LEAVES NO TRACE.**

  When the outcome of a negated call is inverted, its frame and those above it are popped.  What they
  recorded is undone with them, and the frames below were never touched.

    * `AllocatesNegated`, `Inverts`: the steps that begin and end a negated call.
    * `Inversion`: what the last step does.
    * `negation_leaves_no_trace`: what a negated call leaves behind.
-/
import PrologMachine.Proofs.Machine.Excursion

namespace PrologMachine

namespace Machine

open Exec

variable {admits : Signature → Bool} {kb : KnowledgeBase} {q : Clause} {w : World}
  {m₀ m m' : Machine} {f g : FrameId} {i : Instruction} {n d j k l : Nat} {r : ReturnPoint}

/-! ## §1. Where a negated call begins. -/

/-- How the first outcome is asked for that the code asks for from the next instruction on. -/
def asking? (m : Machine) : Option Opcode :=
  match m.code with
  | none => none
  | some c =>
    match c.block? m.label with
    | none => none
    | some block => ((block.drop m.index).find? (·.op.asks)).map (·.op)

/-- The next step pushes the frame `f` for a negated goal. -/
def AllocatesNegated (m : Machine) (f : FrameId) : Prop := Allocates m f ∧ m.asking? = some .maybeRetryN

/-- The instruction that asks for the outcome is the next one that asks. -/
theorem asking?_eq {c : Clause} {block : Code} {o : Instruction} (hcode : m.code = some c)
    (hfound : c.block? m.label = some block) (hi : block[m.index]? = some i) (hasks : i.op.asks = false)
    (hcall : CallCode block (m.index + 1) n o) : m.asking? = some o.op := by
  simp only [asking?, hcode, hfound, find?_asks_drop hi hasks, hcall.find?_eq]
  rfl

/-- That is how the code of a negated goal begins. -/
theorem AllocatesNegated.of_segment {c : Clause} {block : Code} {isNative : Signature → Bool} {g : Goal}
    {e : Emitter} (hactive : m.Active) (hcode : m.code = some c) (hfound : c.block? m.label = some block)
    (hsegment : Segment block m.index ((callGoal isNative g true).eval e).1) :
    AllocatesNegated m m.frames.size := by
  obtain ⟨hi, n, hcall⟩ := exists_callCode_of_segment hsegment
  refine ⟨⟨hactive, ⟨{ op := .allocate }, ?_, rfl⟩, rfl⟩, asking?_eq hcode hfound hi rfl hcall⟩
  simp only [fetch, hcode, hfound, hi]

/-! ## §2. The way begins. -/

/-- Frames know their places. -/
theorem Calls.placed (hc : Calls admits kb q m m.depth) (hg : m.stack[k]? = some g) :
    (m.frame g).position = k := by
  rcases Nat.eq_zero_or_pos k with rfl | hk
  · obtain rfl := Option.some.inj (hg.symm.trans hc.bottom)
    exact hc.origin
  · obtain ⟨s, r, hp, -⟩ := hc.settled k g hk (Array.getElem?_eq_some_iff.1 hg).1 hg
    exact hp.place

/-- Frames are pushed between goals. -/
theorem Fetched.of_allocate {c : Clause} {p p' : Phase} (h : Fetched admits kb q m c j p i p')
    (hop : i.op = .allocate) : p' = .build [] none 0 ∧ Control admits kb q m m.depth := by
  have hfits := h.fits
  have hnext := h.next
  cases p with
  | body =>
    simp only [Phase.next, Phase.nextBody, hop] at hnext
    exact ⟨(Option.some.inj hnext).symm, hfits.2⟩
  | failed => exact hfits.elim
  | head pending last left => simp [Phase.next, Phase.nextHead, hop] at hnext
  | build regs begun left => simp [Phase.next, Phase.nextBuild, hop] at hnext
  | ready g => simp [Phase.next, hop] at hnext
  | returned g => simp [Phase.next, hop] at hnext
  | retried => simp [Phase.next, hop] at hnext
  | outcome => simp [Phase.next, hop] at hnext
  | operands n => simp [Phase.next, Phase.nextOperands, hop] at hnext
  | closed => cases hnext

/-- The code goes on with a negated call. -/
theorem AllocatesNegated.callsNegated {c : Clause} {p p' : Phase} (h : AllocatesNegated m f)
    (hf : Fetched admits kb q (m.counted w i) c m.index p i p') (hi : m.fetch = .ok i) :
    ∃ block n o, CallsNegated c block n o m := by
  obtain ⟨⟨-, ⟨i₀, hi₀, hop⟩, -⟩, hasking⟩ := h
  obtain rfl := Except.ok.inj (hi₀.symm.trans hi)
  obtain ⟨c', block, hcode, hfound, hget⟩ := fetch_eq_ok hi
  obtain rfl : c = c' := Option.some.inj (hf.code.symm.trans hcode)
  have hat : c.At admits m.label (m.index + 1) (.build [] none 0) := (hf.of_allocate hop).1 ▸ hf.behind
  obtain ⟨n, o, hcall⟩ := hat.exists_callCode hf.sound hfound
  have hasks : i₀.op.asks = false := by
    rw [hop]
    rfl
  have hnegated := Option.some.inj ((asking?_eq hcode hfound hget hasks hcall).symm.trans hasking)
  exact ⟨block, n, o, { hcall with code := hcode, found := hfound, negated := hnegated }⟩

/-- The current frame is a caller. -/
theorem Control.toCaller (hc : Control admits kb q m m.depth) (hm : m.Memory) : Caller m := by
  obtain ⟨j, hj, hcurrent⟩ := hc.current
  exact ⟨hc.depth_pos, hm.lt_of_getElem? hcurrent, (hc.toCalls.placed hcurrent).trans_lt hj⟩

/-- The way through a negated call begins when its frame is pushed. -/
theorem Negating.pushed (hc : Calls admits kb q (m₀.counted w i) m₀.depth) (hm : m₀.Memory)
    (hended : m₀.ended = false) (n : Nat) :
    Negating m₀ n m₀.frames.size (m₀.counted w i).pushed := by
  have hcounted : (m₀.counted w i).Memory := (Tame.counted hm 0).memory
  have hself : (m₀.counted w i).pushed.frame m₀.frames.size = { position := m₀.depth } :=
    frame_pushed_self (m := m₀.counted w i)
  exact {
    size := (Touches.pushed (m := m₀.counted w i) 0).size
    place := congrArg Frame.position hself
    placed := fun k g hg => by
      rcases stack_of_pushed hcounted hg with ⟨hold, heq⟩ | ⟨rfl, rfl⟩
      · rw [heq]
        exact hc.placed hold
      · exact congrArg Frame.position hself
    below := fun g hg _ => congrArg Frame.core (frame_pushed_of_ne (m := m₀.counted w i) (Nat.ne_of_lt hg))
    above := fun k g r hk hg _ => by
      have hkd : k < (m₀.counted w i).pushed.depth := (Array.getElem?_eq_some_iff.1 hg).1
      rw [depth_pushed] at hkd
      exact (Nat.not_le.2 hk (Nat.le_of_lt_succ hkd)).elim
    stage := .building (Nat.zero_le n) ⟨rfl, rfl, rfl, rfl, rfl, hended⟩ }

/-- What holds when the frame of a negated call is pushed. -/
theorem AllocatesNegated.begins (h : AllocatesNegated m₀ f) (hsearch : Search kb l m₀)
    (herror : (m₀.step w).2.error = none) : m₀.Memory ∧ Caller m₀ ∧ ∃ c block n o i,
      CallsNegated c block n o m₀ ∧ (m₀.step w).2 = (m₀.counted w i).pushed ∧
        Negating m₀ n f (m₀.counted w i).pushed := by
  obtain ⟨hactive, ⟨i, hi, hop⟩, rfl⟩ := h.1
  obtain ⟨q, c, p, i', p', hi', hfetched, hstep⟩ := hsearch.fetched hactive herror
  obtain rfl := Except.ok.inj (hi.symm.trans hi')
  obtain ⟨block, n, o, hsite⟩ := h.callsNegated hfetched hi
  have hm : m₀.Memory := hfetched.memory.of_eq rfl rfl rfl fun _ => ⟨rfl, rfl⟩
  obtain ⟨-, hcontrol⟩ := hfetched.of_allocate hop
  have hexecute : execute w i = allocate := by simp only [execute, hop]
  rw [hexecute, perform_eq_ok eval_allocate] at hstep
  obtain ⟨-, hlt, hplace⟩ := hcontrol.toCaller hfetched.memory
  exact ⟨hm, ⟨hcontrol.depth_pos, hlt, hplace⟩, c, block, n, o, i, hsite, hstep,
    .pushed hcontrol.toCalls hm hactive.2.2.1 n⟩

/-- Where the outcome is asked for, the call has been set up. -/
theorem Negating.returns_of_maybeRetryN {c : Clause} {block : Code} {o : Instruction} (h : Negating m₀ n f m)
    (hsite : CallsNegated c block n o m₀) (hi : m.fetch = .ok i) (hop : i.op = .maybeRetryN) :
    (m.frame f).returnPoint = some (behindCall m₀ n) := by
  have hsame : ∀ {j : Nat} {i' : Instruction}, Calling m₀ f j m → block[j]? = some i' →
      i'.op = .maybeRetryN := by
    intro j i' hcalling hi'
    obtain rfl := Except.ok.inj (hi.symm.trans (hsite.fetch hcalling hi'))
    exact hop
  cases h.stage with
  | @building k hk hcalling =>
    rcases Nat.lt_or_eq_of_le hk with hlt | rfl
    · obtain ⟨i', hi', hputs⟩ := hsite.puts k hlt
      rw [hsame hcalling hi'] at hputs
      cases hputs
    · obtain ⟨i', hi', hsetup⟩ := hsite.setup
      cases hsetup.symm.trans (hsame hcalling hi')
  | ready hcalling hr => exact hr
  | inside hin hr => exact hr
  | returned hcalling hr => exact hr

/-! ## §3. Popping down to the caller. -/

/-- What is bound when all frames from index `d` on are popped. -/
theorem binding?_poppedMany_under {v : VarId} (n : Nat) : ∀ {m : Machine}, m.Memory → n ≤ m.depth →
    (m.poppedMany n).heap.binding? v = m.bindingUnder (m.depth - n) v := by
  induction n with
  | zero =>
    intro m hm _
    have hnone : m.stack.toList.drop m.depth = [] := by
      rw [List.drop_eq_nil_iff]
      exact Nat.le_refl _
    unfold bindingUnder
    rw [Nat.sub_zero, hnone]
    exact (if_neg List.not_mem_nil).symm
  | succ n ih =>
    intro m hm hn
    have hd : m.depth - (n + 1) < m.depth := by omega
    obtain ⟨g, ht⟩ := exists_top_of_lt hd
    have hkept : Keeps (m.depth - (n + 1)) m (m.unwound g 0) := .unwound hm ht hd 0
    rw [poppedMany, ih hm.popped (by rw [depth_popped]; omega), depth_popped,
      show m.depth - 1 - n = m.depth - (n + 1) by omega, bindingUnder_popped hm ht hd, hkept.under v]

/-- Popping frames leaves the trails below alone. -/
theorem trail_poppedMany (n : Nat) : ∀ {m : Machine}, m.Memory → k < m.depth - n → m.stack[k]? = some g →
    ((m.poppedMany n).frame g).trail = (m.frame g).trail := by
  induction n with
  | zero => intro m _ _ _; rfl
  | succ n ih =>
    intro m hm hk hg
    have hg' : m.popped.stack[k]? = some g := by
      rw [stack_popped, Array.getElem?_pop, if_pos (by simp only [depth] at hk; omega)]
      exact hg
    rw [poppedMany, ih hm.popped (by rw [depth_popped]; omega) hg']
    unfold popped
    split
    · next f' ht =>
      have hne : g ≠ f' := by
        rintro rfl
        exact hm.ne_top ht k (by omega) hg
      exact congrArg Frame.trail (frame_changeFrame_of_ne (m := { m with heap := _ }) hne)
    · rfl

/-! ## §4. The outcome is inverted. -/

/-- The next step inverts the outcome of the negated call of frame `f`. -/
def Inverts (w : World) (m : Machine) (f : FrameId) : Prop :=
  (∃ i, m.fetch = .ok i ∧ i.op = .maybeRetryN) ∧ m.target = some f ∧
    (m.step w).2.error = none ∧ (m.step w).2.success = !m.success

/-- The outcome of the call of frame `f`, at place `d`, is inverted: what the frame on top records is undone
    where that is needed, and all frames from `f` on are popped. -/
structure Inversion (m : Machine) (f : FrameId) (d : Nat) (r : ReturnPoint) (m₁ m' : Machine) : Prop where
  /-- The frame is at its place. -/
  place : m.stack[d]? = some f
  /-- The call was set up. -/
  returns : (m.frame f).returnPoint = some r
  /-- Its caller runs. -/
  caller : r.frame = m.current
  /-- The memory is in shape. -/
  memory : m₁.Memory
  /-- No frame is popped before. -/
  stack : m₁.stack = m.stack
  /-- The same clause runs. -/
  current : m₁.current = m.current
  /-- Frames keep all but their trails. -/
  touches : Touches d m m₁
  /-- What is under the call is kept. -/
  keeps : Keeps d m m₁
  /-- The frames are popped. -/
  result : m' = { m₁.poppedMany (m.depth - d) with target := none, success := !m.success }

namespace Inversion

variable {m₁ : Machine}

/-- The frame of the call is on the stack. -/
theorem lt (h : Inversion m f d r m₁ m') : d < m.depth := (Array.getElem?_eq_some_iff.1 h.place).1

/-- The frames above the caller are popped. -/
theorem sub_eq (h : Inversion m f d r m₁ m') : m₁.depth - (m.depth - d) = d := by
  have hlt := h.lt
  rw [depth, h.stack]
  exact Nat.sub_sub_self hlt.le

/-- The stack is as deep as before the call. -/
theorem depth_eq (h : Inversion m f d r m₁ m') : m'.depth = d := by
  rw [h.result]
  exact (depth_poppedMany _ m₁).trans h.sub_eq

/-- The frames below are in their places. -/
theorem stack_eq (h : Inversion m f d r m₁ m') (hk : k < d) : m'.stack[k]? = m.stack[k]? := by
  rw [← h.stack, h.result]
  exact stack_poppedMany _ (h.sub_eq.symm ▸ hk)

/-- The current frame is the caller. -/
theorem current_eq (h : Inversion m f d r m₁ m') : m'.current = m.current := by
  rw [← h.current, h.result]
  exact current_poppedMany _ m₁

/-- Nothing below the call is touched. -/
theorem touches_eq (h : Inversion m f d r m₁ m') : Touches d m m' := by
  rw [h.result]
  exact h.touches.trans ((Touches.poppedMany d _).trans (.fields _ _ rfl))

/-- The frames below have their trails. -/
theorem trail_eq (h : Inversion m f d r m₁ m') (hk : k < d) (hg : m.stack[k]? = some g) :
    (m'.frame g).trail = (m.frame g).trail := by
  rw [← h.keeps.trails k g hk hg, h.result]
  exact trail_poppedMany _ h.memory (h.sub_eq.symm ▸ hk) (h.stack ▸ hg)

/-- What is bound is what was bound below the call. -/
theorem binding?_eq {v : VarId} (h : Inversion m f d r m₁ m') :
    m'.heap.binding? v = m.bindingUnder d v := by
  have hle : m.depth - d ≤ m₁.depth := by
    rw [depth, depth, h.stack]
    exact Nat.sub_le _ _
  have hpopped := binding?_poppedMany_under (v := v) (m.depth - d) h.memory hle
  rw [h.sub_eq, h.keeps.under v] at hpopped
  rw [h.result]
  exact hpopped

end Inversion

/-- Inverting an outcome pops the frames of the call. -/
theorem Inverts.inversion (h : Inverts w m f) (hsearch : Search kb l m) (hw : Equipped kb w) :
    m.error = none ∧ ∃ d r m₁, Inversion m f d r m₁ (m.step w).2 := by
  obtain ⟨⟨i, hi, hop⟩, htarget, herror, hsuccess⟩ := h
  -- The machine does not stand still.
  have hactive : m.Active := by
    rcases hsearch.advances hw herror with hidle | ⟨_, _, hactive, _⟩
    · rw [hidle] at hsuccess
      simp at hsuccess
    · exact hactive
  obtain ⟨q, c, p, i', p', hi', hfetched, hstep⟩ := hsearch.fetched hactive herror
  obtain rfl := Except.ok.inj (hi.symm.trans hi')
  obtain ⟨s, rfl⟩ := Phase.returned_of_maybeRetryN hfetched.next hop
  obtain ⟨d, f', r, l, -, hplace, -, htarget', -, hbehind, hp, -⟩ := hfetched.fits.returned
  obtain rfl : f = f' := Option.some.inj (htarget.symm.trans htarget')
  let m₀ := m.counted w i
  have hm₀ : m₀.Memory := hfetched.memory
  have hd : d < m.depth := (Array.getElem?_eq_some_iff.1 hplace).1
  have hexecute : execute w i = maybeRetryN := by simp only [execute, hop]
  rw [hexecute] at hstep
  rcases eval_maybeRetryN_returned hfetched htarget with ⟨-, heval⟩ | ⟨m₁, hm₁, heval⟩
  · -- The call is not tried again.
    rw [hstep, perform_eq_ok heval] at hsuccess
    have hsame : m.success = !m.success := hsuccess
    simp at hsame
  · rw [show (m₀.frame f).position = d from hp.place] at heval
    have htouches : Touches d m m₀ := .fields _ _ rfl
    have hkeeps : Keeps d m m₀ := .fields _ rfl rfl fun _ => rfl
    have hresult := hstep.trans (perform_eq_ok heval)
    refine ⟨hactive.2.1, d, r, m₁, ?_⟩
    rcases hm₁ with rfl | ⟨ht, rfl⟩
    · exact ⟨hplace, hp.returns, hbehind.2.2.2, hm₀, rfl, rfl, htouches, hkeeps, hresult⟩
    · exact ⟨hplace, hp.returns, hbehind.2.2.2, hm₀.unwound ht 0, rfl, rfl,
        htouches.trans (.unwound d f 0), hkeeps.trans (.unwound hm₀ ht hd 0), hresult⟩

/-! ## §5. No trace is left. -/

/-- A frame is its core with its variables and its trail. -/
theorem frame_eq_of_core {fr fr' : Frame} (hcore : fr'.core = fr.core) (htrail : fr'.trail = fr.trail) :
    fr' = { fr with vars := fr'.vars } := by
  have hrest : ({ fr'.core with vars := fr'.vars, trail := fr'.trail } : Frame) =
      { fr.core with vars := fr'.vars, trail := fr.trail } := by rw [hcore, htrail]
  exact hrest

/-- **A negated goal leaves no trace.**  When the outcome of a negated call is inverted, whatever native
    predicates it has called, the stack is as it was before its frame was pushed, and so are the frames on it,
    up to the variables of their clauses; every variable that existed then has the binding of that moment;
    and the clause that made the call runs on. -/
theorem negation_leaves_no_trace {m₀ m : Machine} {w₀ w : World} {f : FrameId}
    (hsearch : Search kb l m₀) (hw₀ : Equipped kb w₀) (hpush : AllocatesNegated m₀ f)
    (hrun : Continues kb (m₀.step w₀).2 m) (hw : Equipped kb w) (hinverts : Inverts w m f) :
    (m.step w).2.stack = m₀.stack ∧
      (∀ g ∈ m₀.stack, (m.step w).2.frame g = { m₀.frame g with vars := ((m.step w).2.frame g).vars }) ∧
      (∀ v, v < m₀.heap.vars.size → (m.step w).2.heap.binding? v = m₀.heap.binding? v) ∧
      (m.step w).2.current = m₀.current := by
  have hsearch₁ : Search kb l (m₀.step w₀).2 := hsearch.step hw₀
  obtain ⟨herror, d, r, m₁, hinversion⟩ := hinverts.inversion (hrun.search hsearch₁) hw
  obtain ⟨hm₀, hc, c, block, n, o, i₀, hsite, hpushed, hbegins⟩ :=
    hpush.begins hsearch (hrun.error_eq_none herror)
  obtain ⟨⟨-, -, rfl⟩, -⟩ := hpush
  let m₂ := m₀.counted w₀ i₀
  have hm₂ : m₂.pushed.Memory := (Tame.counted hm₀ 0).memory.pushed
  rw [hpushed] at hrun hsearch₁
  have hat : m₂.pushed.stack[m₀.depth]? = some m₀.frames.size := Array.getElem?_push_size
  -- The frame is still on the stack when the outcome is inverted.
  obtain ⟨rfl, hkept⟩ := (hrun.upholds hsearch₁ hm₂ hat herror).2 d hinversion.place
  have hnegating : Negating m₀ n m₀.frames.size m :=
    hrun.negating hbegins hsite hc hsearch₁ hm₂ hat herror hinversion.place
  have hold : ∀ {k : Nat}, k < m₀.depth → m.stack[k]? = m₀.stack[k]? := fun hk =>
    (hkept.stack _ hk.le).trans (stack_pushed (m := m₂) hk)
  refine ⟨?_, fun g hg => ?_, fun v hv => ?_, ?_⟩
  · apply Array.ext_getElem?
    intro k
    by_cases hk : k < m₀.depth
    · exact (hinversion.stack_eq hk).trans (hold hk)
    · rw [Array.getElem?_eq_none (hinversion.depth_eq.le.trans (Nat.le_of_not_lt hk)),
        Array.getElem?_eq_none (Nat.le_of_not_lt hk)]
  · obtain ⟨k, hk⟩ := Array.getElem?_of_mem hg
    have hkd : k < m₀.depth := (Array.getElem?_eq_some_iff.1 hk).1
    have hlt : g < m₀.frames.size := hm₀.lt_of_getElem? hk
    have hframe : m₂.pushed.frame g = m₀.frame g := frame_pushed_of_ne (m := m₂) (Nat.ne_of_lt hlt)
    have hg₂ : m₂.pushed.stack[k]? = some g := (stack_pushed (m := m₂) hkd).trans hk
    have hplace : (m₀.frame g).position = k := hframe ▸ hbegins.placed k g hg₂
    have hcore := hnegating.below g hlt (hplace.trans_lt hkd)
    have hplace' : (m.frame g).position = (m₀.frame g).position := by
      have hsame : (m.frame g).core.position = (m₀.frame g).core.position := congrArg Frame.position hcore
      exact hsame
    have hgm := (hold hkd).trans hk
    refine frame_eq_of_core ?_ ?_
    · exact (hinversion.touches_eq.core g (hlt.trans_le hnegating.size)
        ((hplace'.trans hplace).trans_lt hkd)).trans hcore
    · rw [hinversion.trail_eq hkd hgm, hkept.trails k g hkd hg₂, hframe]
  · have hbefore : m₂.pushed.bindingUnder m₀.depth v = m₀.heap.binding? v :=
      bindingUnder_top top?_pushed depth_pushed (by rw [frame_pushed_self]) v
    rw [hinversion.binding?_eq, hkept.under v, hbefore]
  · -- The call returns to its caller.
    obtain ⟨i, hi, hop⟩ := hinverts.1
    have hr : r = behindCall m₀ n :=
      Option.some.inj (hinversion.returns.symm.trans (hnegating.returns_of_maybeRetryN hsite hi hop))
    rw [hinversion.current_eq, ← hinversion.caller, hr]
    rfl

/-- With `same(Z, Z)` and `p(a)`, the question `same(X, Y), \+ p(X)` links `X` to `Y` before the negated call
    binds `Y`; when the outcome is inverted, `Y` is unbound again. -/
theorem negation_leaves_no_trace_link : ∃ (kb : KnowledgeBase) (m₀ m : Machine) (w : World),
    Search kb 0 m₀ ∧ AllocatesNegated m₀ 2 ∧ Continues kb (m₀.step w).2 m ∧
      Inverts w m 2 ∧ (m₀.heap.isBound 1 = false ∧ m.heap.isBound 1 = true) ∧
      (m.step w).2.stack = m₀.stack ∧
      (∀ g ∈ m₀.stack, (m.step w).2.frame g = { m₀.frame g with vars := ((m.step w).2.frame g).vars }) ∧
      (∀ v, v < m₀.heap.vars.size → (m.step w).2.heap.binding? v = m₀.heap.binding? v) ∧
      (m.step w).2.current = m₀.current := by
  -- The clause of `p` and the question, and what they are compiled from.
  let p : Clause := ⟨⟨"p", 1⟩, [("head", [
    { op := .getStruct, functor := "p", arity := 1, register := "$x0" },
    { op := .getTerm, constant := some ⟨.atom "a", .code 0 0⟩ }, { op := .proceed }])], false, []⟩
  let q : Clause := ⟨querySignature, [("g0", [
    { op := .allocate }, { op := .putStruct, functor := "same", arity := 2, register := "$x0" },
    { op := .putVar, name := "X" }, { op := .putVar, name := "Y" }, { op := .setup }, { op := .call },
    { op := .maybeRetry }, { op := .deallocate }, { op := .maybeFail },
    { op := .allocate }, { op := .putStruct, functor := "p", arity := 1, register := "$x0" },
    { op := .putValue, name := "X" }, { op := .setup }, { op := .call },
    { op := .maybeRetryN }, { op := .deallocate }, { op := .end_ }])], false, []⟩
  have hp : CompiledFrom (fun _ => True) p :=
    ⟨{}, .app "p" [.const (.atom "a") 2] .none 0, .inl ⟨{}, "p(a).", 0, rfl⟩, trivial, by cbv⟩
  have hq : Question (fun _ => True) q :=
    ⟨{}, .app "conj" [.app "same" [.var "X" 0, .var "Y" 0] .none 0,
      .app "not" [.app "p" [.var "X" 0] .none 15] .none 12] .none 10,
      .inl ⟨{}, "same(X, Y), \\+ p(X).", 0, rfl⟩, trivial, by cbv⟩
  let kb₀ : KnowledgeBase := ((({} : KnowledgeBase).insertUser linking.signature
    (some linking)).base.insertUser p.signature (some p)).base
  let s := (({} : Machine).ask kb₀ (some q)).2
  let w : World := { base := s.1, natives := Registry.core }
  have hw : Equipped s.1 w := ⟨rfl, Registry.sober_core⟩
  -- The machine runs up to the negated call, and from there until its outcome is inverted.
  let m₀ := (s.2.trace w 13).2
  let m := ((m₀.step w).2.trace w 7).2
  have hstart : Search s.1 0 s.2 := .ask (.new {}) (.user (.user .empty linking_compiled) hp) hq rfl
  have hsearch : Search s.1 0 m₀ := hstart.trace hw 13
  have hrun : Continues s.1 (m₀.step w).2 m := Continues.refl.trace hw 7
  -- The next instruction allocates for the negated call, and in the end one inverts.
  have hpush : AllocatesNegated m₀ 2 := by
    obtain ⟨i, hi, hop⟩ := exists_fetch m₀ .allocate (by decide +kernel)
    exact ⟨⟨active_of_isNone (by decide +kernel), ⟨i, hi, hop⟩, by decide +kernel⟩, by decide +kernel⟩
  have hinverts : Inverts w m 2 := by
    obtain ⟨i, hi, hop⟩ := exists_fetch m .maybeRetryN (by decide +kernel)
    exact ⟨⟨i, hi, hop⟩, by decide +kernel, Option.isNone_iff_eq_none.1 (by decide +kernel), by decide +kernel⟩
  exact ⟨s.1, m₀, m, w, hsearch, hpush, hrun, hinverts, by decide +kernel,
    negation_leaves_no_trace hsearch hw hpush hrun hw hinverts⟩

end Machine

end PrologMachine
