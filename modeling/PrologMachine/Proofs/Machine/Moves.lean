/-
  PrologMachine.Proofs.Machine.Moves ── **WHAT ONE INSTRUCTION DOES.**

  Every instruction of compiled code makes one of a few moves: it stays in its clause, pushes or sets
  up a frame, enters or leaves a clause, looks at the outcome of a call, or fails.

    * `Moves` lists them with the machines they lead to.
    * `execute_does`: an instruction that is fetched in its phase makes such a move and leaves an
      orderly machine, or stops with an error that the program caused.
-/
import PrologMachine.Proofs.Machine.Backtracking
import PrologMachine.Proofs.Native

namespace PrologMachine

namespace Machine

open Exec

/-! ## §1. Moves. -/

/-- What a call can do to a machine that has counted it. -/
inductive Invokes (w : World) (m : Machine) : Machine → Prop where
  /-- The clause being tried of the goal in the top frame is entered. -/
  | enters {f : FrameId} {s : StructId} {cs : List Clause} {c : Clause} (htarget : m.target = some f)
    (ht : m.top? = some f) (hcut : (m.frame f).cutTo = none)
    (hcommitted : (m.frame f).committed = false)
    (hx : (m.frame f).get? "$x0" = some (.struct s))
    (hcs : w.base.get ⟨(m.heap.structCell s).name, (m.heap.structCell s).args.length⟩ = .ok cs)
    (hc : cs[(m.frame f).clause]? = some c) (hn : c.native = false) :
    Invokes w m ((m.called f (.struct s) cs.length).entered f c)
  /-- The call of the top frame is answered without entering a clause. -/
  | responds {f : FrameId} {s : StructId} {r : ReturnPoint} {m₁ : Machine} {ok : Bool} {count : Nat}
    (htarget : m.target = some f) (ht : m.top? = some f) (hcut : (m.frame f).cutTo = none)
    (hcommitted : (m.frame f).committed = false) (hr : (m.frame f).returnPoint = some r)
    (htame : Tame m.depth (m.called f (.struct s) count) m₁) :
    Invokes w m { m₁ with success := ok, code := r.code, label := r.label, index := r.index }

/-- What an instruction can do to a machine that has counted it. -/
inductive Moves (w : World) (i : Instruction) (m : Machine) : Machine → Prop where
  /-- It stays in its clause. -/
  | stays {m' : Machine} (n : Nat) (ht : Tame n m m') (hindex : m'.index = m.index) : Moves w i m m'
  /-- The head does not match. -/
  | mismatches {m₁ m' : Machine} (ht : Tame m.depth m m₁)
    (hb : Backs { m₁ with success := false } m') : Moves w i m m'
  /-- The goal fails. -/
  | fails {m₁ m' : Machine} (ht : Tame m.depth m m₁) (hf : Fails m₁ m') : Moves w i m m'
  /-- A frame is pushed. -/
  | allocates : Moves w i m m.pushed
  /-- The call of the top frame is set up. -/
  | setsUp {f : FrameId} (htarget : m.target = some f) (ht : m.top? = some f)
    (huntried : Untried m f) (hcaller : ∃ j, j < m.depth - 1 ∧ m.stack[j]? = some m.current) :
    Moves w i m (m.readied f)
  /-- A goal is called. -/
  | invokes {m' : Machine} (h : Invokes w m m') : Moves w i m m'
  /-- The next clause of the failed call of the top frame is tried. -/
  | retries {f : FrameId} (hs : m.success = false) (htarget : m.target = some f)
    (ht : m.top? = some f) (hcut : (m.frame f).cutTo = none) (hcommitted : (m.frame f).committed = false)
    (hmore : (m.frame f).clause + 1 < (m.frame f).clauses) :
    Moves w i m ({ m.unwound f 0 with index := m.index - 2 }.changeFrame f
      (fun fr => { fr with clause := fr.clause + 1 }))
  /-- The failed call of the top frame has no clause left to try. -/
  | givesUp {f : FrameId} (hs : m.success = false) (htarget : m.target = some f)
    (ht : m.top? = some f) (hcut : (m.frame f).cutTo = none)
    (hmore : ¬ ((m.frame f).committed = false ∧ (m.frame f).clause + 1 < (m.frame f).clauses)) :
    Moves w i m (m.unwound f 0)
  /-- A negated call succeeded. -/
  | denies {f : FrameId} {k : Nat} (hs : m.success = true) (htarget : m.target = some f)
    (hk : 0 < k) (hf : m.stack[k]? = some f) (hi : i.op = .maybeRetryN)
    (hcaller : ∃ j, j < k ∧ m.stack[j]? = some m.current) :
    Moves w i m { m.poppedMany (m.depth - k) with target := none, success := false }
  /-- A negated call failed for good. -/
  | affirms {f : FrameId} (hs : m.success = false) (htarget : m.target = some f)
    (ht : m.top? = some f) (hcut : (m.frame f).cutTo = none)
    (hcaller : ∃ j, j < m.depth - 1 ∧ m.stack[j]? = some m.current) :
    Moves w i m { (m.unwound f 0).popped with target := none, success := true }
  /-- The frame of a call that failed for good is dropped. -/
  | drops {f : FrameId} (hs : m.success = false) (htarget : m.target = some f)
    (ht : m.top? = some f) (hf : f ≠ queryFrame) (hcut : (m.frame f).cutTo = none)
    (hcaller : ∃ j, j < m.depth - 1 ∧ m.stack[j]? = some m.current) :
    Moves w i m { m with target := none }.popped
  /-- An alternative is recorded. -/
  | records {f : FrameId} (hi : i.op = .tryElse) (ht : m.top? = some f) :
    Moves w i m (m.recorded f i.label)
  /-- Alternatives recorded on a deeper stack are dropped. -/
  | prunes : Moves w i m (m.changeFrame m.current (fun fr =>
      { fr with alternatives := pruneAlternatives m.depth fr.alternatives }))
  /-- Control goes to a block of the clause. -/
  | jumps (label : String) : Moves w i m { m with label, index := 0 }
  /-- The clause returns. -/
  | returns {r : ReturnPoint} (hs : m.success = true) (hq : m.current ≠ queryFrame)
    (hr : (m.frame m.current).returnPoint = some r)
    (hcaller : ∃ k l : Nat, k < l ∧ m.stack[k]? = some r.frame ∧ m.stack[l]? = some m.current) :
    Moves w i m { m with
      code := r.code, label := r.label, index := r.index, target := some m.current
      current := r.frame }
  /-- The query is answered. -/
  | answers (hs : m.success = true) : Moves w i m { m with ended := true }
  /-- The clause commits itself. -/
  | cuts {f : FrameId} (hi : i.op = .cut) (ht : m.top? = some f)
    (hplace : m.stack[(m.frame m.current).position]? = some m.current) :
    Moves w i m (m.severed f)

/-- What carrying out an instruction comes to. -/
inductive Does (admits : Signature → Bool) (kb : KnowledgeBase) (q : Clause)
    (Move : Machine → Machine → Prop) (m : Machine) : Except Error Unit × Machine → Prop where
  /-- A move to an orderly machine. -/
  | moves {m' : Machine} (hmove : Move m m') (horderly : Orderly admits kb q m') :
    Does admits kb q Move m (.ok (), m')
  /-- An error that the program caused. -/
  | stops {e : Error} {m' : Machine} (he : e.Permitted) (herror : m'.error = m.error)
    (hgood : m'.heap.Good) : Does admits kb q Move m (.error e, m')

/-- What an instruction does may be said more coarsely. -/
theorem Does.mono {admits : Signature → Bool} {kb : KnowledgeBase} {q : Clause}
    {Move Move' : Machine → Machine → Prop} {m : Machine} {out : Except Error Unit × Machine}
    (h : Does admits kb q Move m out) (hmono : ∀ m', Move m m' → Move' m m') :
    Does admits kb q Move' m out := by
  cases h with
  | moves hmove horderly => exact .moves (hmono _ hmove) horderly
  | stops he herror hgood => exact .stops he herror hgood

/-- The machine has fetched and counted the instruction `i`, which stands at `j` in phase `p` and
    leads to phase `p'`. -/
structure Fetched (admits : Signature → Bool) (kb : KnowledgeBase) (q : Clause) (m : Machine)
    (c : Clause) (j : Nat) (p : Phase) (i : Instruction) (p' : Phase) : Prop where
  /-- The memory is in shape. -/
  memory : m.Memory
  /-- The search is going on. -/
  active : m.Active
  /-- The clause is being run. -/
  code : m.code = some c
  /-- Its code is sound. -/
  sound : c.Sound admits
  /-- The instruction is counted. -/
  index : m.index = j + 1
  /-- The phase before it. -/
  before : c.At admits m.label j p
  /-- The machine fits it. -/
  fits : Fits admits kb q m j p
  /-- The instruction is allowed there. -/
  next : p.next admits i = some p'
  /-- The phase behind it. -/
  behind : c.At admits m.label (j + 1) p'
  /-- It leads to blocks of the clause. -/
  leads : i.goesToLabel → c.HasBody i.label

variable {admits : Signature → Bool} {kb : KnowledgeBase} {q : Clause} {w : World}
  {m m' : Machine} {c : Clause} {i : Instruction} {f : FrameId} {p p' : Phase} {g : Signature}
  {j n k : Nat} {out : Except Error Unit × Machine} {r : ReturnPoint}

/-- A quiet change keeps the machine active. -/
theorem Quiet.active (h : Quiet n m m') (ha : m.Active) : m'.Active :=
  ⟨(congrArg View.asked h.view).trans ha.1, (congrArg View.error h.view).trans ha.2.1,
    (congrArg View.ended h.view).trans ha.2.2.1, (congrArg View.exhausted h.view).trans ha.2.2.2⟩

/-- A quiet change keeps the block. -/
theorem Quiet.label (h : Quiet n m m') : m'.label = m.label := congrArg View.label h.view

/-- What stays in its clause, and what leaves it through failure. -/
theorem Performs.does (h : Performs admits kb q m p' out) (hf : Fetched admits kb q m c j p i p') :
    Does admits kb q (Moves w i) m out := by
  cases h with
  -- Where the phase goes on, the instruction behind this one is next; a mismatch backtracks first.
  | go n ht hindex hfit =>
    refine .moves (.stays n ht hindex) (.running (ht.quiet.active hf.active) ht.memory
      (ht.quiet.code.trans hf.code) ?_ (hfit _))
    rw [ht.quiet.label, hindex, hf.index]
    exact hf.behind
  | @mismatch m₁ hc ht =>
    have hc₁ : Control admits kb q m₁ m₁.depth := by
      rw [ht.quiet.depth]
      exact ht.quiet.control hc
    have ht₂ : Tame m₁.depth m₁ { m₁ with success := false } := .fields ht.memory _ ⟨rfl, rfl, rfl⟩
    have hc₂ := ht₂.quiet.control hc₁
    obtain ⟨m', heval, hb⟩ := hc₂.toCalls.exists_backs ht₂.memory
    rw [eval_headFail, heval]
    exact .moves (.mismatches ht hb)
      (hb.orderly ht₂.memory (ht.quiet.active hf.active) hc₂.toCalls)
  | @failure m₁ hc ht =>
    have hc₁ : Control admits kb q m₁ m₁.depth := by
      rw [ht.quiet.depth]
      exact ht.quiet.control hc
    obtain ⟨m', heval, hfails⟩ := hc₁.exists_fails ht.memory
    rw [heval]
    exact .moves (.fails ht hfails) (hfails.orderly ht.memory (ht.quiet.active hf.active) hc₁)
  | stop he herror hgood => exact .stops he herror hgood

/-! ## §2. Frames for calls. -/

/-- A frame of the stack was made. -/
theorem Memory.lt_of_getElem? (hm : m.Memory) (hf : m.stack[k]? = some f) : f < m.frames.size := by
  apply hm.stackBounded
  rw [← Array.getElem?_toList] at hf
  exact List.mem_of_getElem? hf

/-- The new frame has its defaults, and its place is the top. -/
theorem frame_pushed_self : m.pushed.frame m.frames.size = { position := m.depth } := by
  simp [pushed, frame]

/-- The other frames are as they were. -/
theorem frame_pushed_of_ne (hne : f ≠ m.frames.size) : m.pushed.frame f = m.frame f := by
  simp only [pushed, frame, Array.getElem?_push, if_neg hne]

/-- The stack is one frame deeper. -/
theorem depth_pushed : m.pushed.depth = m.depth + 1 := by simp [pushed, depth]

/-- The new frame is on top. -/
theorem top?_pushed : m.pushed.top? = some m.frames.size := by simp [pushed, top?]

/-- The frames below are in their places. -/
theorem stack_pushed (hk : k < m.depth) : m.pushed.stack[k]? = m.stack[k]? := by
  simp only [pushed, Array.getElem?_push]
  rw [if_neg (by simp only [depth] at hk; omega)]

theorem Memory.pushed (hm : m.Memory) : m.pushed.Memory := by
  have hne : ∀ f ∈ m.stack.toList, f ≠ m.frames.size := fun f hf =>
    Nat.ne_of_lt (hm.stackBounded f hf)
  have hstack : m.pushed.stack.toList = m.stack.toList ++ [m.frames.size] := by
    simp [Machine.pushed]
  -- The new frame has an empty trail.
  have htrails : m.pushed.trails = m.trails := by
    rw [trails, hstack, trailsOf_append, frame_pushed_self, List.nil_append]
    exact trailsOf_congr fun f hf => by rw [frame_pushed_of_ne (hne f hf)]
  refine ⟨hm.good, fun f e he => ?_, ?_, fun f hf => ?_, htrails ▸ hm.trailsNodup,
    fun v hv => hm.trailsBound v (htrails ▸ hv)⟩
  · by_cases h : f = m.frames.size
    · subst h
      rw [frame_pushed_self] at he
      cases he
    · rw [frame_pushed_of_ne h] at he
      exact hm.vars f e he
  · rw [hstack]
    refine List.nodup_append.2 ⟨hm.stackNodup, List.nodup_singleton _, fun a ha b hb => ?_⟩
    obtain rfl := List.mem_singleton.1 hb
    exact hne a ha
  · show f < (m.frames.push _).size
    rw [Array.size_push]
    rw [hstack, List.mem_append, List.mem_singleton] at hf
    rcases hf with hf | rfl
    · exact Nat.lt_succ_of_lt (hm.stackBounded f hf)
    · exact Nat.lt_succ_self _

/-- **Pushing a frame.** -/
theorem allocate_does (hf : Fetched admits kb q m c j .body i (.build [] none 0)) :
    Does admits kb q (Moves w i) m (eval allocate m) := by
  obtain ⟨hs, hc⟩ := hf.fits
  obtain ⟨k, hk, hcur⟩ := hc.current
  obtain ⟨c', hcode, hruns⟩ := hc.code
  have halike : Alike m.depth m m.pushed :=
    .of_frames (fun k hk => stack_pushed hk) rfl fun k f hk hf' => by
      rw [frame_pushed_of_ne (Nat.ne_of_lt (hf.memory.lt_of_getElem? hf'))]
  -- The new frame is no call yet: it has no return point, so the calls are those below it.
  have hcalls : Calls admits kb q m.pushed m.depth := by
    refine halike.calls hc.toCalls hc.depth_pos (by rw [depth_pushed]; omega) ?_
    intro k f hk hf' c _ a ha
    rw [frame_pushed_of_ne (Nat.ne_of_lt (hf.memory.lt_of_getElem? hf'))] at ha
    exact .inl ha
  rw [eval_allocate]
  refine .moves .allocates (.running (p := .build [] none 0) hf.active
    hf.memory.pushed hf.code ?_ ?_)
  · show c.At admits m.label m.index _
    rw [hf.index]
    exact hf.behind
  · refine ⟨hs, ?_, m.frames.size, rfl, top?_pushed, by simp, rfl, ?_⟩
    · rw [depth_pushed]
      exact { hcalls with
        current := ⟨k, hk, (stack_pushed hk).trans hcur⟩
        code := ⟨c', hcode, halike.runs hk hcur hruns⟩ }
    · rw [Untried, frame_pushed_self, depth_pushed]
      rfl

/-- The frame on top changes, those below do not. -/
theorem Alike.changeTop (hm : m.Memory) (ht : m.top? = some f) (hstack : m'.stack = m.stack)
    (hstructs : m'.heap.structs = m.heap.structs)
    (hframes : ∀ f', f' ≠ f → m'.frame f' = m.frame f') : Alike (m.depth - 1) m m' :=
  .of_frames (fun _ _ => by rw [hstack]) hstructs fun k f' hk hf' => by
    rw [hframes f' (by rintro rfl; exact hm.ne_top ht k hk hf')]

/-- The calls below the frame on top. -/
theorem Calls.changeTop (hc : Calls admits kb q m (m.depth - 1)) (h0 : 0 < m.depth - 1)
    (hm : m.Memory) (ht : m.top? = some f) (hstack : m'.stack = m.stack)
    (hstructs : m'.heap.structs = m.heap.structs)
    (hframes : ∀ f', f' ≠ f → m'.frame f' = m.frame f') :
    Calls admits kb q m' (m.depth - 1) := by
  have hdepth : m'.depth = m.depth := congrArg Array.size hstack
  refine (Alike.changeTop hm ht hstack hstructs hframes).calls hc h0 (by omega) ?_
  intro k f' hk hf' c _ a ha
  rw [hframes f' (by rintro rfl; exact hm.ne_top ht k hk hf')] at ha
  exact .inl ha

/-- **Setting up a call.** -/
theorem setup_does {regs : List String}
    (hf : Fetched admits kb q m c j (.build regs (some ("$x0", g)) 0) i (.ready g)) :
    Does admits kb q (Moves w i) m (eval setup m) := by
  obtain ⟨hs, hc, f, htarget, ht, -, hbuilds, huntried⟩ := hf.fits
  obtain ⟨s, hx, -, -, -, hname, hlen⟩ := hbuilds
  obtain ⟨k, hk, hcur⟩ := hc.current
  obtain ⟨c', hcode, hruns⟩ := hc.code
  obtain rfl := Option.some.inj (hf.code.symm.trans hcode)
  have hlt := hf.memory.lt_of_top? ht
  rw [eval_setup htarget]
  let m' := m.readied f
  have hself : m'.frame f = { m.frame f with clause := 0, returnPoint := some m.callPoint } :=
    frame_changeFrame_self hlt
  have hothers : ∀ f', f' ≠ f → m'.frame f' = m.frame f' := fun _ hne =>
    frame_changeFrame_of_ne hne
  have halike : Alike (m.depth - 1) m m' := .changeTop hf.memory ht rfl rfl hothers
  have hcalls : Calls admits kb q m' (m.depth - 1) :=
    hc.toCalls.changeTop (by omega) hf.memory ht rfl rfl hothers
  -- Behind the call that follows the clause goes on with the goal returned.
  obtain ⟨code, i', p', -, -, hnext', hbehind'⟩ := hf.behind.next hf.sound (by
    rintro (h | h) <;> cases h)
  have hp' : p' = .returned g := by
    simp only [Phase.next] at hnext'
    split at hnext'
    · exact (Option.some.inj hnext').symm
    · cases hnext'
  subst hp'
  have hgoal : m'.goal? f = some g := by
    have hx' : (m'.frame f).get? "$x0" = some (.struct s) := by rw [hself]; exact hx
    unfold goal?
    rw [hx']
    show some (Signature.mk (m.heap.structCell s).name (m.heap.structCell s).args.length) = some g
    rw [hname, show ((m.heap.structCell s).args.length : Int) = g.arity by simpa using hlen]
  refine .moves (.setsUp htarget ht huntried ⟨k, hk, hcur⟩) (.running (m := m') (p := .ready g) hf.active
    (hf.memory.changeFrame (by intro; rfl) (by intro; rfl)) hf.code ?_ ?_)
  · show c.At admits m.label m.index _
    rw [hf.index]
    exact hf.behind
  refine ⟨{ hcalls with
    current := ⟨k, hk, hcur⟩
    code := ⟨c, hf.code, halike.runs hk hcur hruns⟩ }, f, m.callPoint, htarget, ht, ?_, ?_⟩
  · exact
      { place := by
          rw [hself, huntried]
          rfl
        returns := by rw [hself]
        goal := hgoal
        caller := ⟨k, hk, hcur⟩
        code := by
          refine ⟨c, hf.code, halike.runs hk hcur hruns, ?_, fun a ha =>
            hc.alternatives k m.current hk hcur c hruns a ha⟩
          show c.At admits m.label (m.index + 1) _
          rw [hf.index]
          exact hbehind'
        clause := by
          intro cs hcs
          rw [hself, huntried]
          exact ⟨List.length_pos_iff.2 (KnowledgeBase.get_ne_nil hcs), Nat.zero_le _⟩
        unknown := by
          intro e _
          rw [hself, huntried]
          exact Nat.zero_le _ }
  · refine ⟨⟨rfl, rfl, rfl, rfl⟩, ?_, ?_⟩ <;> rw [hself, huntried]

/-! ## §3. Calls. -/

/-- The goal of a frame is the structure in its first register. -/
theorem goal?_eq_some (h : m.goal? f = some g) : ∃ s, (m.frame f).get? "$x0" = some (.struct s) ∧
    (⟨(m.heap.structCell s).name, (m.heap.structCell s).args.length⟩ : Signature) = g := by
  unfold goal? at h
  split at h
  · next s hs => exact ⟨s, hs, Option.some.inj h⟩
  · cases h

/-- The stack with one more call. -/
theorem Calls.extend (hc : Calls admits kb q m n) (h0 : 0 < n) (hf : m.stack[n]? = some f)
    (hp : Pending admits kb q m n f g r) (hg : g ≠ querySignature)
    (halternatives : ∀ c, Runs kb q m f c → ∀ a ∈ (m.frame f).alternatives, c.HasBody a.label) :
    Calls admits kb q m (n + 1) where
  bottom := hc.bottom
  origin := hc.origin
  size := (Array.getElem?_eq_some_iff.1 hf).1
  settled k f' hpos hk hf' := by
    rcases Nat.lt_or_eq_of_le (Nat.le_of_lt_succ hk) with hk | rfl
    · exact hc.settled k f' hpos hk hf'
    · obtain rfl := Option.some.inj (hf.symm.trans hf')
      exact ⟨g, r, hp, hg⟩
  alternatives k f' hk hf' := by
    rcases Nat.lt_or_eq_of_le (Nat.le_of_lt_succ hk) with hk | rfl
    · exact hc.alternatives k f' hk hf'
    · obtain rfl := Option.some.inj (hf.symm.trans hf')
      exact halternatives

/-- A call leaves nothing in the frame on top but the goal. -/
theorem Memory.called {s : StructId} (hm : m.Memory) (ht : m.top? = some f)
    (hx : (m.frame f).get? "$x0" = some (.struct s)) (count : Nat) :
    (m.called f (.struct s) count).Memory := by
  have hvars : ∀ f', ∀ e ∈ ((m.called f (.struct s) count).frame f').vars, m.heap.Holds e.2 := by
    intro f' e he
    by_cases hne : f' = f
    · subst hne
      rw [Machine.called, frame_changeFrame_self (hm.lt_of_top? ht)] at he
      obtain rfl := List.mem_singleton.1 he
      exact hm.holds_get hx
    · rw [Machine.called, frame_changeFrame_of_ne hne] at he
      exact hm.vars f' e he
  have htrails : (m.called f (.struct s) count).trails = m.trails :=
    trailsOf_congr fun _ _ => frame_changeFrame_field Frame.trail (by intro; rfl)
  exact ⟨hm.good, hvars, hm.stackNodup, fun f' hf' =>
    Nat.lt_of_lt_of_eq (hm.stackBounded f' hf') frames_size_changeFrame.symm,
    htrails ▸ hm.trailsNodup, fun v hv => hm.trailsBound v (htrails ▸ hv)⟩

/-- What a call needs to be carried out. -/
structure Callee (admits : Signature → Bool) (kb : KnowledgeBase) (q : Clause) (m : Machine)
    (f : FrameId) (g : Signature) (r : ReturnPoint) (s : StructId) : Prop where
  /-- The memory is in shape. -/
  memory : m.Memory
  /-- The calls below. -/
  below : Control admits kb q m (m.depth - 1)
  /-- It is on top. -/
  top : m.top? = some f
  /-- The call. -/
  pending : Pending admits kb q m (m.depth - 1) f g r
  /-- Its goal is the structure. -/
  goal : (m.frame f).get? "$x0" = some (.struct s)
  /-- No cut left a mark on it. -/
  unmarked : (m.frame f).cutTo = none
  /-- No cut ran in it. -/
  uncommitted : (m.frame f).committed = false

namespace Callee

variable {s : StructId} {count : Nat}

/-- A frame for a call is above another one. -/
theorem depth_pos (h : Callee admits kb q m f g r s) : 0 < m.depth - 1 := by
  obtain ⟨k, hk, -⟩ := h.below.current
  omega

/-- The call leaves the frame with its goal and nothing else in it. -/
theorem frame_called (h : Callee admits kb q m f g r s) (count : Nat) :
    (m.called f (.struct s) count).frame f = { m.frame f with
      vars := [("$x0", .struct s)], alternatives := [], cutTo := none, clauses := count } :=
  frame_changeFrame_self (h.memory.lt_of_top? h.top)

/-- The memory stays in order. -/
theorem memory_called (h : Callee admits kb q m f g r s) (count : Nat) :
    (m.called f (.struct s) count).Memory :=
  h.memory.called h.top h.goal count

/-- The frames below are alike. -/
theorem alike_called (h : Callee admits kb q m f g r s) (count : Nat) :
    Alike (m.depth - 1) m (m.called f (.struct s) count) :=
  .changeTop h.memory h.top rfl rfl fun _ hne => frame_changeFrame_of_ne hne

/-- The call that is carried out is one of the calls on the stack. -/
theorem calls_called (h : Callee admits kb q m f g r s) (count : Nat) (hg : g ≠ querySignature)
    (hclauses : ∀ cs, kb.get g = .ok cs → count ≤ cs.length)
    (hunknown : ∀ e, kb.get g = .error e → count ≤ 1) :
    Pending admits kb q (m.called f (.struct s) count) (m.depth - 1) f g r ∧
      Calls admits kb q (m.called f (.struct s) count) m.depth := by
  have h0 := h.depth_pos
  obtain ⟨k, hk, hcaller⟩ := h.pending.caller
  obtain ⟨c, hcode, hruns, hrest⟩ := h.pending.code
  have hself := h.frame_called count
  have hbelow : Calls admits kb q (m.called f (.struct s) count) (m.depth - 1) :=
    h.below.toCalls.changeTop h0 h.memory h.top rfl rfl fun _ hne => frame_changeFrame_of_ne hne
  have hpending : Pending admits kb q (m.called f (.struct s) count) (m.depth - 1) f g r :=
    { place := by rw [hself]; exact h.pending.place
      returns := by rw [hself]; exact h.pending.returns
      goal := by
        rw [← h.pending.goal]
        exact goal?_congr rfl (by rw [hself, h.goal]; rfl)
      caller := ⟨k, hk, hcaller⟩
      code := ⟨c, hcode, (h.alike_called count).runs hk hcaller hruns, hrest⟩
      clause := fun cs hcs => by
        rw [hself]
        exact ⟨(h.pending.clause cs hcs).1, hclauses cs hcs⟩
      unknown := fun e he => by rw [hself]; exact hunknown e he }
  -- The frame itself is a call as well from now on.
  have hstack : (m.called f (.struct s) count).stack[m.depth - 1]? = some f :=
    top?_eq_getElem? ▸ h.top
  have hcalls := hbelow.extend h0 hstack hpending hg fun c _ a ha => by
    rw [hself] at ha
    cases ha
  rw [Nat.sub_add_cancel (by omega)] at hcalls
  exact ⟨hpending, hcalls⟩

/-- A call that is answered at once returns. -/
theorem responded (h : Callee admits kb q m f g r s) (hactive : m.Active)
    (hbehind : m.ReturnsBehind j r) (htarget : m.target = some f) (hg : g ≠ querySignature)
    (hclauses : ∀ cs, kb.get g = .ok cs → count ≤ cs.length)
    (hunknown : ∀ e, kb.get g = .error e → count ≤ 1) {m₁ : Machine} (ok : Bool)
    (htame : Tame m.depth (m.called f (.struct s) count) m₁) :
    Orderly admits kb q
      { m₁ with success := ok, code := r.code, label := r.label, index := r.index } := by
  obtain ⟨hpending, hcalls⟩ := h.calls_called count hg hclauses hunknown
  have hpos := h.depth_pos
  have hquiet := htame.quiet
  have hcalls₁ := hquiet.calls hcalls (by omega)
  let m' : Machine := { m₁ with success := ok, code := r.code, label := r.label, index := r.index }
  have halike : Alike m.depth m₁ m' := .of_frames (fun _ _ => rfl) rfl fun _ _ _ _ => rfl
  have hdepth : m'.depth = m.depth := hquiet.depth
  have hcalls' : Calls admits kb q m' m.depth :=
    halike.calls hcalls₁ (by omega) (Nat.le_of_eq hdepth.symm) fun _ _ _ _ _ _ _ ha => .inl ha
  obtain ⟨hrcode, hrlabel, hrindex, hrframe⟩ := hbehind
  have hcur' : m'.current = r.frame := hquiet.current.trans hrframe.symm
  have hstack' : m'.stack = m.stack := hquiet.stack
  have hftop : m.stack[m.depth - 1]? = some f := top?_eq_getElem? ▸ h.top
  obtain ⟨k, hk, hcaller⟩ := hpending.caller
  have hp₁ := halike.pending (by omega) (by rw [hquiet.stack]; exact hftop)
    (hquiet.alike.pending (by omega) hftop hpending)
  obtain ⟨c, hcode, hruns, hat, -⟩ := hp₁.code
  refine .running (m := m') (hquiet.active hactive) (htame.memory.of_eq rfl rfl rfl fun _ =>
    ⟨rfl, rfl⟩) hcode hat ⟨?_, m.depth - 1, f, r, j, hpos, ?_, ?_, hp₁.returns, hp₁.goal, hrindex,
      ⟨rfl, rfl, hrindex, hcur'.symm⟩, fun _ => ⟨?_, ?_⟩⟩
  -- The machine stands behind the call again, with the target still on top.
  · rw [hdepth]
    refine { hcalls' with current := ⟨k, by omega, ?_⟩, code := ⟨c, hcode, by rw [hcur']; exact hruns⟩ }
    rw [hstack', hcur']
    exact hcaller
  · rw [hstack']
    exact hftop
  · exact hquiet.target.trans htarget
  · exact hquiet.top?.trans h.top
  · show (m₁.frame f).cutTo = none
    rw [hquiet.frames f, h.frame_called]

/-- A call enters a clause. -/
theorem entered (h : Callee admits kb q m f g r s) (hactive : m.Active) (hg : g ≠ querySignature)
    {cs : List Clause} {c : Clause} (hcs : kb.get g = .ok cs)
    (hc : cs[(m.frame f).clause]? = some c) (hcompiled : c.Compiled admits) :
    Orderly admits kb q ((m.called f (.struct s) cs.length).entered f c) := by
  obtain ⟨hpending, hcalls⟩ := h.calls_called cs.length hg
    -- The goal has clauses, so the case of an unknown predicate does not arise.
    (fun cs' hcs' => Nat.le_of_eq (congrArg List.length (Except.ok.inj (hcs.symm.trans hcs'))))
    (fun e he => by rw [hcs] at he; cases he)
  have hpos := h.depth_pos
  have hself := h.frame_called cs.length
  let m' := (m.called f (.struct s) cs.length).entered f c
  have halike : Alike m.depth (m.called f (.struct s) cs.length) m' :=
    .of_frames (fun _ _ => rfl) rfl fun _ _ _ _ => rfl
  have hftop : m.stack[m.depth - 1]? = some f := top?_eq_getElem? ▸ h.top
  have hcalls' : Calls admits kb q m' m.depth :=
    halike.calls hcalls (by omega) (Nat.le_refl _) fun _ _ _ _ _ _ _ ha => .inl ha
  have hfq : f ≠ queryFrame := by
    rintro rfl
    exact h.memory.ne_top h.top 0 hpos h.below.bottom
  have hruns : Runs kb q m' f c :=
    .call hfq (halike.goal _ f (by omega) hftop ▸ hpending.goal) hg hcs
      (by rw [show m'.frame f = _ from hself]; exact hc) hcompiled.native
  have hat : c.At admits headLabel 0 (.head ["$x0"] "" 0) := Clause.At.start hcompiled.head
  refine .running (m := m') hactive ((h.memory_called cs.length).of_eq rfl rfl rfl fun _ =>
    ⟨rfl, rfl⟩) rfl hat ⟨rfl, { hcalls' with
      current := ⟨m.depth - 1, by show m.depth - 1 < m.depth; omega, hftop⟩
      code := ⟨c, rfl, hruns⟩ }, fun x hx => ?_, .inl ⟨rfl, rfl⟩⟩
  obtain rfl := List.mem_singleton.1 hx
  show (((m.called f (.struct s) cs.length).frame f).get? "$x0").isSome = true
  rw [hself]
  rfl

end Callee

/-- A native clause returns at once, or its predicate gives up, if it binds what it reports. -/
theorem Callee.answers {s : StructId} {b : Builtin} (h : Callee admits kb q m f g r s)
    (hactive : m.Active) (hbehind : m.ReturnsBehind j r) (htarget : m.target = some f)
    (hg : g ≠ querySignature) (hb : w.natives.lookup? g = some b) (count : Nat) {scene : Scene}
    (hscene : scene = ⟨m.heap, [], m.transcript, w.complaint⟩)
    (hgrows : scene.Grows (b.call (m.heap.structCell s).args scene).2) :
    (∃ m', eval (callNative w f g (m.heap.structCell s).args) (m.called f (.struct s) count) =
        (.ok (), m') ∧ (∀ w', Invokes w' m m') ∧ Orderly admits kb q m') ∨
      ∃ e m', eval (callNative w f g (m.heap.structCell s).args) (m.called f (.struct s) count) =
        (.error e, m') ∧ (b.call (m.heap.structCell s).args scene).1 = .error e ∧
          m'.error = m.error ∧ m'.heap.Good := by
  rw [eval_callNative hb, changeFrame_called]
  simp only
  rw [show Scene.mk (m.called f (.struct s) 1).heap [] (m.called f (.struct s) 1).transcript
    w.complaint = scene from hscene.symm]
  generalize b.call (m.heap.structCell s).args scene = out at hgrows ⊢
  obtain ⟨out, scene'⟩ := out
  obtain ⟨vs, hvs, hgains⟩ := hgrows.binds
  subst hscene
  have hvs' : scene'.bound = vs := hvs.trans (List.append_nil vs)
  have hm := h.memory_called 1
  let m₂ : Machine := { m.called f (.struct s) 1 with
    heap := scene'.heap, transcript := scene'.transcript }.trailAll scene'.bound
  -- Whatever the native has bound was unbound before, and is on the trail of the target now.
  have ht : Tame m.depth (m.called f (.struct s) 1) m₂ := by
    have hfields : Tame m.depth (m.called f (.struct s) 1)
        { m.called f (.struct s) 1 with transcript := scene'.transcript } :=
      .fields hm _ ⟨rfl, rfl, rfl⟩
    simp only [m₂, hvs']
    exact hfields.trans (.record hfields.memory h.top hgrows.good hgains _)
  cases out with
  | error e => exact .inr ⟨e, m₂, rfl, rfl, congrArg View.error ht.quiet.view, ht.memory.good⟩
  | ok ok =>
    have hr : (({ m₂ with success := ok } : Machine).frame f).returnPoint = some r := by
      show (m₂.frame f).returnPoint = some r
      rw [ht.quiet.frames f, h.frame_called]
      exact h.pending.returns
    refine .inl ⟨{ m₂ with success := ok, code := r.code, label := r.label, index := r.index },
      ?_, fun _ => .responds htarget h.top h.unmarked h.uncommitted h.pending.returns ht,
      h.responded hactive hbehind htarget hg
        (fun cs hcs => List.length_pos_iff.2 (KnowledgeBase.get_ne_nil hcs))
        (fun _ _ => Nat.le_refl 1) ok ht⟩
    show eval (returnTo f) { m₂ with success := ok } = _
    rw [eval_returnTo hr]

/-- What a run works with: the knowledge base and the standard native predicates. -/
structure Worldly (kb : KnowledgeBase) (w : World) : Prop where
  /-- The clauses. -/
  base : w.base = kb
  /-- The native predicates. -/
  natives : w.natives = Registry.core

/-- A standard native predicate gives up through its handler only. -/
theorem callNative_does {s : StructId} {count : Nat} (hw : Worldly kb w)
    (h : Callee admits kb q m f g r s) (hactive : m.Active) (hbehind : m.ReturnsBehind j r)
    (htarget : m.target = some f) (hg : g ≠ querySignature) {b : Builtin}
    (hgoal : (⟨(m.heap.structCell s).name, (m.heap.structCell s).args.length⟩ : Signature) = g)
    (hb : Registry.core.lookup? g = some b) :
    Does admits kb q (Invokes w) m
      (eval (callNative w f g (m.heap.structCell s).args) (m.called f (.struct s) count)) := by
  have hlen : ((m.heap.structCell s).args.length : Int) = g.arity := by rw [← hgoal]
  let scene : Scene := ⟨m.heap, [], m.transcript, w.complaint⟩
  obtain ⟨hgrows, herror⟩ :=
    Builtin.call_core hb hlen scene h.memory.good (h.memory.good.args s)
  rcases h.answers hactive hbehind htarget hg (by rw [hw.natives, hb]) count rfl hgrows with
    ⟨m', heval, hinvokes, horderly⟩ | ⟨e, m', heval, hout, herror', hgood⟩
  · rw [heval]
    exact .moves (hinvokes w) horderly
  · obtain ⟨text, he⟩ := herror e hout
    rw [heval]
    exact .stops (.inr ⟨g, text, Option.isSome_iff_exists.2 ⟨b, hb⟩, he⟩) herror' hgood

/-- **Calling a goal.** -/
theorem call_does (hset : Setting admits kb q) (hw : Worldly kb w) (op : Opcode)
    (hf : Fetched admits kb q m c j (.ready g) i (.returned g)) :
    Does admits kb q (Invokes w) m (eval (call w op) m) := by
  obtain ⟨hc, f, r, htarget, ht, hp, hbehind, hcut, hcommitted⟩ := hf.fits
  obtain ⟨s, hx, hgoal⟩ := goal?_eq_some hp.goal
  have hcallee : Callee admits kb q m f g r s := ⟨hf.memory, hc, ht, hp, hx, hcut, hcommitted⟩
  -- Either nothing is known under the name of the goal, or it has clauses: a native one or compiled
  -- ones.
  cases hcs : kb.get g with
  | error e =>
    have hcs' : w.base.get ⟨(m.heap.structCell s).name, (m.heap.structCell s).args.length⟩ =
        .error e := by rw [hw.base, hgoal, hcs]
    have hg : g ≠ querySignature := by
      rintro rfl
      rw [hset.query] at hcs
      cases hcs
    cases hunknown : w.unknownFails with
    | true =>
      rw [eval_call_unknown htarget hx rfl hcs' hunknown hp.returns]
      have htame : Tame m.depth (m.called f (.struct s) 1) (m.called f (.struct s) 1) :=
        .fields (hcallee.memory_called 1) _ ⟨rfl, rfl, rfl⟩
      exact .moves (.responds htarget ht hcut hcommitted hp.returns htame)
        (hcallee.responded hf.active hbehind htarget hg (fun cs h => by rw [hcs] at h; cases h)
          (fun _ _ => Nat.le_refl 1) false htame)
    | false =>
      rw [eval_call_error htarget hx rfl hcs' hunknown]
      obtain rfl := KnowledgeBase.get_error hcs
      exact .stops (.inl ⟨"D0101", by decide, rfl⟩) rfl hf.memory.good
  | ok cs =>
    have hcs' : w.base.get ⟨(m.heap.structCell s).name, (m.heap.structCell s).args.length⟩ =
        .ok cs := by rw [hw.base, hgoal, hcs]
    obtain ⟨c', hc'⟩ : ∃ c', cs[(m.frame f).clause]? = some c' :=
      ⟨_, List.getElem?_eq_getElem (hp.clause cs hcs).1⟩
    have hmem : c' ∈ cs := List.mem_of_getElem? hc'
    by_cases hg : g = querySignature
    · -- The query is found under its own name; it has code but no head.
      subst hg
      obtain rfl := Except.ok.inj (hset.query.symm.trans hcs)
      obtain rfl := List.mem_singleton.1 hmem
      rw [eval_call_enter htarget hx rfl hcs' hc' hset.native]
      exact .moves (.enters htarget ht hcut hcommitted hx hcs' hc' hset.native)
        (.headless hf.before.admits_of_ready hf.active hf.memory.good rfl rfl hset.headless rfl)
    · rcases hset.base.callable hg hcs c' hmem with ⟨hn, hhandler⟩ | hcompiled
      · rw [eval_call_native htarget hx rfl hcs' hc' hn, hgoal]
        obtain ⟨b, hb⟩ := Option.isSome_iff_exists.1 hhandler
        exact callNative_does hw hcallee hf.active hbehind htarget hg hgoal hb
      · rw [eval_call_enter htarget hx rfl hcs' hc' hcompiled.native]
        exact .moves (.enters htarget ht hcut hcommitted hx hcs' hc' hcompiled.native)
          (hcallee.entered hf.active hg hcs hc' hcompiled)

/-- The instructions that call do so. -/
theorem execute_call_does (hset : Setting admits kb q) (hw : Worldly kb w)
    (hf : Fetched admits kb q m c j (.ready g) i (.returned g)) (hi : i.calls) :
    Does admits kb q (Invokes w) m (eval (execute w i) m) := by
  rcases hi with hop | hop <;> simp only [execute, hop] <;> exact call_does hset hw _ hf

/-! ## §4. The outcome of a call. -/

/-- The machine goes on behind the instruction. -/
theorem Fetched.goesOn (hf : Fetched admits kb q m c j p i p') (hactive : m'.Active)
    (hm : m'.Memory) (hcode : m'.code = m.code) (hlabel : m'.label = m.label)
    (hindex : m'.index = m.index) (hfit : Fits admits kb q m' (j + 1) p') :
    Orderly admits kb q m' := by
  have hindex' := hindex.trans hf.index
  refine .running hactive hm (hcode.trans hf.code) ?_ (hindex' ▸ hfit)
  rw [hlabel, hindex']
  exact hf.behind

/-- Undoing the bindings of a frame keeps the shape of the stack. -/
theorem Control.unwound (hc : Control admits kb q m m.depth) (f : FrameId) (mark : Nat) :
    Control admits kb q (m.unwound f mark) m.depth := by
  obtain ⟨k, hk, hcur⟩ := hc.current
  obtain ⟨c, hcode, hruns⟩ := hc.code
  obtain ⟨halike, hcalls⟩ := hc.toCalls.modify (m.unwound f mark) hc.depth_pos f
    (fun fr => { fr with
      trail := (m.frame f).trail.drop ((m.frame f).trail.length - mark) })
    (by intro; rfl) rfl Heap.structs_resetAll rfl fun _ _ _ _ _ a ha => .inl ha
  exact { hcalls with
    current := ⟨k, hk, hcur⟩
    code := ⟨c, hcode, halike.runs hk hcur hruns⟩ }

/-- The call that has returned. -/
theorem Fits.returned (hfit : Fits admits kb q m j (.returned g)) :
    ∃ k f r l, 0 < k ∧ m.stack[k]? = some f ∧ f ≠ queryFrame ∧ m.target = some f ∧ j = l + 1 ∧
      m.ReturnsBehind l r ∧ Pending admits kb q m k f g r ∧
      (m.success = false → m.top? = some f ∧ k = m.depth - 1 ∧ (m.frame f).cutTo = none) := by
  obtain ⟨hc, k, f, r, l, hk, hf, htarget, hr, hg, hj, hbehind, htop⟩ := hfit
  have hkd : k < m.depth := (Array.getElem?_eq_some_iff.1 hf).1
  obtain ⟨g', r', hp, -⟩ := hc.settled k f hk hkd hf
  obtain rfl := Option.some.inj (hr.symm.trans hp.returns)
  obtain rfl := Option.some.inj (hg.symm.trans hp.goal)
  have hfq : f ≠ queryFrame := by
    rintro rfl
    have := hp.place
    rw [hc.origin] at this
    omega
  refine ⟨k, f, r, l, hk, hf, hfq, htarget, hj, hbehind, hp, fun hs => ⟨(htop hs).1, ?_, (htop hs).2⟩⟩
  have hd := top?_eq_getElem?.symm.trans (htop hs).1
  have hpos := hc.depth_pos
  obtain ⟨-, g', r', hp', -⟩ := hc.pending (by omega) hd hfq
  exact hp.place.symm.trans hp'.place

/-- The next clause of a call that failed. -/
theorem retried (hf : Fetched admits kb q m c j (.returned g) i p') (htarget : m.target = some f)
    (ht : m.top? = some f) (hcut : (m.frame f).cutTo = none)
    (hcommitted : (m.frame f).committed = false)
    (hmore : (m.frame f).clause + 1 < (m.frame f).clauses) :
    Orderly admits kb q ({ m.unwound f 0 with index := m.index - 2 }.changeFrame f
      (fun fr => { fr with clause := fr.clause + 1 })) := by
  obtain ⟨k, f', r, l, hk, hfk, hfq, htarget', hj, hbehind, hp, -⟩ := hf.fits.returned
  obtain rfl := Option.some.inj (htarget.symm.trans htarget')
  obtain ⟨l', hl', hat⟩ := hf.before.ready_of_returned
  obtain rfl : l = l' := by omega
  have hc := hf.fits.1
  have hpos := hc.depth_pos
  have hlt := hf.memory.lt_of_top? ht
  -- The call that failed is the one on top, since nothing above it is left.
  have hkd : k = m.depth - 1 := by
    obtain ⟨-, g', r', hp', -⟩ := hc.pending (by omega) (top?_eq_getElem? ▸ ht) hfq
    exact hp.place.symm.trans hp'.place
  subst hkd
  obtain ⟨k', hk', hcaller⟩ := hp.caller
  obtain ⟨c', hcode, hruns, hrest⟩ := hp.code
  let m₁ : Machine := { m.unwound f 0 with index := m.index - 2 }
  let m' : Machine := m₁.changeFrame f (fun fr => { fr with clause := fr.clause + 1 })
  -- The frame keeps its goal and its return point; its trail is empty and its clause is the next one.
  have hself : m'.frame f = { m.frame f with
      trail := (m.frame f).trail.drop ((m.frame f).trail.length - 0)
      clause := (m.frame f).clause + 1 } := by
    have h₁ : m₁.frame f = _ := frame_unwound_self hlt 0
    have hlt₁ : f < m₁.frames.size := Nat.lt_of_lt_of_eq hlt frames_size_changeFrame.symm
    rw [show m'.frame f = _ from frame_changeFrame_self hlt₁, h₁]
  have hothers : ∀ f', f' ≠ f → m'.frame f' = m.frame f' := fun _ hne =>
    (frame_changeFrame_of_ne hne).trans
      (frame_changeFrame_of_ne (m := { m with heap := _ }) hne)
  have hstructs : m'.heap.structs = m.heap.structs := Heap.structs_resetAll
  have halike : Alike (m.depth - 1) m m' := .changeTop hf.memory ht rfl hstructs hothers
  have hcalls : Calls admits kb q m' (m.depth - 1) :=
    (hc.toCalls.mono (by omega)).changeTop hk hf.memory ht rfl hstructs hothers
  refine .running (m := m') (p := .ready g) hf.active ((hf.memory.unwound ht 0).modify f
    (fun fr => { fr with clause := fr.clause + 1 }) (by intro; rfl) (by intro; rfl) rfl rfl rfl)
    hf.code ?_ ?_
  · show c.At admits m.label (m.index - 2) _
    rw [hf.index, hj]
    exact hat
  have hcur : m.current = r.frame := hbehind.2.2.2.symm
  have hindex : m'.index = l := by
    show m.index - 2 = l
    rw [hf.index, hj]
    rfl
  rw [hindex]
  refine ⟨{ hcalls with
    current := ⟨k', hk', by rw [show m'.current = r.frame from hcur]; exact hcaller⟩
    code := ⟨c', hbehind.1.symm.trans hcode, by
      rw [show m'.current = r.frame from hcur]
      exact halike.runs hk' hcaller hruns⟩ }, f, r, htarget, ht, ?_, hbehind,
    by rw [hself]; exact hcut, by rw [hself]; exact hcommitted⟩
  exact
    { place := by rw [hself]; exact hp.place
      returns := by rw [hself]; exact hp.returns
      goal := by
        rw [← hp.goal]
        exact goal?_congr hstructs (by rw [hself]; rfl)
      caller := ⟨k', hk', hcaller⟩
      code := ⟨c', hcode, halike.runs hk' hcaller hruns, hrest⟩
      clause := fun cs hcs => by
        have hle := (hp.clause cs hcs).2
        rw [hself]
        exact ⟨Nat.lt_of_lt_of_le hmore hle, hle⟩
      unknown := fun e he => by
        have hle := hp.unknown e he
        rw [hself]
        exact hle }

/-- **Looking for the next clause of a call.** -/
theorem maybeRetry_does (hf : Fetched admits kb q m c j (.returned g) i .retried) :
    Does admits kb q (Moves w i) m (eval maybeRetry m) := by
  have hc := hf.fits.1
  cases hs : m.success with
  | true =>
    rw [eval_maybeRetry_success hs]
    exact .moves (.stays m.depth (.fields hf.memory _ ⟨rfl, rfl, rfl⟩) rfl)
      (hf.goesOn hf.active hf.memory rfl rfl rfl ⟨hc, .inl hs⟩)
  | false =>
    obtain ⟨k, f, r, l, hk, hfk, hfq, htarget, hj, hbehind, hp, htop⟩ := hf.fits.returned
    obtain ⟨ht, rfl, hcut⟩ := htop hs
    obtain ⟨k', hk', hcaller⟩ := hp.caller
    rw [eval_maybeRetry_failure hs htarget, eval_retry (hf.memory.unwindable ht)]
    simp only
    split
    · next hmore =>
      exact .moves (.retries hs htarget ht hcut hmore.1 hmore.2)
        (retried hf htarget ht hcut hmore.1 hmore.2)
    · next hmore =>
      have hcaller' : m.stack[k']? = some m.current := by rw [hcaller, hbehind.2.2.2]
      refine .moves (.givesUp hs htarget ht hcut hmore)
        -- No clause is left: the frame stays until it is dropped by the next instruction.
        (hf.goesOn hf.active (hf.memory.unwound ht 0) rfl rfl rfl
          ⟨hc.unwound f 0, .inr (.inr ⟨f, k', htarget, ht, hfq, by
            show k' + 1 < m.depth
            omega, hcaller', ?_⟩)⟩)
      rw [frame_unwound_self (hf.memory.lt_of_top? ht)]
      exact hcut

/-- Popping down to the frame of a call keeps the clause that called. -/
theorem Control.poppedMany (hc : Control admits kb q m m.depth) (hn : n < m.depth)
    (hk : k < m.depth - n) (hcur : m.stack[k]? = some m.current) :
    Control admits kb q (m.poppedMany n) (m.poppedMany n).depth := by
  obtain ⟨c, hcode, hruns⟩ := hc.code
  have hfields := poppedMany_fields n m
  have hcurrent : (m.poppedMany n).current = m.current := by rw [hfields]
  rw [depth_poppedMany]
  refine { hc.toCalls.poppedMany hn with current := ⟨k, hk, ?_⟩, code := ⟨c, ?_, ?_⟩ }
  · rw [hcurrent, stack_poppedMany n hk, hcur]
  · rw [hfields]
    exact hcode
  · rw [hcurrent]
    exact (Alike.poppedMany m n).runs hk hcur hruns

/-- Other fields of a machine have nothing to do with the shape of its stack. -/
theorem Control.fields (hc : Control admits kb q m n) (m' : Machine) (hm : m.Memory)
    (h : m'.stack = m.stack ∧ m'.heap = m.heap ∧ m'.frames = m.frames ∧ m'.code = m.code ∧
      m'.current = m.current) :
    Control admits kb q m' n ∧ m'.Memory := by
  obtain ⟨hstack, hheap, hframes, hcode, hcurrent⟩ := h
  obtain ⟨k, hk, hcur⟩ := hc.current
  obtain ⟨c, hcode', hruns⟩ := hc.code
  have hframe : ∀ f, m'.frame f = m.frame f := fun f => by simp only [frame, hframes]
  have halike : Alike n m m' :=
    .of_frames (fun _ _ => by rw [hstack]) (by rw [hheap]) fun _ f _ _ => by rw [hframe]
  have hcalls := halike.calls hc.toCalls (by omega)
    (by rw [depth, hstack]; exact hc.size) fun _ f _ _ _ _ a ha => .inl (by rwa [hframe] at ha)
  refine ⟨{ hcalls with
    current := ⟨k, hk, by rw [hstack, hcurrent, hcur]⟩
    code := ⟨c, hcode.trans hcode', by rw [hcurrent]; exact halike.runs hk hcur hruns⟩ }, ?_⟩
  exact hm.of_eq hheap hstack (by rw [hframes]) fun f => by simp [hframe]

/-- Popping frames keeps the machine active. -/
theorem Active.poppedMany (ha : m.Active) (n : Nat) : (m.poppedMany n).Active := by
  unfold Active
  rw [poppedMany_fields]
  exact ha

/-- **Inverting the outcome of a negated call.** -/
theorem maybeRetryN_does (hf : Fetched admits kb q m c j (.returned g) i .retried)
    (hi : i.op = .maybeRetryN) :
    Does admits kb q (Moves w i) m (eval maybeRetryN m) := by
  have hc := hf.fits.1
  obtain ⟨k, f, r, l, hk, hfk, hfq, htarget, hj, hbehind, hp, htop⟩ := hf.fits.returned
  obtain ⟨k', hk', hcaller⟩ := hp.caller
  have hcaller' : m.stack[k']? = some m.current := by rw [hcaller, hbehind.2.2.2]
  have hkd : k < m.depth := (Array.getElem?_eq_some_iff.1 hfk).1
  have hmax : max k 1 = k := Nat.max_eq_left hk
  cases hs : m.success with
  -- The negated goal has succeeded: its frames go, and the call counts as failed.
  | true =>
    have hpop : eval (popTo (m.frame f).position) m = (.ok (), m.poppedMany (m.depth - k)) := by
      rw [eval_popTo, hp.place, hmax]
      exact eval_popMany _ hf.memory (by omega)
    have hfields := poppedMany_fields (m.depth - k) m
    rw [eval_maybeRetryN_success hs htarget hpop (by rw [hfields]; exact hs)]
    have hc₁ := hc.poppedMany (n := m.depth - k) (by omega) (by omega) hcaller'
    obtain ⟨hc₂, hm₂⟩ := hc₁.fields { m.poppedMany (m.depth - k) with
      target := none, success := false } (hf.memory.poppedMany _) ⟨rfl, rfl, rfl, rfl, rfl⟩
    exact .moves (.denies hs htarget hk hfk hi ⟨k', hk', hcaller'⟩)
      (hf.goesOn (hf.active.poppedMany (m.depth - k)) hm₂ (by rw [hfields]) (by rw [hfields])
        (by rw [hfields]) ⟨hc₂, .inr (.inl rfl)⟩)
  | false =>
    obtain ⟨ht, rfl, hcut⟩ := htop hs
    have hretry := eval_retry (hf.memory.unwindable ht)
    by_cases hmore : (m.frame f).committed = false ∧ (m.frame f).clause + 1 < (m.frame f).clauses
    · simp only [if_pos hmore] at hretry
      rw [eval_maybeRetryN_retry hs htarget hretry]
      exact .moves (.retries hs htarget ht hcut hmore.1 hmore.2)
        (retried hf htarget ht hcut hmore.1 hmore.2)
    -- All clauses have failed: the frame goes, and the call counts as a success.
    · simp only [if_neg hmore] at hretry
      let m₁ := m.unwound f 0
      have hm₁ : m₁.Memory := hf.memory.unwound ht 0
      have hplace : (m₁.frame f).position = m.depth - 1 :=
        (congrArg Frame.position (frame_unwound_self (hf.memory.lt_of_top? ht) 0)).trans hp.place
      have hpop : eval (popTo (m₁.frame f).position) m₁ = (.ok (), m₁.popped) := by
        rw [eval_popTo, hplace, hmax]
        have hone : m₁.depth - (m.depth - 1) = 1 := by
          show m.depth - (m.depth - 1) = 1
          omega
        rw [hone]
        exact eval_popMany 1 hm₁ (by show 1 < m.depth; omega)
      have hfields := popped_fields m₁
      rw [eval_maybeRetryN_failure hs htarget hretry hpop (by rw [hfields]; exact hs)]
      have hc₁ : Control admits kb q m₁.popped m₁.popped.depth :=
        (hc.unwound f 0).poppedMany (n := 1) (by show 1 < m.depth; omega)
          (by show k' < m.depth - 1; omega) hcaller'
      obtain ⟨hc₂, hm₂⟩ := hc₁.fields { m₁.popped with target := none, success := true }
        hm₁.popped ⟨rfl, rfl, rfl, rfl, rfl⟩
      exact .moves (.affirms hs htarget ht hcut ⟨k', hk', hcaller'⟩)
        (hf.goesOn (Active.poppedMany (m := m₁) hf.active 1) hm₂ (by rw [hfields]; rfl) (by rw [hfields]; rfl)
          (by rw [hfields]; rfl) ⟨hc₂, .inl rfl⟩)

/-- **Dropping the frame of a call that failed for good.** -/
theorem deallocate_does (hf : Fetched admits kb q m c j .retried i .outcome) :
    Does admits kb q (Moves w i) m (eval deallocate m) := by
  obtain ⟨hc, hcase⟩ := hf.fits
  -- The frame is dropped after a failure only, and only if it is still the target.
  have hkeep : m.success = true ∨ m.target = none →
      Does admits kb q (Moves w i) m (eval deallocate m) := by
    intro h
    rw [eval_deallocate_keep h]
    exact .moves (.stays m.depth (.fields hf.memory _ ⟨rfl, rfl, rfl⟩) rfl)
      (hf.goesOn hf.active hf.memory rfl rfl rfl ⟨hc, h⟩)
  rcases hcase with hs | htarget | ⟨f, k, htarget, ht, hfq, hk, hcur, hcut⟩
  · exact hkeep (.inl hs)
  · exact hkeep (.inr htarget)
  · cases hs : m.success with
    | true => exact hkeep (.inl hs)
    | false =>
      let m₁ : Machine := { m with target := none }
      obtain ⟨hc₁, hm₁⟩ := hc.fields m₁ hf.memory ⟨rfl, rfl, rfl, rfl, rfl⟩
      rw [eval_deallocate_drop hs htarget hfq ht]
      have hpop : eval pop m₁ = (.ok (), m₁.popped) :=
        eval_pop (by show 1 < m.depth; omega) ht (hm₁.unwindable ht)
      rw [hpop]
      have hfields := popped_fields m₁
      have hc₂ : Control admits kb q m₁.popped m₁.popped.depth :=
        Control.poppedMany (m := m₁) hc₁ (n := 1) (by show 1 < m.depth; omega)
          (by show k < m.depth - 1; omega) hcur
      exact .moves (.drops hs htarget ht hfq hcut ⟨k, Nat.lt_sub_of_add_lt hk, hcur⟩)
        (hf.goesOn (Active.poppedMany (m := m₁) hf.active 1) hm₁.popped (by rw [hfields])
          (by rw [hfields]) (by rw [hfields]) ⟨hc₂, .inr (by rw [hfields])⟩)

/-! ## §5. Control inside a clause, and leaving it. -/

/-- A goal that failed. -/
theorem failure_does (hm : m.Memory) (hactive : m.Active) (hc : Control admits kb q m m.depth) :
    Does admits kb q (Moves w i) m (eval failure m) := by
  obtain ⟨m', heval, hfails⟩ := hc.exists_fails hm
  rw [heval]
  exact .moves (.fails (.fields hm _ ⟨rfl, rfl, rfl⟩) hfails) (hfails.orderly hm hactive hc)

/-- A failed call fails the clause. -/
theorem maybeFail_does (hf : Fetched admits kb q m c j .outcome i .body) :
    Does admits kb q (Moves w i) m (eval maybeFail m) := by
  rw [eval_maybeFail]
  split
  · next hs =>
    exact .moves (.stays m.depth (.fields hf.memory _ ⟨rfl, rfl, rfl⟩) rfl)
      (hf.goesOn hf.active hf.memory rfl rfl rfl ⟨hs, hf.fits.1⟩)
  · exact failure_does hf.memory hf.active hf.fits.1

/-- The end of a query. -/
theorem endQuery_does (hm : m.Memory) (hactive : m.Active) (hc : Control admits kb q m m.depth) :
    Does admits kb q (Moves w i) m (eval endQuery m) := by
  rw [eval_endQuery]
  split
  · next hs =>
    obtain ⟨hc', hm'⟩ := hc.fields { m with ended := true } hm ⟨rfl, rfl, rfl, rfl, rfl⟩
    exact .moves (.answers hs) (.answered hactive.1 hactive.2.1 rfl hactive.2.2.2 hm' hc' hs)
  · exact failure_does hm hactive hc

/-- **Returning from a clause.** -/
theorem proceed_does (hm : m.Memory) (hactive : m.Active) (hc : Control admits kb q m m.depth) :
    Does admits kb q (Moves w i) m (eval proceed m) := by
  cases hs : m.success with
  | false =>
    rw [eval_proceed_failure hs]
    exact failure_does hm hactive hc
  | true =>
    by_cases hq : m.current = queryFrame
    · rw [eval_proceed_query hs hq]
      exact endQuery_does hm hactive hc
    · obtain ⟨k, hk, hcur⟩ := hc.current
      obtain ⟨h0, g, r, hp, -⟩ := hc.pending hk hcur hq
      obtain ⟨k', hk', hcaller⟩ := hp.caller
      obtain ⟨c, hcode, hruns, hat, -⟩ := hp.code
      obtain ⟨l, hl, -⟩ := hat.ready_of_returned
      rw [eval_proceed_return hs hq hp.returns]
      let m' : Machine := { m with
        code := r.code, label := r.label, index := r.index, target := some m.current
        current := r.frame }
      -- Only the place in the code changes, so the frames are alike.
      have halike : Alike m.depth m m' := .of_frames (fun _ _ => rfl) rfl fun _ _ _ _ => rfl
      have hcalls : Calls admits kb q m' m.depth :=
        halike.calls hc.toCalls hc.depth_pos (Nat.le_refl _) fun _ _ _ _ _ _ _ ha => .inl ha
      have hkm : k' < m'.depth := Nat.lt_trans hk' hk
      refine .moves (.returns hs hq hp.returns ⟨k', k, hk', hcaller, hcur⟩) (.running (m := m') hactive
        (hm.of_eq rfl rfl rfl fun _ => ⟨rfl, rfl⟩) hcode hat ⟨{ hcalls with
          current := ⟨k', hkm, hcaller⟩
          code := ⟨c, hcode, halike.runs hkm hcaller hruns⟩ }, k, m.current, r, l, h0, hcur, rfl,
          hp.returns, (halike.goal k m.current hk hcur).trans hp.goal, hl, ⟨rfl, rfl, hl, rfl⟩,
          fun h => ?_⟩)
      -- The call has succeeded, so nothing is promised about a failure.
      rw [show m'.success = true from hs] at h
      cases h

/-- Changing the alternatives of the running clause. -/
theorem Control.changeCurrent (hc : Control admits kb q m m.depth) (change : Frame → Frame)
    (hcall : ∀ fr, (change fr).call = fr.call)
    (halternatives : ∀ c, m.code = some c → ∀ a ∈ (change (m.frame m.current)).alternatives,
      a ∈ (m.frame m.current).alternatives ∨ c.HasBody a.label) :
    Control admits kb q (m.changeFrame m.current change) m.depth := by
  obtain ⟨k, hk, hcur⟩ := hc.current
  obtain ⟨c, hcode, hruns⟩ := hc.code
  obtain ⟨halike, hcalls⟩ := hc.toCalls.modify (m.changeFrame m.current change) hc.depth_pos
    m.current change hcall rfl rfl rfl fun _ c' _ _ hruns' =>
      halternatives c' (hruns.unique hruns' ▸ hcode)
  exact { hcalls with
    current := ⟨k, hk, hcur⟩
    code := ⟨c, hcode, halike.runs hk hcur hruns⟩ }

/-- The frame of the running clause knows its place. -/
theorem Control.place (hc : Control admits kb q m n) :
    m.stack[(m.frame m.current).position]? = some m.current := by
  obtain ⟨k, hk, hcur⟩ := hc.current
  rcases Nat.eq_zero_or_pos k with rfl | h0
  · obtain hq := Option.some.inj (hcur.symm.trans hc.bottom)
    rw [hq, hc.origin]
    exact hc.bottom
  · obtain ⟨g, r, hp, -⟩ := hc.settled k m.current h0 hk hcur
    rw [hp.place]
    exact hcur

/-- **Recording an alternative.** -/
theorem tryElse_does (hf : Fetched admits kb q m c j .body i .body) (hop : i.op = .tryElse) :
    Does admits kb q (Moves w i) m (eval (tryElse i.label) m) := by
  obtain ⟨hs, hc⟩ := hf.fits
  obtain ⟨f, ht⟩ := hc.exists_top
  rw [eval_tryElse ht]
  refine .moves (.records hop ht) (hf.goesOn hf.active
    (hf.memory.changeFrame (by intro; rfl) (by intro; rfl)) rfl rfl rfl
    ⟨hs, hc.changeCurrent _ (by intro; rfl) fun c' hc' a ha => ?_⟩)
  obtain rfl := Option.some.inj (hf.code.symm.trans hc')
  rcases List.mem_cons.1 ha with rfl | ha
  · exact .inr (hf.leads (.inr hop))
  · exact .inl ha

/-- The pending alternative is forgotten. -/
theorem tryFinally_does (hf : Fetched admits kb q m c j .body i .body) :
    Does admits kb q (Moves w i) m (eval tryFinally m) := by
  obtain ⟨hs, hc⟩ := hf.fits
  rw [eval_tryFinally]
  exact .moves .prunes (hf.goesOn hf.active (hf.memory.changeFrame (by intro; rfl) (by intro; rfl))
    rfl rfl rfl ⟨hs, hc.changeCurrent _ (by intro; rfl) fun _ _ a ha =>
      .inl (mem_of_mem_pruneAlternatives ha)⟩)

/-- **Committing to a clause.** -/
theorem cut_does (hf : Fetched admits kb q m c j .body i .body) (hop : i.op = .cut) :
    Does admits kb q (Moves w i) m (eval cut m) := by
  obtain ⟨hs, hc⟩ := hf.fits
  obtain ⟨f, ht⟩ := hc.exists_top
  obtain ⟨k, hk, hcur⟩ := hc.current
  obtain ⟨c', hcode, hruns⟩ := hc.code
  rw [eval_cut ht]
  let change : Frame → Frame := fun fr =>
    { fr with cutTo := lowerMark (m.frame m.current).position fr.cutTo }
  let m₁ := m.changeFrame f change
  obtain ⟨halike, hcalls⟩ := hc.toCalls.modify m₁ hc.depth_pos f change (by intro; rfl) rfl
    rfl rfl fun _ _ _ _ _ a ha => .inl ha
  have hc₁ : Control admits kb q m₁ m₁.depth :=
    { hcalls with
      current := ⟨k, hk, hcur⟩
      code := ⟨c', hcode, halike.runs hk hcur hruns⟩ }
  have hm₁ : m₁.Memory := hf.memory.changeFrame (by intro; rfl) (by intro; rfl)
  exact .moves (.cuts hop ht hc.place) (hf.goesOn hf.active
    (hm₁.changeFrame (f := m.current) (by intro; rfl) (by intro; rfl)) rfl rfl rfl
    ⟨hs, hc₁.changeCurrent _ (by intro; rfl) fun _ _ a ha => by cases ha⟩)

/-- **Going to a block of the clause.** -/
theorem jump_does (hf : Fetched admits kb q m c j p i .closed) (hi : i.goesToLabel)
    (hs : m.success = true) (hc : Control admits kb q m m.depth) :
    Does admits kb q (Moves w i) m (eval (jump i.label) m) := by
  obtain ⟨hlabel, hblock⟩ := hf.leads hi
  obtain ⟨hc', hm'⟩ :=
    hc.fields { m with label := i.label, index := 0 } hf.memory ⟨rfl, rfl, rfl, rfl, rfl⟩
  rw [eval_jump]
  exact .moves (.jumps i.label)
    (.running hf.active hm' hf.code (Clause.At.start_body hblock hlabel) ⟨hs, hc'⟩)

/-! ## §6. All instructions. -/

/-- An instruction of a head moves. -/
theorem head_does {pending : List String} {last : String} {left : Nat}
    (hf : Fetched admits kb q m c j (.head pending last left) i p') :
    Does admits kb q (Moves w i) m (eval (execute w i) m) := by
  by_cases hp : p' = .closed
  · subst hp
    obtain ⟨hs, hc, -⟩ := hf.fits
    have hop : i.op = .jump ∨ i.op = .proceed := by
      have hnext := hf.next
      simp only [Phase.next, Phase.nextHead, Phase.decoded] at hnext
      repeat' split at hnext
      all_goals first
        | exact .inl ‹_›
        | exact .inr ‹_›
        | cases hnext
    rcases hop with hop | hop
    · simp only [execute, hop]
      exact jump_does hf (.inl hop) hs hc
    · simp only [execute, hop]
      exact proceed_does hf.memory hf.active hc
  · exact (head_performs hf.memory hf.fits hf.next hp).does hf

theorem body_does (hf : Fetched admits kb q m c j .body i p') :
    Does admits kb q (Moves w i) m (eval (execute w i) m) := by
  obtain ⟨hs, hc⟩ := hf.fits
  have hnext := hf.next
  simp only [Phase.next, Phase.nextBody] at hnext
  split at hnext
  · next hop =>
    obtain rfl := Option.some.inj hnext
    simp only [execute, hop]
    exact allocate_does hf
  · next hop =>
    obtain rfl := Option.some.inj hnext
    simp only [execute, hop]
    exact (prepare_performs hf.memory hf.fits).does hf
  · next hop =>
    obtain rfl := Option.some.inj hnext
    simp only [execute, hop]
    exact cut_does hf hop
  · next hop =>
    obtain rfl := Option.some.inj hnext
    simp only [execute, hop]
    exact tryElse_does hf hop
  · next hop =>
    obtain rfl := Option.some.inj hnext
    simp only [execute, hop]
    exact tryFinally_does hf
  · next hop =>
    simp only [execute, hop]
    exact failure_does hf.memory hf.active hc
  · next hop =>
    obtain rfl := Option.some.inj hnext
    simp only [execute, hop]
    exact jump_does hf (.inl hop) hs hc
  · next hop =>
    simp only [execute, hop]
    exact proceed_does hf.memory hf.active hc
  · next hop =>
    simp only [execute, hop]
    exact endQuery_does hf.memory hf.active hc
  · cases hnext

/-- An instruction that builds moves. -/
theorem build_does {regs : List String} {begun : Option (String × Signature)} {left : Nat}
    (hf : Fetched admits kb q m c j (.build regs begun left) i p') :
    Does admits kb q (Moves w i) m (eval (execute w i) m) := by
  by_cases hp : ∃ g, p' = .ready g
  · obtain ⟨g, rfl⟩ := hp
    have hcond : i.op = .setup ∧ begun = some ("$x0", g) ∧ left = 0 := by
      have hnext := hf.next
      simp only [Phase.next, Phase.nextBuild, Phase.passed] at hnext
      repeat' split at hnext
      all_goals cases hnext
      next hop _ _ hcond =>
      exact ⟨hop, by rw [hcond.2.1], hcond.1⟩
    obtain ⟨hop, rfl, rfl⟩ := hcond
    simp only [execute, hop]
    exact setup_does hf
  · exact (build_performs hf.memory hf.fits hf.next fun g h => hp ⟨g, h⟩).does hf

/-- An instruction that looks at an outcome moves. -/
theorem outcome_does (hf : Fetched admits kb q m c j .outcome i p') :
    Does admits kb q (Moves w i) m (eval (execute w i) m) := by
  have hnext := hf.next
  simp only [Phase.next] at hnext
  split at hnext
  · next hop =>
    obtain rfl := Option.some.inj hnext
    simp only [execute, hop]
    exact maybeFail_does hf
  · split at hnext
    · next hop =>
      rcases hop with hop | hop
      · simp only [execute, hop]
        exact proceed_does hf.memory hf.active hf.fits.1
      · simp only [execute, hop]
        exact endQuery_does hf.memory hf.active hf.fits.1
    · cases hnext

/-- **An instruction that is fetched in its phase makes a move to an orderly machine, or stops with
    an error that the program caused.** -/
theorem execute_does (hset : Setting admits kb q) (hw : Worldly kb w)
    (hf : Fetched admits kb q m c j p i p') :
    Does admits kb q (Moves w i) m (eval (execute w i) m) := by
  -- By phases: each has its own instructions, and its own lemma about what they do.
  cases p with
  | head pending last left => exact head_does hf
  | body => exact body_does hf
  | build regs begun left => exact build_does hf
  | ready g =>
    have hnext := hf.next
    simp only [Phase.next] at hnext
    split at hnext
    · next hop =>
      obtain rfl := Option.some.inj hnext
      exact (execute_call_does hset hw hf hop).mono fun _ h => .invokes h
    · cases hnext
  | returned g =>
    have hnext := hf.next
    simp only [Phase.next] at hnext
    split at hnext
    · next hop =>
      obtain rfl := Option.some.inj hnext
      rcases hop with hop | hop
      · simp only [execute, hop]
        exact maybeRetry_does hf
      · simp only [execute, hop]
        exact maybeRetryN_does hf hop
    · cases hnext
  | retried =>
    have hnext := hf.next
    simp only [Phase.next] at hnext
    split at hnext
    · next hop =>
      obtain rfl := Option.some.inj hnext
      simp only [execute, hop]
      exact deallocate_does hf
    · cases hnext
  | outcome => exact outcome_does hf
  | operands n => exact (operands_performs hf.memory hf.fits hf.next).does hf
  | failed => exact hf.fits.elim
  | closed => exact hf.fits.elim

end Machine

end PrologMachine
