/-
  PrologMachine.Proofs.Machine.Stack ── **THE SHAPE OF THE STACK.**

  Control returns into frames out of stack order, and frames are popped by cuts, by negations and by
  calls that failed for good.  What frames refer to is on the stack all the same: callers and marks
  point down, and the running clause and the frame of the call are there.

    * `Upright`: what frames know about the stack; `Effects.upright`: every effect keeps it.
    * `Shape`: the whole shape; `Happens.shape`: whatever can happen keeps it.
    * `stack_shape`: the stack has it in every search.
-/
import PrologMachine.Proofs.Machine.Searches

namespace PrologMachine

namespace Machine

variable {kb : KnowledgeBase} {w : World} {m m' m₁ : Machine} {f : FrameId} {i : Instruction}
  {n j k : Nat} {r : ReturnPoint}

/-! ## §1. What frames know about the stack. -/

/-- The frames know their places, and what they refer to is below them. -/
structure Upright (m : Machine) : Prop where
  /-- The query is at the bottom. -/
  bottom : m.stack[0]? = some queryFrame
  /-- Frames know their places. -/
  place : ∀ (k : Nat) f, m.stack[k]? = some f → (m.frame f).position = k
  /-- A call that is set up returns to a frame below. -/
  caller : ∀ (k : Nat) f r, m.stack[k]? = some f → (m.frame f).returnPoint = some r →
    ∃ j, j < k ∧ m.stack[j]? = some r.frame
  /-- The running clause has a frame. -/
  current : ∃ k : Nat, m.stack[k]? = some m.current
  /-- Marks do not point up. -/
  marks : ∀ (k : Nat) f b, m.stack[k]? = some f → (m.frame f).cutTo = some b → b ≤ k

namespace Upright

/-- No frame is at two places. -/
theorem index_unique (h : Upright m) (hj : m.stack[j]? = some f) (hk : m.stack[k]? = some f) : j = k :=
  (h.place j f hj).symm.trans (h.place k f hk)

/-- The stack is not empty. -/
theorem depth_pos (h : Upright m) : 0 < m.depth := (Array.getElem?_eq_some_iff.1 h.bottom).1

end Upright

/-- What a change leaves of the stack is where it was. -/
theorem Settles.getElem? (h : Settles m m') (hk : k < m'.depth) : m'.stack[k]? = m.stack[k]? := by
  have hf : m'.stack[k]? = some m'.stack[k] := Array.getElem?_eq_getElem hk
  rw [hf, h.stack k _ hf]

/-- The rest of an upright stack is upright, if the running clause has a frame there. -/
theorem Upright.shrink (h : Upright m) (hs : Settles m m₁) (hstack : m'.stack = m₁.stack)
    (hposition : ∀ f, (m'.frame f).position = (m₁.frame f).position)
    (hreturn : ∀ f, (m'.frame f).returnPoint = (m₁.frame f).returnPoint)
    (hcut : ∀ f, (m'.frame f).cutTo = (m₁.frame f).cutTo)
    (hcurrent : ∃ k : Nat, m₁.stack[k]? = some m'.current) : Upright m' := by
  obtain ⟨l, hl⟩ := hcurrent
  have hlt : l < m₁.depth := (Array.getElem?_eq_some_iff.1 hl).1
  refine ⟨?_, fun k f hf => ?_, fun k f r hf hr => ?_, ⟨l, hstack ▸ hl⟩, fun k f b hf hb => ?_⟩
  · rw [hstack, hs.getElem? (Nat.zero_lt_of_lt hlt)]
    exact h.bottom
  · rw [hposition, hs.position]
    exact h.place k f (hs.stack k f (hstack ▸ hf))
  · have hk : k < m₁.depth := (Array.getElem?_eq_some_iff.1 (hstack ▸ hf)).1
    rw [hreturn, hs.returnPoint] at hr
    obtain ⟨j, hj, hcaller⟩ := h.caller k f r (hs.stack k f (hstack ▸ hf)) hr
    exact ⟨j, hj, by rw [hstack, hs.getElem? (hj.trans hk), hcaller]⟩
  · rw [hcut] at hb
    exact h.marks k f b (hs.stack k f (hstack ▸ hf)) (hs.cutTo f b hb)

/-- Settling keeps the stack upright. -/
theorem Upright.settles (h : Upright m) (hs : Settles m m')
    (hcurrent : ∃ k : Nat, m'.stack[k]? = some m'.current) : Upright m' :=
  h.shrink hs rfl (fun _ => rfl) (fun _ => rfl) (fun _ => rfl) hcurrent

/-! ## §2. What effects preserve. -/

/-- A search that goes back to the query leaves nothing else, and the query was running: the clauses of
    all other frames are cut off. -/
theorem Retreats.query (h : Retreats m m₁) (ht : m₁.top? = some queryFrame) (hu : Upright m)
    (hb : Barriers m) : m₁.depth = 1 ∧ m.current = queryFrame := by
  have htop : m₁.stack[m₁.depth - 1]? = some queryFrame := top?_eq_getElem? ▸ ht
  have hlt : m₁.depth - 1 < m₁.depth := (Array.getElem?_eq_some_iff.1 htop).1
  have hplace := hu.index_unique (h.settles.stack _ _ htop) hu.bottom
  refine ⟨by omega, ?_⟩
  obtain ⟨k, hk⟩ := hu.current
  have hkd : k < m.depth := (Array.getElem?_eq_some_iff.1 hk).1
  suffices h0 : k = 0 by
    subst h0
    exact Option.some.inj (hk.symm.trans hu.bottom)
  rcases h.height with ⟨hstack, -⟩ | ⟨f, b, htop, hcut, hheight⟩
  · have hsame : m₁.depth = m.depth := congrArg Array.size hstack
    omega
  · -- The mark on top leads to the query, so it passes over all frames above.
    by_contra hne
    exact hb.running k hk ⟨m.depth - 1, f, b, by omega, top?_eq_getElem? ▸ htop, hcut, by omega,
      by omega⟩

/-- A new frame knows its place. -/
theorem Upright.pushed (h : Upright m) (hm : m.Memory) : Upright m.pushed := by
  obtain ⟨l, hl⟩ := h.current
  have hold : ∀ {j : Nat} {f : FrameId}, m.stack[j]? = some f → m.pushed.stack[j]? = some f :=
    fun hj => (stack_pushed (Array.getElem?_eq_some_iff.1 hj).1).trans hj
  refine ⟨hold h.bottom, fun k f hf => ?_, fun k f r hf hr => ?_, ⟨l, hold hl⟩, fun k f b hf hb => ?_⟩
  · rcases stack_of_pushed hm hf with ⟨hf', hframe⟩ | ⟨rfl, rfl⟩
    · rw [hframe]
      exact h.place k f hf'
    · rw [frame_pushed_self]
  · rcases stack_of_pushed hm hf with ⟨hf', hframe⟩ | ⟨rfl, rfl⟩
    · rw [hframe] at hr
      obtain ⟨j, hj, hcaller⟩ := h.caller k f r hf' hr
      exact ⟨j, hj, hold hcaller⟩
    · rw [frame_pushed_self] at hr
      cases hr
  · obtain ⟨hf', hcut⟩ := mark_of_pushed hf hb
    exact h.marks k f b hf' hcut

/-- The call that is set up returns to the running clause, which has a frame below. -/
theorem Upright.readied (h : Upright m) (hm : m.Memory) (ht : m.top? = some f)
    (hcaller : ∃ j, j < m.depth - 1 ∧ m.stack[j]? = some m.current) : Upright (m.readied f) := by
  have hfield : ∀ {α : Type} (field : Frame → α) (f' : FrameId),
      (∀ fr, field { fr with clause := 0, returnPoint := some m.callPoint } = field fr) →
        field ((m.readied f).frame f') = field (m.frame f') :=
    fun field f' hfield => frame_changeFrame_field field hfield
  refine ⟨h.bottom, fun k f' hf => ?_, fun k f' r hf hr => ?_, h.current, fun k f' b hf hb => ?_⟩
  · exact (hfield Frame.position f' fun _ => rfl).trans (h.place k f' hf)
  · by_cases hne : f' = f
    · subst hne
      rw [Machine.readied, frame_changeFrame_self (hm.lt_of_top? ht)] at hr
      obtain rfl := Option.some.inj hr
      obtain rfl := hm.index_unique hf (top?_eq_getElem? ▸ ht)
      exact hcaller
    · rw [Machine.readied, frame_changeFrame_of_ne hne] at hr
      exact h.caller k f' r hf hr
  · rw [hfield Frame.cutTo f' fun _ => rfl] at hb
    exact h.marks k f' b hf hb

/-- The mark that a cut leaves points to the running clause. -/
theorem Upright.severed (h : Upright m) (hm : m.Memory) (ht : m.top? = some f) :
    Upright (m.severed f) := by
  have hfield : ∀ {α : Type} (field : Frame → α) (f' : FrameId),
      (∀ fr b, field { fr with cutTo := b } = field fr) →
      (∀ fr, field { fr with committed := true, alternatives := [] } = field fr) →
        field ((m.severed f).frame f') = field (m.frame f') := fun field f' hcut hcommit =>
    (frame_changeFrame_field field hcommit).trans (frame_changeFrame_field field fun fr => hcut fr _)
  refine ⟨h.bottom, fun k f' hf => ?_, fun k f' r hf hr => ?_, h.current, fun k f' b hf hb => ?_⟩
  · exact (hfield Frame.position f' (fun _ _ => rfl) fun _ => rfl).trans (h.place k f' hf)
  · rw [hfield Frame.returnPoint f' (fun _ _ => rfl) fun _ => rfl] at hr
    exact h.caller k f' r hf hr
  · rcases cutTo_of_cut hm ht hf hb with hold | ⟨rfl, rfl⟩
    · exact h.marks k f' b hf hold
    · obtain ⟨l, hl⟩ := h.current
      have hld : l < m.depth := (Array.getElem?_eq_some_iff.1 hl).1
      rw [h.place l m.current hl]
      omega

/-- **Every effect leaves the stack upright.** -/
theorem Effects.upright (h : Effects i m m') (hu : Upright m) (hm : m.Memory) (hb : Barriers m) :
    Upright m' := by
  -- By effects: what is popped is above the frames that are left, and what is pushed comes on top.
  cases h with
  | keeps hs hstack hcurrent => exact hu.settles hs (by rw [hstack, hcurrent]; exact hu.current)
  | enters hs hstack ht => exact hu.settles hs ⟨_, by rw [hstack]; exact top?_eq_getElem? ▸ ht⟩
  | returns hs hstack hr hcaller hcurrent =>
    obtain ⟨j, -, -, hj, -⟩ := hcaller
    exact hu.settles hs ⟨j, by rw [hstack, hcurrent, hj]⟩
  | drops hs ht hcut hdepth hcurrent hmarks hfree hcaller =>
    obtain ⟨j, hj, hstack⟩ := hcaller
    exact hu.settles hs ⟨j, by rw [hs.getElem? (hdepth ▸ hj), hcurrent, hstack]⟩
  | denies hs hsuccess htarget hf hi hdepth hcurrent hmarks hfree hcaller =>
    obtain ⟨j, hj, hstack⟩ := hcaller
    exact hu.settles hs ⟨j, by rw [hs.getElem? (hdepth ▸ hj), hcurrent, hstack]⟩
  | @resumes m₁ f r hretreats ht hf hcut hr =>
    have htop : m₁.stack[m₁.depth - 1]? = some f := top?_eq_getElem? ▸ ht
    have hlt : m₁.depth - 1 < m₁.depth := (Array.getElem?_eq_some_iff.1 htop).1
    obtain ⟨j, hj, hcaller⟩ := hu.caller _ f r (hretreats.settles.stack _ f htop)
      ((hretreats.settles.returnPoint f).symm.trans hr)
    have hframe : ∀ {α : Type} (field : Frame → α),
        (∀ fr as, field { fr with alternatives := as } = field fr) →
          ∀ f' : FrameId, field ((m₁.resumed f r).frame f') = field (m₁.frame f') :=
      fun field hfield _ => frame_resumed_field field hfield
    exact hu.shrink hretreats.settles rfl (hframe Frame.position fun _ _ => rfl)
      (hframe Frame.returnPoint fun _ _ => rfl) (hframe Frame.cutTo fun _ _ => rfl)
      ⟨j, (hretreats.settles.getElem? (hj.trans hlt)).trans hcaller⟩
  | @exhausts m₁ hretreats ht =>
    obtain ⟨hdepth, hquery⟩ := hretreats.query ht hu hb
    refine hu.shrink hretreats.settles rfl (fun _ => rfl) (fun _ => rfl) (fun _ => rfl) ⟨0, ?_⟩
    rw [hretreats.settles.getElem? (hdepth ▸ Nat.one_pos), hu.bottom, ← hquery]
    exact congrArg some hretreats.current.symm
  | pushes => exact hu.pushed hm
  | setsUp ht huntried hcaller => exact hu.readied hm ht hcaller
  | @records f hi ht =>
    refine hu.shrink (.fields m ⟨rfl, rfl, rfl⟩) rfl ?_ ?_ ?_ hu.current
    · exact fun _ => frame_changeFrame_field Frame.position (by intro; rfl)
    · exact fun _ => frame_changeFrame_field Frame.returnPoint (by intro; rfl)
    · exact fun _ => frame_changeFrame_field Frame.cutTo (by intro; rfl)
  | cuts hi ht hplace => exact hu.severed hm ht

/-- **A search that is over leaves the query alone on the stack.** -/
theorem Effects.alone (h : Effects i m m') (hu : Upright m) (hb : Barriers m)
    (hmore : m.exhausted = false) (hover : m'.exhausted = true) :
    m'.stack = #[queryFrame] ∧ m'.ended = true := by
  have hsettles : Settles m m' → m'.exhausted = false := fun hs => hs.exhausted.trans hmore
  -- The search is over only when nothing but the query frame is left.
  cases h with
  | keeps hs => rw [hsettles hs] at hover; cases hover
  | enters hs => rw [hsettles hs] at hover; cases hover
  | returns hs => rw [hsettles hs] at hover; cases hover
  | drops hs => rw [hsettles hs] at hover; cases hover
  | denies hs => rw [hsettles hs] at hover; cases hover
  | @resumes m₁ f r hretreats =>
    have hsame : (m₁.resumed f r).exhausted = false := hretreats.settles.exhausted.trans hmore
    rw [hsame] at hover
    cases hover
  | @exhausts m₁ hretreats ht =>
    obtain ⟨hdepth, -⟩ := hretreats.query ht hu hb
    refine ⟨?_, rfl⟩
    have hbottom := (hretreats.settles.getElem? (hdepth ▸ Nat.one_pos)).trans hu.bottom
    obtain ⟨f, hf⟩ := Array.size_eq_one_iff.1 hdepth
    rw [hf] at hbottom
    exact hf.trans (congrArg (fun f => #[f]) (Option.some.inj hbottom))
  | pushes => rw [show m.pushed.exhausted = _ from hmore] at hover; cases hover
  | @setsUp f => rw [show (m.readied f).exhausted = _ from hmore] at hover; cases hover
  | @records f => rw [show (m.recorded f i.label).exhausted = _ from hmore] at hover; cases hover
  | @cuts f => rw [show (m.severed f).exhausted = _ from hmore] at hover; cases hover

/-! ## §3. The frame of the call. -/

/-- The frame of the call is on the stack, if there is one and the search is not over. -/
def Targeted (m : Machine) : Prop :=
  m.exhausted = false → ∀ f, m.target = some f → ∃ k : Nat, m.stack[k]? = some f

/-- The target is on the stack still. -/
theorem Targeted.of_eq (h : Targeted m) (hstack : m'.stack = m.stack) (htarget : m'.target = m.target)
    (hmore : m'.exhausted = m.exhausted) : Targeted m' := by
  intro hmore' f hf
  rw [hstack]
  exact h (hmore ▸ hmore') f (htarget ▸ hf)

/-- The frame on top is on the stack. -/
theorem Targeted.of_top (htarget : m.target = some f) (ht : m.top? = some f) : Targeted m := by
  intro _ f' hf
  obtain rfl := Option.some.inj (htarget.symm.trans hf)
  exact ⟨_, top?_eq_getElem? ▸ ht⟩

theorem Targeted.of_none (hfree : m.target = none) : Targeted m := fun _ f hf => by
  rw [hfree] at hf
  cases hf

/-- Backtracking leaves no target or one on the stack. -/
theorem Backs.targeted (h : Backs m m') : Targeted m' := by
  cases h with
  | spent => exact fun hmore => by cases hmore
  | top ht => exact .of_top rfl ht
  | cutQuery => exact fun hmore => by cases hmore
  | cut _ _ _ ht' => exact .of_top rfl ht'

theorem Fails.targeted (h : Fails m m') (htarget : Targeted m) : Targeted m' := by
  cases h with
  | alternative => exact htarget.of_eq rfl rfl rfl
  | back _ hback => exact hback.targeted

/-- **Every move leaves the frame of the call on the stack.** -/
theorem Moves.targeted (h : Moves w i m m') (htarget : Targeted m) : Targeted m' := by
  have hquiet : ∀ {n : Nat} {m₁ : Machine}, Quiet n m m₁ → Targeted m₁ := fun hq =>
    htarget.of_eq hq.stack hq.target (congrArg View.exhausted hq.view)
  -- By moves; a target is set to the frame on top, to the frame that returns, or to none.
  cases h with
  | stays n ht hindex => exact hquiet ht.quiet
  | mismatches ht hback => exact hback.targeted
  | fails ht hfails => exact hfails.targeted (hquiet ht.quiet)
  | allocates => exact .of_top rfl top?_pushed
  | setsUp => exact htarget.of_eq rfl rfl rfl
  | invokes h =>
    cases h with
    | enters => exact htarget.of_eq rfl rfl rfl
    | responds _ _ _ _ _ htame =>
      exact htarget.of_eq htame.quiet.stack htame.quiet.target (congrArg View.exhausted htame.quiet.view)
  | retries => exact htarget.of_eq rfl rfl rfl
  | givesUp => exact htarget.of_eq rfl rfl rfl
  | denies => exact .of_none rfl
  | affirms => exact .of_none rfl
  | drops => exact .of_none (by rw [popped_fields])
  | records => exact htarget.of_eq rfl rfl rfl
  | prunes => exact htarget.of_eq rfl rfl rfl
  | jumps => exact htarget.of_eq rfl rfl rfl
  | returns hs hq hr hcaller =>
    obtain ⟨-, l, -, -, hl⟩ := hcaller
    intro _ f hf
    obtain rfl := Option.some.inj hf
    exact ⟨l, hl⟩
  | answers => exact htarget.of_eq rfl rfl rfl
  | cuts => exact htarget.of_eq rfl rfl rfl

/-! ## §4. The shape. -/

/-- The shape of the stack. -/
structure Shape (m : Machine) : Prop extends Upright m where
  /-- The query is at no other place. -/
  once : ∀ k : Nat, m.stack[k]? = some queryFrame → k = 0
  /-- The frame of the call is on the stack, if there is one and the search is not over. -/
  target : Targeted m
  /-- When the search is over, the query is alone on the stack. -/
  alone : m.exhausted = true → m.stack = #[queryFrame]
  /-- A search that is over has stopped. -/
  ended : m.exhausted = true → m.ended = true

/-- The shape of a stack, from its parts. -/
theorem Upright.shape (h : Upright m) (htarget : Targeted m)
    (halone : m.exhausted = true → m.stack = #[queryFrame] ∧ m.ended = true) : Shape m where
  toUpright := h
  once _ hk := h.index_unique hk h.bottom
  target := htarget
  alone hover := (halone hover).1
  ended hover := (halone hover).2

/-- The stack of a new question has its shape. -/
theorem Shape.posed (m : Machine) (q : Clause) : Shape (m.posed q) := by
  have hstack : ∀ {k : Nat} {f : FrameId}, (m.posed q).stack[k]? = some f → k = 0 := fun {k f} hf => by
    have hk : k < 1 := (Array.getElem?_eq_some_iff.1 hf).1
    omega
  refine Upright.shape ⟨rfl, fun k f hf => ?_, fun k f r hf hr => ?_, ⟨0, rfl⟩, fun k f b hf hb => ?_⟩
    (.of_top rfl rfl) fun hover => by cases hover
  · rw [frame_posed, hstack hf]
  · rw [frame_posed] at hr
    cases hr
  · rw [frame_posed] at hb
    cases hb

/-- **Whatever can happen in a search keeps the shape of the stack.** -/
theorem Happens.shape (h : Happens m m') (hs : Shape m) : Shape m' := by
  cases h with
  | @moves w i _ hmore hm hb hmove =>
    have hm' : (m.counted w i).Memory := (Tame.counted hm 0).memory
    have hb' : Barriers (m.counted w i) := Mild.counted.barriers hb
    have hu : Upright (m.counted w i) := hs.toUpright.settles Mild.counted.settles hs.current
    have heffects := hmove.effects hb'
    exact (heffects.upright hu hm' hb').shape
      (hmove.targeted (hs.target.of_eq rfl rfl rfl)) (heffects.alone hu hb' hmore)
  | retreats hmore hm hb hfails =>
    let m₀ : Machine := { m with ended := false, success := false, steps := 0 }
    have hmild : Mild m m₀ := .fields _ ⟨rfl, rfl, rfl, rfl⟩
    have hm₀ : m₀.Memory := hm.of_eq rfl rfl rfl fun _ => ⟨rfl, rfl⟩
    have hb₀ : Barriers m₀ := hmild.barriers hb
    have hu : Upright m₀ := hs.toUpright.settles hmild.settles hs.current
    have heffects : Effects { op := .invalid } m₀ m' :=
      hfails.effects (.fields _ ⟨rfl, rfl, rfl, rfl⟩) hm₀ hb₀
    have htarget : Targeted m₀ := hs.target.of_eq rfl rfl rfl
    exact (heffects.upright hu hm₀ hb₀).shape (hfails.targeted htarget) (heffects.alone hu hb₀ hmore)

/-- **The stack keeps its shape.**  In every search, whatever native predicates it calls, a machine
    without an error has the query at the bottom of its stack and nowhere else.  Frames know their
    places and return to frames below, their marks do not point up, and the running clause has a frame.
    So has the call while the search is not over; when it is, the query is alone. -/
theorem stack_shape (h : Search kb n m) (hasked : m.asked = true) (herror : m.error = none) : Shape m :=
  h.invariant (P := fun _ m => Shape m) (fun m q _ => .posed m q) (fun hhappens => hhappens.shape)
    hasked herror

/-- With `p :- q, !, q` and `q`, the question `p` is at its second call of `q`: the cut has marked the
    frame of the first one, which is still on the stack. -/
theorem stack_shape_cut : ∃ (kb : KnowledgeBase) (m : Machine), Search kb 0 m ∧ m.asked = true ∧
    m.error = none ∧ (m.stack = #[0, 1, 2, 3] ∧ (m.frame 2).cutTo = some 1 ∧ m.target = some 3) ∧
      Shape m := by
  -- The clauses and the question, and what they are compiled from.
  let p : Clause := ⟨⟨"p", 0⟩, [("head", [
    { op := .getStruct, functor := "p", register := "$x0" }, { op := .jump, label := "g0" }]),
    ("g0", [
      { op := .allocate }, { op := .putStruct, functor := "q", register := "$x0" },
      { op := .setup }, { op := .call }, { op := .maybeRetry }, { op := .deallocate },
      { op := .maybeFail }, { op := .cut },
      { op := .allocate }, { op := .putStruct, functor := "q", register := "$x0" },
      { op := .setup }, { op := .call }, { op := .maybeRetry }, { op := .deallocate },
      { op := .proceed }])], false, []⟩
  let r : Clause := ⟨⟨"q", 0⟩, [("head", [
    { op := .getStruct, functor := "q", register := "$x0" }, { op := .proceed }])], false, []⟩
  let q : Clause := ⟨querySignature, [("g0", [
    { op := .allocate }, { op := .putStruct, functor := "p", register := "$x0" },
    { op := .setup }, { op := .call }, { op := .maybeRetry }, { op := .deallocate },
    { op := .end_ }])], false, []⟩
  have hp : CompiledFrom (fun _ => True) p :=
    ⟨{}, .app "rule" [.const (.atom "p") 0, .app "conj" [.const (.atom "q") 5, .app "conj"
        [.const (.atom "!") 8, .const (.atom "q") 11] .none 9] .none 6] .none 2,
      .inl ⟨{}, "p :- q, !, q.", 0, rfl⟩, trivial, by cbv⟩
  have hr : CompiledFrom (fun _ => True) r :=
    ⟨{}, .const (.atom "q") 0, .inl ⟨{}, "q.", 0, rfl⟩, trivial, by cbv⟩
  have hq : Question (fun _ => True) q :=
    ⟨{}, .const (.atom "p") 0, .inl ⟨{}, "p.", 0, rfl⟩, trivial, by cbv⟩
  let kb₀ : KnowledgeBase := ((({} : KnowledgeBase).insertUser p.signature (some p)).base.insertUser
    r.signature (some r)).base
  let x := (({} : Machine).ask kb₀ (some q)).2
  let w : World := { base := x.1, natives := Registry.core }
  -- After 20 steps the machine is in the call behind the cut.
  let m := (x.2.trace w 20).2
  have hstart : Search x.1 0 x.2 := .ask (.new {}) (.user (.user .empty hp) hr) hq rfl
  have hw : Equipped x.1 w := ⟨rfl, Registry.sober_core⟩
  have hsearch : Search x.1 0 m := hstart.trace hw 20
  have hasked : m.asked = true := by decide +kernel
  have herror : m.error = none := Option.isNone_iff_eq_none.1 (by decide +kernel)
  exact ⟨x.1, m, hsearch, hasked, herror, by decide +kernel, stack_shape hsearch hasked herror⟩

end Machine

end PrologMachine
