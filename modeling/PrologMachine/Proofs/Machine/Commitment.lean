/-
  PrologMachine.Proofs.Machine.Commitment ── **CUT COMMITS.**

  A cut leaves all frames on the stack.  What it promises is kept by the mark it leaves: as long as the
  frame of the clause is there, either the frames above it that were there at the cut stay as they are,
  with a mark on the topmost that leads down to the clause or further, or they are all gone.

    * `Guards n m`: the first `n` frames are those of the cut, and those above them are newer.
    * `Guards.effects`: what one move preserves; the frame is popped or the search is over otherwise.
    * `Continues.guards`: what a run preserves.
    * `cut_commits`: what a search can go back to behind a cut.
-/
import PrologMachine.Proofs.Machine.Restoration

namespace PrologMachine

namespace Machine

open Exec

variable {admits : Signature → Bool} {kb : KnowledgeBase} {q : Clause} {w : World}
  {s m m' m'' : Machine} {f g : FrameId} {i : Instruction} {n c d j k b : Nat} {r : ReturnPoint}

/-! ## §1. What happens in a run. -/

/-- The run of a question goes on by a step, or by asking for the next answer. -/
inductive Advances (kb : KnowledgeBase) (m : Machine) : Machine → Prop where
  /-- A step is taken. -/
  | step {w : World} (hw : Equipped kb w) : Advances kb m (m.step w).2
  /-- The next answer is asked for. -/
  | redo (hstatus : m.status = .answer) : Advances kb m m.redo.2

/-- A run goes on by one advance. -/
theorem Continues.advances (h : Continues kb s m) (ha : Advances kb m m') : Continues kb s m' := by
  cases ha with
  | step hw => exact h.step hw
  | redo hstatus => exact h.redo hstatus

/-- What holds at the start of a run and is kept by every step and redo holds in the run. -/
theorem Continues.preserves {P : Machine → Prop} (h : Continues kb s m) (hstart : P s)
    (hkeeps : ∀ m m', Continues kb s m → Advances kb m m' → P m → P m') : P m := by
  induction h with
  | refl => exact hstart
  | step hrun hw ih => exact hkeeps _ _ hrun (.step hw) ih
  | redo hrun hstatus ih => exact hkeeps _ _ hrun (.redo hstatus) ih

/-- Between `s` and `m` a step was taken from a machine with the property. -/
def Since (kb : KnowledgeBase) (s m : Machine) (event : Machine → Prop) : Prop :=
  ∃ (m₁ : Machine) (w : World), Continues kb s m₁ ∧ event m₁ ∧ Equipped kb w ∧
    Continues kb (m₁.step w).2 m

/-- What has happened since has happened after one advance. -/
theorem Since.advances {event : Machine → Prop} (h : Since kb s m event) (ha : Advances kb m m') :
    Since kb s m' event := by
  obtain ⟨m₁, w, hbefore, hevent, hw, hafter⟩ := h
  exact ⟨m₁, w, hbefore, hevent, hw, hafter.advances ha⟩

/-- What happens now has happened after the step. -/
theorem Since.now {event : Machine → Prop} (h : Continues kb s m) (hevent : event m)
    (hw : Equipped kb w) : Since kb s (m.step w).2 event :=
  ⟨m, w, h, hevent, hw, .refl⟩

/-- The next step is the cut of the clause that runs in frame `f`, at stack index `d`. -/
def Cuts (m : Machine) (f : FrameId) (d : Nat) : Prop :=
  m.Active ∧ (∃ i, m.fetch = .ok i ∧ i.op = .cut) ∧ m.current = f ∧ m.stack[d]? = some f

/-- The next step records the alternative `a` of the clause that runs in frame `f`. -/
def Records (m : Machine) (f : FrameId) (a : Alternative) : Prop :=
  m.Active ∧ (∃ i, m.fetch = .ok i ∧ i.op = .tryElse ∧ i.label = a.label) ∧ m.current = f ∧
    a.depth = m.depth ∧ ∃ g, m.top? = some g ∧ a.mark = (m.frame g).trail.length

/-- The call of frame `f`, on top of the stack, has returned as failed: the search goes on at its
    point of return. -/
def Failed (m : Machine) (f : FrameId) : Prop :=
  m.Active ∧ m.success = false ∧ m.target = some f ∧ m.top? = some f ∧
    ∃ r, (m.frame f).returnPoint = some r ∧ m.code = r.code ∧ m.label = r.label ∧
      m.index = r.index ∧ m.current = r.frame

/-- What the frames from stack index `n` on had bound is unbound. -/
def Undone (n : Nat) (m m' : Machine) : Prop :=
  ∀ (j : Nat) f v, n ≤ j → m.stack[j]? = some f → v ∈ (m.frame f).trail → m'.heap.binding? v = none

/-! ## §2. The frames of a cut. -/

/-- A call that is resumed brings back the alternatives that its caller had. -/
theorem alternatives_of_resumed {a : Alternative}
    (ha : a ∈ ((m.resumed g r).frame f).alternatives) :
    r.frame = f ∧ a ∈ r.alternatives ∨ a ∈ (m.frame f).alternatives := by
  let m₁ : Machine := { m with
    code := r.code, label := r.label, index := r.index, current := r.frame, target := some g
    success := false }
  have hresumed : m.resumed g r =
      m₁.changeFrame r.frame (fun fr => { fr with alternatives := r.alternatives }) := rfl
  rw [hresumed] at ha
  by_cases hf : f = r.frame
  · subst hf
    by_cases hlt : r.frame < m₁.frames.size
    · rw [frame_changeFrame_self hlt] at ha
      exact .inl ⟨rfl, ha⟩
    · simp [frame, Machine.changeFrame, hlt] at ha
  · rw [frame_changeFrame_of_ne hf] at ha
    exact .inr ha

/-- After a cut of frame `f` at stack index `d` that left the machine `s`.  The first `n` frames are
    those of the cut, and above them are newer ones.  Marks lead to newer frames or to indices with
    `Barred`, and the alternatives of the clause are those with `New`. -/
structure Guards (s : Machine) (f : FrameId) (d : Nat) (Barred : Nat → Prop)
    (New : Alternative → Prop) (n : Nat) (m : Machine) : Prop where
  /-- The frame of the cut is among them. -/
  above : d < n
  /-- They were all there. -/
  within : n ≤ s.depth
  /-- The frame of the cut. -/
  place : s.stack[d]? = some f
  /-- Frames do not get lost. -/
  size : s.frames.size ≤ m.frames.size
  /-- They are the same. -/
  old : ∀ k, k < n → m.stack[k]? = s.stack[k]?
  /-- The others are newer. -/
  fresh : ∀ k g, n ≤ k → m.stack[k]? = some g → s.frames.size ≤ g
  /-- The clause is committed. -/
  committed : (m.frame f).committed = true
  /-- The topmost has a mark, unless it is the frame of the cut. -/
  guard : ∀ g, m.stack[n - 1]? = some g →
    (∃ b, (m.frame g).cutTo = some b ∧ Barred b) ∨ n = d + 1 ∧ (m.frame g).cutTo = none
  /-- Marks of newer frames. -/
  marks : ∀ k g b, n ≤ k → m.stack[k]? = some g → (m.frame g).cutTo = some b → n ≤ b ∨ Barred b
  /-- Alternatives of the clause. -/
  alternatives : ∀ a ∈ (m.frame f).alternatives, New a
  /-- Alternatives of the clause that newer calls return to. -/
  saved : ∀ k g r, n ≤ k → m.stack[k]? = some g → (m.frame g).returnPoint = some r → r.frame = f →
    ∀ a ∈ r.alternatives, New a

namespace Guards

variable {Barred Barred' : Nat → Prop} {New New' : Alternative → Prop}

/-- Guards may allow more marks and more alternatives. -/
theorem mono (h : Guards s f d Barred New n m) (hbarred : ∀ b, Barred b → Barred' b)
    (hnew : ∀ a, New a → New' a) : Guards s f d Barred' New' n m :=
  { h with
    guard := fun g hg => (h.guard g hg).imp_left fun ⟨b, hb, hbarred'⟩ => ⟨b, hb, hbarred b hbarred'⟩
    marks := fun k g b hk hg hb => (h.marks k g b hk hg hb).imp_right (hbarred b)
    alternatives := fun a ha => hnew a (h.alternatives a ha)
    saved := fun k g r hk hg hr hf a ha => hnew a (h.saved k g r hk hg hr hf a ha) }

/-- The topmost of the frames of the cut. -/
theorem exists_last (h : Guards s f d Barred New n m) : ∃ g, m.stack[n - 1]? = some g := by
  have hpos := h.above
  have hn : n - 1 < s.stack.size := by
    have := h.within
    simp only [depth] at this
    omega
  exact ⟨_, (h.old (n - 1) (by omega)).trans (Array.getElem?_eq_getElem hn)⟩

/-- The frames that are guarded are on the stack. -/
theorem le_depth (h : Guards s f d Barred New n m) : n ≤ m.depth := by
  obtain ⟨g, hg⟩ := h.exists_last
  have hlt : n - 1 < m.depth := (Array.getElem?_eq_some_iff.1 hg).1
  have hpos := h.above
  omega

/-- The frame of the cut is in its place. -/
theorem at_place (h : Guards s f d Barred New n m) : m.stack[d]? = some f :=
  (h.old d h.above).trans h.place

/-- The frames of the cut above the clause are cut off. -/
theorem cutOff (h : Guards s f d Barred New n m) (hle : ∀ b, Barred b → b ≤ d) (hdj : d < j)
    (hjn : j < n) : CutOff m m.depth j := by
  obtain ⟨g, hg⟩ := h.exists_last
  have hdepth := h.le_depth
  rcases h.guard g hg with ⟨b, hb, hbarred⟩ | ⟨hn, -⟩
  · have hbd := hle b hbarred
    exact ⟨n - 1, g, b, by omega, hg, hb, by omega, by omega⟩
  · omega

/-- A frame of the cut on top without a mark is that of the clause. -/
theorem eq_of_top (h : Guards s f d Barred New n m) (ht : m.top? = some g)
    (hcut : (m.frame g).cutTo = none) (hn : m.depth ≤ n) : n = d + 1 ∧ g = f := by
  have hdepth := h.le_depth
  have hg : m.stack[n - 1]? = some g := by
    rw [top?_eq_getElem?] at ht
    rwa [show n - 1 = m.depth - 1 by omega]
  rcases h.guard g hg with ⟨b, hb, -⟩ | ⟨rfl, -⟩
  · rw [hcut] at hb
    cases hb
  · refine ⟨rfl, ?_⟩
    rw [Nat.add_sub_cancel] at hg
    exact Option.some.inj (hg.symm.trans h.at_place)

/-- A mark on the frame on top leads to a newer frame, or it bars. -/
theorem mark_of_top (h : Guards s f d Barred New n m) (ht : m.top? = some g)
    (hcut : (m.frame g).cutTo = some b) : n ≤ b ∧ n < m.depth ∨ Barred b := by
  rw [top?_eq_getElem?] at ht
  have hdepth := h.le_depth
  by_cases hn : n < m.depth
  · rcases h.marks (m.depth - 1) g b (by omega) ht hcut with hb | hb
    · exact .inl ⟨hb, hn⟩
    · exact .inr hb
  · rw [show m.depth - 1 = n - 1 by omega] at ht
    rcases h.guard g ht with ⟨b', hb', hbarred⟩ | ⟨-, hnone⟩
    · rw [hcut] at hb'
      obtain rfl := Option.some.inj hb'
      exact .inr hbarred
    · rw [hcut] at hnone
      cases hnone

/-- Changes that add nothing, as long as the frames of the cut stay. -/
theorem settles (h : Guards s f d Barred New n m) (hs : Settles m m')
    (hmarks : ∀ g, m.stack[n - 1]? = some g → (m'.frame g).cutTo = (m.frame g).cutTo)
    (hn : n ≤ m'.depth) : Guards s f d Barred New n m' where
  above := h.above
  within := h.within
  place := h.place
  size := Nat.le_trans h.size hs.size
  old k hk := by
    have hlt : k < m'.stack.size := Nat.lt_of_lt_of_le hk hn
    rw [← h.old k hk, Array.getElem?_eq_getElem hlt]
    exact (hs.stack k _ (Array.getElem?_eq_getElem hlt)).symm
  fresh k g hk hg := h.fresh k g hk (hs.stack k g hg)
  committed := (hs.committed f).trans h.committed
  guard g hg := by
    have hg' := hs.stack _ g hg
    rw [hmarks g hg']
    exact h.guard g hg'
  marks k g b hk hg hb := h.marks k g b hk (hs.stack k g hg) (hs.cutTo g b hb)
  alternatives a ha := h.alternatives a (hs.alternatives f a ha)
  saved k g r hk hg hr := h.saved k g r hk (hs.stack k g hg) ((hs.returnPoint g).symm.trans hr)

/-- Only the frames up to that of the clause are left, and it has no mark. -/
theorem restart (h : Guards s f d Barred New n m) (hs : Settles m m') (hdepth : m'.depth = d + 1)
    (hcut : (m'.frame f).cutTo = none) : Guards s f d Barred New (d + 1) m' := by
  -- The frame of the cut is on top again, and the frames below it are the old ones.
  have hold : ∀ k, k < d + 1 → m'.stack[k]? = s.stack[k]? := by
    intro k hk
    have hlt : k < m'.stack.size := by
      simp only [depth] at hdepth
      omega
    have hdn := h.above
    rw [← h.old k (by omega), Array.getElem?_eq_getElem hlt]
    exact (hs.stack k _ (Array.getElem?_eq_getElem hlt)).symm
  have hnone : ∀ k g, d + 1 ≤ k → m'.stack[k]? ≠ some g := by
    intro k g hk hg
    have hlt : k < m'.depth := (Array.getElem?_eq_some_iff.1 hg).1
    omega
  exact
    { above := Nat.lt_succ_self d
      within := Nat.le_trans h.above h.within
      place := h.place
      size := Nat.le_trans h.size hs.size
      old := hold
      fresh := fun k g hk hg => (hnone k g hk hg).elim
      committed := (hs.committed f).trans h.committed
      guard := fun g hg => by
        rw [Nat.add_sub_cancel, hold d (Nat.lt_succ_self d), h.place] at hg
        obtain rfl := Option.some.inj hg
        exact .inr ⟨rfl, hcut⟩
      marks := fun k g b hk hg => (hnone k g hk hg).elim
      alternatives := fun a ha => h.alternatives a (hs.alternatives f a ha)
      saved := fun k g r hk hg => (hnone k g hk hg).elim }

/-- Resuming a call that does not bring back older alternatives of the clause. -/
theorem resumed (h : Guards s f d Barred New n m) (hr : r.frame = f → ∀ a ∈ r.alternatives, New a) :
    Guards s f d Barred New n (m.resumed g r) := by
  have hfield : ∀ {α : Type} (field : Frame → α),
      (∀ fr as, field { fr with alternatives := as } = field fr) → ∀ g' : FrameId,
        field ((m.resumed g r).frame g') = field (m.frame g') := fun field hfield _ =>
    frame_resumed_field field hfield
  -- Only the alternatives of the caller change, and those come from its return point.
  have hcut := hfield Frame.cutTo fun _ _ => rfl
  have hreturn := hfield Frame.returnPoint fun _ _ => rfl
  exact
    { above := h.above
      within := h.within
      place := h.place
      size := by simpa [Machine.resumed] using h.size
      old := h.old
      fresh := h.fresh
      committed := (hfield Frame.committed (fun _ _ => rfl) f).trans h.committed
      guard := fun g' hg' => by
        rw [hcut g']
        exact h.guard g' hg'
      marks := fun k g' b hk hg' hb => h.marks k g' b hk hg' ((hcut g').symm.trans hb)
      alternatives := fun a ha => by
        rcases alternatives_of_resumed ha with ⟨hf, ha⟩ | ha
        · exact hr hf a ha
        · exact h.alternatives a ha
      saved := fun k g' r' hk hg' hr' =>
        h.saved k g' r' hk hg' ((hreturn g').symm.trans hr') }

end Guards

/-! ## §3. What a move preserves. -/

/-- The marks behind a cut, exactly. -/
theorem cutTo_severed (hlt : f < m.frames.size) (g : FrameId) : ((m.severed f).frame g).cutTo =
    if g = f then lowerMark (m.frame m.current).position (m.frame f).cutTo
    else (m.frame g).cutTo := by
  rw [severed, frame_changeFrame_field Frame.cutTo (by intro; rfl)]
  split
  · next heq =>
    subst heq
    rw [frame_changeFrame_self hlt]
  · next hne => rw [frame_changeFrame_of_ne hne]

theorem lowerMark_of_le {p : Nat} {old : Option Nat} (h : ∀ b, old = some b → p ≤ b) :
    lowerMark p old = some p := by
  unfold lowerMark
  split
  · next b =>
    have hpb := h b rfl
    split
    · rfl
    · rw [show b = p by omega]
  · rfl

/-- The clause is committed and has no alternatives. -/
theorem severed_current (hlt : m.current < m.frames.size) :
    ((m.severed g).frame m.current).committed = true ∧
      ((m.severed g).frame m.current).alternatives = [] := by
  rw [severed, frame_changeFrame_self (by simpa using hlt)]
  exact ⟨rfl, rfl⟩

/-- What was committed is so after another cut. -/
theorem committed_severed (hc : (m.frame f).committed = true) :
    ((m.severed g).frame f).committed = true := by
  have hmarked : ((m.changeFrame g (fun fr =>
      { fr with cutTo := lowerMark (m.frame m.current).position fr.cutTo })).frame f).committed = true :=
    (frame_changeFrame_field Frame.committed (by intro; rfl)).trans hc
  rw [severed]
  by_cases hf : f = m.current
  · subst hf
    by_cases hlt : m.current < m.frames.size
    · exact (severed_current hlt).1
    · simp [frame, hlt] at hc
  · rw [frame_changeFrame_of_ne hf]
    exact hmarked

/-- A cut adds no alternative. -/
theorem alternatives_of_severed {a : Alternative} (ha : a ∈ ((m.severed g).frame f).alternatives) :
    a ∈ (m.frame f).alternatives := by
  rw [severed] at ha
  by_cases hf : f = m.current
  · subst hf
    by_cases hlt : m.current < m.frames.size
    · rw [frame_changeFrame_self (by simpa using hlt)] at ha
      cases ha
    · simp [frame, Machine.changeFrame, hlt] at ha
  · rw [frame_changeFrame_of_ne hf, frame_changeFrame_field Frame.alternatives (by intro; rfl)] at ha
    exact ha

/-- An alternative is recorded for the current clause. -/
theorem alternatives_of_recorded {label : String} {a : Alternative}
    (ha : a ∈ ((m.recorded g label).frame f).alternatives) :
    f = m.current ∧ a = ⟨label, m.depth, (m.frame g).trail.length⟩ ∨
      a ∈ (m.frame f).alternatives := by
  rw [recorded] at ha
  by_cases hf : f = m.current
  · subst hf
    by_cases hlt : m.current < m.frames.size
    · rw [frame_changeFrame_self hlt] at ha
      exact (List.mem_cons.1 ha).imp_left fun heq => ⟨rfl, heq⟩
    · simp [frame, Machine.changeFrame, hlt] at ha
  · rw [frame_changeFrame_of_ne hf] at ha
    exact .inr ha

/-- What can happen to the frames of a cut: they are guarded, or that of the clause is popped, by a
    mark that bars or without a search, or the search is over. -/
inductive Guarded (s : Machine) (f : FrameId) (d : Nat) (Barred : Nat → Prop)
    (New : Alternative → Prop) (m : Machine) : Prop where
  /-- They are guarded. -/
  | guards {n : Nat} (h : Guards s f d Barred New n m) (hmore : m.exhausted = false)
  /-- A mark led below the clause. -/
  | barred {b : Nat} (hb : Barred b) (hbd : b < d) (hdepth : m.depth = b + 1)
    (hstack : m.stack[b]? = s.stack[b]?) (hmore : m.exhausted = false)
  /-- The frame of the clause is popped, and no call has returned. -/
  | popped (hdepth : m.depth ≤ d) (hfree : m.target = none) (hmore : m.exhausted = false)
  /-- The search is over. -/
  | exhausted (hmore : m.exhausted = true) (hdepth : m.depth = 1) (hb : Barred 0)
    (halternatives : ∀ a ∈ (m.frame f).alternatives, New a)

namespace Guards

variable {Barred : Nat → Prop} {New : Alternative → Prop}

/-- Going back leads to a newer frame, to the frame of the clause or to where a mark bars. -/
theorem retreats {m₁ : Machine} (h : Guards s f d Barred New n m) (hm : m.Memory)
    (hr : Retreats m m₁) (hle : ∀ b, Barred b → b ≤ d) (ht : m₁.top? = some g)
    (hcut : (m₁.frame g).cutTo = none) (hg : g ≠ queryFrame) :
    n < m₁.depth ∧ Guards s f d Barred New n m₁ ∨
      m₁.depth = d + 1 ∧ g = f ∧ Guards s f d Barred New (d + 1) m₁ ∨
      ∃ b, b < d ∧ Barred b ∧ m₁.depth = b + 1 := by
  have hdepth := h.le_depth
  have hdn := h.above
  have htop : m₁.stack[m₁.depth - 1]? = some g := top?_eq_getElem? ▸ ht
  have hpos : m₁.depth - 1 < m₁.depth := (Array.getElem?_eq_some_iff.1 htop).1
  -- Where the frame of the clause is on top, it has lost its mark.
  have hclause : m₁.depth = d + 1 → g = f ∧ Guards s f d Barred New (d + 1) m₁ := by
    intro hd₁
    rw [show m₁.depth - 1 = d by omega] at htop
    obtain rfl := Option.some.inj ((hr.settles.stack d g htop).symm.trans h.at_place)
    exact ⟨rfl, h.restart hr.settles hd₁ hcut⟩
  -- Where a newer frame is on top, the topmost frame of the cut has kept its mark.
  have hnewer : n < m₁.depth → Guards s f d Barred New n m₁ := by
    intro hn
    refine h.settles hr.settles (fun g' hg' => hr.marks g' fun ht' => ?_) (by omega)
    obtain rfl := Option.some.inj (ht.symm.trans ht')
    have hsame := hm.index_unique hg' (hr.settles.stack _ g htop)
    omega
  rcases hr.height with ⟨hstack, hfree⟩ | ⟨g', b, ht', hb, hd₁⟩
  · -- Nothing is popped: the call of the frame on top is resumed.
    have hsame : m₁.depth = m.depth := congrArg Array.size hstack
    have htm : m.top? = some g := (congrArg Array.back? hstack).symm.trans ht
    by_cases hn : n < m₁.depth
    · exact .inl ⟨hn, hnewer hn⟩
    · obtain ⟨rfl, -⟩ := h.eq_of_top htm (hfree g htm hg) (by omega)
      have hd₁ : m₁.depth = d + 1 := by omega
      exact .inr (.inl ⟨hd₁, hclause hd₁⟩)
  · -- The mark on top leads to a newer frame or bars.
    rcases h.mark_of_top ht' hb with ⟨hnb, -⟩ | hbarred
    · exact .inl ⟨by omega, hnewer (by omega)⟩
    · rcases Nat.lt_or_eq_of_le (hle b hbarred) with hbd | rfl
      · exact .inr (.inr ⟨b, hbd, hbarred, hd₁⟩)
      · exact .inr (.inl ⟨hd₁, hclause hd₁⟩)

/-- Pushing a frame. -/
theorem pushed (h : Guards s f d Barred New n m) (hm : m.Memory) :
    Guards s f d Barred New n m.pushed := by
  have hdepth := h.le_depth
  have hold : ∀ k, k < n → m.pushed.stack[k]? = m.stack[k]? := fun k hk => stack_pushed (by omega)
  have hf : f ≠ m.frames.size := Nat.ne_of_lt (hm.lt_of_getElem? h.at_place)
  exact
    { above := h.above
      within := h.within
      place := h.place
      size := Nat.le_trans h.size (by simp [Machine.pushed])
      old := fun k hk => (hold k hk).trans (h.old k hk)
      -- The frame that is pushed is younger than the cut.
      fresh := fun k g hk hg => by
        by_cases hg' : g = m.frames.size
        · exact hg' ▸ h.size
        · exact h.fresh k g hk (frame_of_pushed hg hg').1
      committed := by rw [frame_pushed_of_ne hf]; exact h.committed
      guard := fun g hg => by
        have hpos := h.above
        rw [hold (n - 1) (by omega)] at hg
        rw [frame_pushed_of_ne (Nat.ne_of_lt (hm.lt_of_getElem? hg))]
        exact h.guard g hg
      marks := fun k g b hk hg hb => by
        obtain ⟨hg', hb'⟩ := mark_of_pushed hg hb
        exact h.marks k g b hk hg' hb'
      alternatives := fun a ha => by
        rw [frame_pushed_of_ne hf] at ha
        exact h.alternatives a ha
      saved := fun k g r hk hg hr => by
        by_cases hg' : g = m.frames.size
        · subst hg'
          rw [frame_pushed_self] at hr
          cases hr
        · obtain ⟨hg', hframe⟩ := frame_of_pushed hg hg'
          exact h.saved k g r hk hg' (hframe ▸ hr) }

/-- Setting up a call saves the present alternatives of the running clause. -/
theorem readied (h : Guards s f d Barred New n m) (ht : m.top? = some g) (hm : m.Memory) :
    Guards s f d Barred New n (m.readied g) := by
  have hfield : ∀ {α : Type} (field : Frame → α),
      (∀ fr : Frame, field { fr with clause := 0, returnPoint := some m.callPoint } = field fr) →
        ∀ g' : FrameId, field ((m.readied g).frame g') = field (m.frame g') := fun field hfield _ =>
    frame_changeFrame_field field hfield
  have hcut := hfield Frame.cutTo fun _ => rfl
  exact
    { above := h.above
      within := h.within
      place := h.place
      size := by simpa [Machine.readied] using h.size
      old := h.old
      fresh := h.fresh
      committed := (hfield Frame.committed (fun _ => rfl) f).trans h.committed
      guard := fun g' hg' => by
        rw [hcut g']
        exact h.guard g' hg'
      marks := fun k g' b hk hg' hb => h.marks k g' b hk hg' ((hcut g').symm.trans hb)
      alternatives := fun a ha => by
        rw [hfield Frame.alternatives (fun _ => rfl) f] at ha
        exact h.alternatives a ha
      -- The return point of the new call saves the alternatives of its caller, which are new ones.
      saved := fun k g' r hk hg' hr hrf a ha => by
        by_cases hne : g' = g
        · subst hne
          rw [Machine.readied, frame_changeFrame_self (hm.lt_of_top? ht)] at hr
          obtain rfl := Option.some.inj hr
          have hcurrent : m.current = f := hrf
          refine h.alternatives a ?_
          rw [← hcurrent]
          exact ha
        · rw [Machine.readied, frame_changeFrame_of_ne hne] at hr
          exact h.saved k g' r hk hg' hr hrf a ha }

/-- Recording an alternative. -/
theorem recorded (h : Guards s f d Barred New n m) {label : String}
    (hnew : m.current = f → New ⟨label, m.depth, (m.frame g).trail.length⟩) :
    Guards s f d Barred New n (m.recorded g label) := by
  have hfield : ∀ {α : Type} (field : Frame → α),
      (∀ (fr : Frame) as, field { fr with alternatives := as } = field fr) →
        ∀ g' : FrameId, field ((m.recorded g label).frame g') = field (m.frame g') :=
    fun field hfield _ => frame_changeFrame_field field fun fr => hfield fr _
  -- Marks, places and return points stay; the one new alternative is recorded after the cut.
  have hcut := hfield Frame.cutTo fun _ _ => rfl
  exact
    { above := h.above
      within := h.within
      place := h.place
      size := by simpa [Machine.recorded] using h.size
      old := h.old
      fresh := h.fresh
      committed := (hfield Frame.committed (fun _ _ => rfl) f).trans h.committed
      guard := fun g' hg' => by
        rw [hcut g']
        exact h.guard g' hg'
      marks := fun k g' b hk hg' hb => h.marks k g' b hk hg' ((hcut g').symm.trans hb)
      alternatives := fun a ha => by
        rcases alternatives_of_recorded ha with ⟨hf, rfl⟩ | ha
        · exact hnew hf.symm
        · exact h.alternatives a ha
      saved := fun k g' r hk hg' hr =>
        h.saved k g' r hk hg' ((hfield Frame.returnPoint (fun _ _ => rfl) g').symm.trans hr) }

/-- A mark that is lowered bars if both of its ends do. -/
theorem barred_lowerMark {p : Nat} {old : Option Nat} (hp : Barred p)
    (hold : ∀ b, old = some b → Barred b) : ∃ b, lowerMark p old = some b ∧ Barred b := by
  unfold lowerMark
  split
  · next b =>
    split
    · exact ⟨p, rfl, hp⟩
    · exact ⟨b, rfl, hold b rfl⟩
  · exact ⟨p, rfl, hp⟩

/-- Another cut. -/
theorem severed (h : Guards s f d Barred New n m) (ht : m.top? = some g) (hm : m.Memory)
    (hpos : n ≤ (m.frame m.current).position ∨ Barred (m.frame m.current).position)
    (hplace : m.stack[(m.frame m.current).position]? = some m.current) :
    Guards s f d Barred New n (m.severed g) := by
  have hlt := hm.lt_of_top? ht
  have hreturn : ∀ g' : FrameId, ((m.severed g).frame g').returnPoint = (m.frame g').returnPoint := by
    intro g'
    rw [Machine.severed, frame_changeFrame_field Frame.returnPoint (by intro; rfl),
      frame_changeFrame_field Frame.returnPoint (by intro; rfl)]
  have hpd : (m.frame m.current).position < m.depth := (Array.getElem?_eq_some_iff.1 hplace).1
  exact
    { above := h.above
      within := h.within
      place := h.place
      size := by simpa [Machine.severed] using h.size
      old := h.old
      fresh := h.fresh
      committed := committed_severed h.committed
      guard := fun g' hg' => by
        have hg'm : m.stack[n - 1]? = some g' := hg'
        rw [cutTo_severed hlt]
        split
        · next heq =>
          subst heq
          -- The frame on top is the topmost frame of the cut, so the new mark bars.
          have hsame := hm.index_unique hg'm (top?_eq_getElem? ▸ ht)
          have hdepth := h.le_depth
          have hdn := h.above
          have hbarred := hpos.resolve_left (by omega)
          refine .inl (barred_lowerMark hbarred fun b hb => ?_)
          rcases h.guard g' hg'm with ⟨b', hb', hbarred'⟩ | ⟨-, hnone⟩
          · rw [hb] at hb'
            exact Option.some.inj hb' ▸ hbarred'
          · rw [hb] at hnone
            cases hnone
        · exact h.guard g' hg'm
      marks := fun k g' b hk hg' hb => by
        rcases cutTo_of_cut hm ht hg' hb with hold | ⟨-, rfl⟩
        · exact h.marks k g' b hk hg' hold
        · exact hpos
      alternatives := fun a ha => h.alternatives a (alternatives_of_severed ha)
      saved := fun k g' r hk hg' hr => h.saved k g' r hk hg' ((hreturn g').symm.trans hr) }

/-- **What a move preserves.** -/
theorem effects (h : Guards s f d Barred New n m) (he : Effects i m m') (hp : Poised i m)
    (hmore : m.exhausted = false) (hle : ∀ b, Barred b → b ≤ d) (hd : Barred d)
    (hbarred : ∀ b, i.op = .cut → b < d → m.stack[b]? = some m.current → Barred b)
    (hnew : ∀ g, i.op = .tryElse → m.top? = some g → m.current = f →
      New ⟨i.label, m.depth, (m.frame g).trail.length⟩) : Guarded s f d Barred New m' := by
  have hdepth := h.le_depth
  have hdn := h.above
  have hm := hp.memory
  cases he with
  | keeps hs hstack hcurrent hmarks =>
    have hdepth' : m'.depth = m.depth := congrArg Array.size hstack
    exact .guards (h.settles hs (fun g _ => hmarks g) (by omega)) (hs.exhausted.trans hmore)
  | enters hs hstack ht hcut hmarks =>
    have hdepth' : m'.depth = m.depth := congrArg Array.size hstack
    exact .guards (h.settles hs (fun g _ => hmarks g) (by omega)) (hs.exhausted.trans hmore)
  | returns hs hstack hr hcaller hcurrent hmarks =>
    have hdepth' : m'.depth = m.depth := congrArg Array.size hstack
    exact .guards (h.settles hs (fun g _ => hmarks g) (by omega)) (hs.exhausted.trans hmore)
  | drops hs ht hcut hdepth' hcurrent hmarks hfree =>
    have hmore' := hs.exhausted.trans hmore
    by_cases hn : n ≤ m'.depth
    · exact .guards (h.settles hs (fun g _ => hmarks g) hn) hmore'
    · obtain ⟨hnd, -⟩ := h.eq_of_top ht hcut (by omega)
      exact .popped (by omega) hfree hmore'
  | @denies _ g k hs hsuccess htarget hg hi hdepth' hcurrent hmarks hfree =>
    have hmore' := hs.exhausted.trans hmore
    by_cases hn : n ≤ k
    · exact .guards (h.settles hs (fun g _ => hmarks g) (by omega)) hmore'
    · have hkd : k ≤ d := by
        by_contra hkd
        exact hp.denied g k hi htarget hg (h.cutOff hle (by omega) (by omega))
      exact .popped (by omega) hfree hmore'
  | @resumes m₁ g r hr ht hg hcut hreturn =>
    have hmore' : m₁.exhausted = false := hr.settles.exhausted.trans hmore
    have hold := hr.settles.stack _ g (top?_eq_getElem? ▸ ht)
    rcases h.retreats hm hr hle ht hcut hg with ⟨hn, h₁⟩ | ⟨hd₁, rfl, h₁⟩ | ⟨b, hbd, hbar, hd₁⟩
    · refine .guards (h₁.resumed fun hrf a ha => ?_) hmore'
      exact h₁.saved (m₁.depth - 1) g r (by omega) (top?_eq_getElem? ▸ ht) hreturn hrf a ha
    · refine .guards (h₁.resumed fun hrf => ?_) hmore'
      exact (hp.caller _ g r hg hold ((hr.settles.returnPoint g).symm.trans hreturn) hrf).elim
    · refine .barred hbar hbd hd₁ ?_ hmore'
      rw [hd₁, Nat.add_sub_cancel] at hold
      rw [← h.old b (by omega), hold]
      show m₁.stack[b]? = some g
      rw [← ht, top?_eq_getElem?, hd₁, Nat.add_sub_cancel]
  | @exhausts m₁ hr ht =>
    have htop : m₁.stack[m₁.depth - 1]? = some queryFrame := top?_eq_getElem? ▸ ht
    have hpos : m₁.depth - 1 < m₁.depth := (Array.getElem?_eq_some_iff.1 htop).1
    have hzero := hm.index_unique (hr.settles.stack _ _ htop) hp.bottom
    refine .exhausted rfl (show m₁.depth = 1 by omega) ?_ fun a ha =>
      h.alternatives a (hr.settles.alternatives f a ha)
    rcases hr.height with ⟨hstack, -⟩ | ⟨g, b, ht', hcut, hd₁⟩
    · have hsame : m₁.depth = m.depth := congrArg Array.size hstack
      obtain rfl : d = 0 := by omega
      exact hd
    · obtain rfl : b = 0 := by omega
      exact (h.mark_of_top ht' hcut).resolve_left (by omega)
  | pushes => exact .guards (h.pushed hm) hmore
  | setsUp ht huntried => exact .guards (h.readied ht hm) hmore
  | @records g hi ht => exact .guards (h.recorded fun hcurrent => hnew g hi ht hcurrent) hmore
  | @cuts g hi ht hplace =>
    refine .guards (h.severed ht hm ?_ hplace) hmore
    -- The running clause is not cut off.
    by_cases hn : n ≤ (m.frame m.current).position
    · exact .inl hn
    · have hpd : (m.frame m.current).position ≤ d := by
        by_contra hpd
        exact hp.barriers.running _ hplace (h.cutOff hle (by omega) (by omega))
      rcases Nat.lt_or_eq_of_le hpd with hlt | heq
      · exact .inr (hbarred _ hi hlt hplace)
      · exact .inr (heq ▸ hd)

end Guards

/-- Only a call without a mark returns as failed. -/
theorem Fits.unmarked_of_failed {p : Phase} (h : Fits admits kb q m j p) (hs : m.success = false)
    (htarget : m.target = some f) : (m.frame f).cutTo = none := by
  cases p with
  -- Code runs in these phases, so nothing has failed.
  | head pending last left => exact absurd h.1 (by simp [hs])
  | body => exact absurd h.1 (by simp [hs])
  | build regs begun left => exact absurd h.1 (by simp [hs])
  | ready goal =>
    obtain ⟨-, f', r, htarget', -, -, -, hcut, -⟩ := h
    obtain rfl := Option.some.inj (htarget.symm.trans htarget')
    exact hcut
  | returned goal =>
    obtain ⟨-, k, f', r, l, -, -, htarget', -, -, -, -, htop⟩ := h
    obtain rfl := Option.some.inj (htarget.symm.trans htarget')
    exact (htop hs).2
  | retried =>
    rcases h.2 with hs' | hnone | ⟨f', j, htarget', -, -, -, -, hcut⟩
    · rw [hs] at hs'
      cases hs'
    · rw [htarget] at hnone
      cases hnone
    · obtain rfl := Option.some.inj (htarget.symm.trans htarget')
      exact hcut
  | outcome =>
    rcases h.2 with hs' | hnone
    · rw [hs] at hs'
      cases hs'
    · rw [htarget] at hnone
      cases hnone
  | operands count => exact absurd h.1 (by simp [hs])
  | failed => exact h.elim
  | closed => exact h.elim

/-! ## §4. Runs. -/

/-- Stack indices that a mark may lead to once frame `f` at stack index `d` was cut: its own, or that of
    a lower frame that was cut since. -/
def Barred (kb : KnowledgeBase) (s : Machine) (d : Nat) (m : Machine) (b : Nat) : Prop :=
  b = d ∨ b < d ∧ ∃ g, s.stack[b]? = some g ∧ Since kb s m (Cuts · g b)

/-- A barrier is not above the frame of the cut. -/
theorem Barred.le (h : Barred kb s d m b) : b ≤ d := by
  rcases h with rfl | ⟨hlt, -⟩
  · exact Nat.le_refl b
  · exact Nat.le_of_lt hlt

/-- What is barred stays barred. -/
theorem Barred.advances (h : Barred kb s d m b) (ha : Advances kb m m') : Barred kb s d m' b :=
  h.imp_right fun ⟨hlt, g, hg, hsince⟩ => ⟨hlt, g, hg, hsince.advances ha⟩

theorem Undone.refl (m : Machine) : Undone m.depth m m := fun _ _ _ hj hg _ =>
  absurd (Array.getElem?_eq_some_iff.1 hg).1 (Nat.not_lt.2 hj)

/-- Where a search goes back or is over, the bindings of the frames that are popped are undone. -/
theorem Effects.undone (h : Effects i m m') :
    Undone m'.depth m m' ∨ m'.target = none ∧ m'.exhausted = m.exhausted := by
  have hstays : m'.depth = m.depth → Undone m'.depth m m' := by
    intro hdepth j g v hj hg
    have hlt : j < m.depth := (Array.getElem?_eq_some_iff.1 hg).1
    omega
  cases h with
  | keeps _ hstack => exact .inl (hstays (congrArg Array.size hstack))
  | enters _ hstack => exact .inl (hstays (congrArg Array.size hstack))
  | returns _ hstack => exact .inl (hstays (congrArg Array.size hstack))
  | drops hs _ _ _ _ _ hfree => exact .inr ⟨hfree, hs.exhausted⟩
  | denies hs _ _ _ _ _ _ _ hfree => exact .inr ⟨hfree, hs.exhausted⟩
  | resumes hr => exact .inl hr.undone
  | exhausts hr => exact .inl hr.undone
  | pushes =>
    refine .inl fun j g v hj hg => ?_
    have hlt : j < m.depth := (Array.getElem?_eq_some_iff.1 hg).1
    rw [depth_pushed] at hj
    omega
  | setsUp => exact .inl (hstays rfl)
  | records => exact .inl (hstays rfl)
  | cuts => exact .inl (hstays rfl)

/-- The machine of a run has an effect, or it stands still. -/
theorem Advances.effects (h : Advances kb m m') (hm : Search kb c m)
    (herror : m'.error = none) : m' = m ∨
      ∃ (i : Instruction) (m₁ : Machine), Poised i m₁ ∧ Effects i m₁ m' ∧
        m₁.stack = m.stack ∧ m₁.frames = m.frames ∧ m₁.current = m.current ∧
        m₁.exhausted = false ∧ m.exhausted = false ∧ m.error = none ∧
        (i.op = .cut ∨ i.op = .tryElse → m.Active ∧ m.fetch = .ok i ∧
          ∃ w, Equipped kb w ∧ m' = (m.step w).2) := by
  cases h with
  | @step w hw =>
    rcases hm.advances hw herror with hidle | ⟨i, q, hactive, hi, -, hmove, -⟩
    · exact .inl hidle
    · have hp := hm.poised hactive hi
      exact .inr ⟨i, m.counted w i, hp.counted, hmove.effects hp.counted.barriers, rfl, rfl, rfl,
        hactive.2.2.2, hactive.2.2.2, hactive.2.1, fun _ => ⟨hactive, hi, w, hw, rfl⟩⟩
  | redo hstatus =>
    obtain ⟨hp, hfails⟩ := hm.redo_fails hstatus herror
    -- Redo is a failure of the machine, with its flags set back.
    have hmore := (status_eq_answer.1 hstatus).2
    let m₁ : Machine := { m with ended := false, success := false, steps := 0 }
    have hmild : Mild m m₁ := .fields _ ⟨rfl, rfl, rfl, rfl⟩
    have hm₁ : m₁.Memory := hp.memory.of_eq rfl rfl rfl fun _ => ⟨rfl, rfl⟩
    have hp₁ : Poised { op := .invalid } m₁ :=
      ⟨hm₁, hmild.barriers hp.barriers, hp.bottom, hp.place, hp.caller, fun _ _ hop => by cases hop⟩
    have heffects : Effects { op := .invalid } m₁ m.redo.2 :=
      hfails.effects (.fields _ ⟨rfl, rfl, rfl, rfl⟩) hm₁ hp₁.barriers
    exact .inr ⟨{ op := .invalid }, m₁, hp₁, heffects, rfl, rfl, rfl, hmore, hmore,
      error_none_of_redo herror, fun hop => by rcases hop with hop | hop <;> cases hop⟩

/-- The alternative `a` of frame `f` was recorded since the cut. -/
def Newer (kb : KnowledgeBase) (s : Machine) (f : FrameId) (m : Machine) (a : Alternative) : Prop :=
  Since kb s m (Records · f a)

/-- **What a step or a redo preserves.** -/
theorem Guards.advances (h : Guards s f d (Barred kb s d m) (Newer kb s f m) n m)
    (hrun : Continues kb s m) (hm : Search kb c m) (ha : Advances kb m m')
    (herror : m'.error = none) : m' = m ∨
      (Undone m'.depth m m' ∨ m'.target = none ∧ m'.exhausted = false) ∧
        Guarded s f d (Barred kb s d m') (Newer kb s f m') m' := by
  rcases ha.effects hm herror with hidle | ⟨i, m₁, hp, he, hstack, hframes, hcurrent, hmore₁, hmore,
    herrorm, hnow⟩
  · exact .inl hidle
  refine .inr ⟨?_, ?_⟩
  · have hframe : ∀ g, m₁.frame g = m.frame g := fun g => by simp only [frame, hframes]
    rcases he.undone with hundone | hfree
    · refine .inl fun j g v hj hg hv => hundone j g v hj (hstack ▸ hg) ?_
      rwa [hframe]
    · exact .inr ⟨hfree.1, hfree.2.trans hmore₁⟩
  · have hsettles : Settles m m₁ := .fields m₁ ⟨hstack, hframes, hmore₁.trans hmore.symm⟩
    have hdepth : m₁.depth = m.depth := congrArg Array.size hstack
    have h₁ : Guards s f d (Barred kb s d m') (Newer kb s f m') n m₁ := by
      refine (h.settles hsettles (fun g _ => by simp only [frame, hframes]) ?_).mono
        (fun b hb => hb.advances ha) (fun a hnew => Since.advances hnew ha)
      rw [hdepth]
      exact h.le_depth
    refine h₁.effects he hp hmore₁ (fun b hb => hb.le) (.inl rfl) (fun b hop hbd hb => ?_)
      (fun g hop ht hf => ?_)
    · -- A lower frame is cut now.
      obtain ⟨hactive, hi, w, hw, rfl⟩ := hnow (.inl hop)
      rw [hstack, hcurrent] at hb
      refine .inr ⟨hbd, m.current, ?_, .now hrun ⟨hactive, ⟨i, hi, hop⟩, rfl, hb⟩ hw⟩
      rw [← h.old b (Nat.lt_trans hbd h.above)]
      exact hb
    · -- The clause records an alternative now.
      obtain ⟨hactive, hi, w, hw, rfl⟩ := hnow (.inr hop)
      refine .now hrun ⟨hactive, ⟨i, hi, hop, rfl⟩, hcurrent ▸ hf, hdepth, g, ?_, ?_⟩ hw
      · rw [top?, ← hstack]
        exact ht
      · simp only [frame, hframes]

/-- An error stays an error. -/
theorem Advances.error_none (h : Advances kb m m') (herror : m'.error = none) : m.error = none := by
  cases h with
  | step => exact error_none_of_step herror
  | redo => exact error_none_of_redo herror

/-- Frames are not pushed again. -/
theorem Advances.stack (h : Advances kb m m') (hm : Search kb c m)
    (herror : m'.error = none) : m.frames.size ≤ m'.frames.size ∧
      ∀ (k : Nat) f, f < m.frames.size → m'.stack[k]? = some f → m.stack[k]? = some f := by
  rcases h.effects hm herror with rfl | ⟨i, m₁, hp, he, hstack, hframes, -⟩
  · exact ⟨Nat.le_refl _, fun _ _ _ hf => hf⟩
  · obtain ⟨hgrows, hold⟩ := he.stack
    rw [hframes] at hgrows
    refine ⟨hgrows, fun k f hlt hf => ?_⟩
    rw [← hstack]
    refine (hold k f hf).resolve_right fun hnew => ?_
    rw [hframes] at hnew
    exact Nat.ne_of_lt hlt hnew

/-- The frames of the stack that were there are in their places. -/
theorem Continues.stack (h : Continues kb s m) (hs : Search kb c s) :
    m.error = none → s.frames.size ≤ m.frames.size ∧
      ∀ (k : Nat) f, f < s.frames.size → m.stack[k]? = some f → s.stack[k]? = some f := by
  refine h.preserves (P := fun m => m.error = none → s.frames.size ≤ m.frames.size ∧
      ∀ (k : Nat) f, f < s.frames.size → m.stack[k]? = some f → s.stack[k]? = some f)
    (fun _ => ⟨Nat.le_refl _, fun _ _ _ hf => hf⟩) fun m m' hrun ha ih herror => ?_
  obtain ⟨hsize, hold⟩ := ih (ha.error_none herror)
  obtain ⟨hgrows, hback⟩ := ha.stack (hrun.search hs) herror
  exact ⟨Nat.le_trans hsize hgrows, fun k f hlt hf =>
    hold k f hlt (hback k f (Nat.lt_of_lt_of_le hlt hsize) hf)⟩

/-- **What a run preserves, as long as the frame of the clause is there and the search is not over.** -/
theorem Continues.guards (hstart : Guards s f d (Barred kb s d s) (Newer kb s f s) s.depth s)
    (hlt : f < s.frames.size) (hs : Search kb c s) (h : Continues kb s m) :
    m.error = none → m.stack[d]? = some f →
      (m.exhausted = true ∧ ∀ a ∈ (m.frame f).alternatives, Newer kb s f m a) ∨
        ∃ n, Guards s f d (Barred kb s d m) (Newer kb s f m) n m := by
  refine h.preserves (P := fun m => m.error = none → m.stack[d]? = some f →
      (m.exhausted = true ∧ ∀ a ∈ (m.frame f).alternatives, Newer kb s f m a) ∨
        ∃ n, Guards s f d (Barred kb s d m) (Newer kb s f m) n m)
    (fun _ _ => .inr ⟨_, hstart⟩) fun m m' hrun ha ih herror hf' => ?_
  have herrorm := ha.error_none herror
  have hsearch := hrun.search hs
  have hf := (ha.stack hsearch herror).2 d f
    (Nat.lt_of_lt_of_le hlt (hrun.stack hs herrorm).1) hf'
  have hd : d < m'.depth := (Array.getElem?_eq_some_iff.1 hf').1
  -- The search is over and stays over, or the frame of the cut is guarded as before.
  rcases ih herrorm hf with hover | ⟨n, hguards⟩
  · rcases ha.effects hsearch herror with rfl | ⟨_, _, _, _, _, _, _, _, hmore, _⟩
    · exact .inl hover
    · rw [hover.1] at hmore
      cases hmore
  · rcases hguards.advances hrun hsearch ha herror with rfl | ⟨-, hguarded⟩
    · exact .inr ⟨n, hguards⟩
    cases hguarded with
    | guards h => exact .inr ⟨_, h⟩
    | barred _ hbd hdepth => omega
    | popped hdepth => omega
    | exhausted hmore _ _ halternatives => exact .inl ⟨hmore, halternatives⟩

/-- The step of a cut does nothing else, unless the limit is used up. -/
theorem Cuts.step_eq (h : Cuts m f d) (hm : Search kb c m)
    (herror : (m.step w).2.error = none) : ∃ i g, Poised i m ∧ m.top? = some g ∧
      (m.step w).2 = (m.counted w i).severed g := by
  obtain ⟨hactive, ⟨i, hi, hop⟩, hcurrent, hf⟩ := h
  have hp := hm.poised hactive hi
  have hd : d < m.depth := (Array.getElem?_eq_some_iff.1 hf).1
  obtain ⟨g, ht⟩ : ∃ g, m.top? = some g := by
    rw [top?_eq_getElem?]
    exact ⟨_, Array.getElem?_eq_getElem (by simp only [depth] at hd ⊢; omega)⟩
  have hexecute : execute w i = cut := by simp only [execute, hop]
  refine ⟨i, g, hp, ht, ?_⟩
  rw [step_performed hactive hi herror, perform_eq, hexecute, eval_cut (m := m.counted w i) ht]

/-- The mark of a cut is the place of the clause: older marks on top are above it, for it was running. -/
theorem Cuts.mark (h : Cuts m f d) (hp : Poised i m) (ht : m.top? = some g) :
    (((m.counted w i).severed g).frame g).cutTo = some d := by
  obtain ⟨-, -, rfl, hf⟩ := h
  have hdm : d < m.depth := (Array.getElem?_eq_some_iff.1 hf).1
  have hposition : (m.frame m.current).position = d := hp.memory.index_unique hp.place hf
  have hm : (m.counted w i).Memory := hp.counted.memory
  rw [cutTo_severed (hm.lt_of_top? ht), if_pos rfl]
  show lowerMark (m.frame m.current).position (m.frame g).cutTo = some d
  rw [hposition]
  refine lowerMark_of_le fun b hb => ?_
  by_contra hbd
  exact hp.barriers.running d hf
    ⟨m.depth - 1, g, b, by omega, top?_eq_getElem? ▸ ht, hb, by omega, by omega⟩

/-- **The cut puts the frames under guard.** -/
theorem Cuts.guards {New : Alternative → Prop} {Barred : Nat → Prop} (h : Cuts m f d)
    (hp : Poised i m) (ht : m.top? = some g) (hd : Barred d) :
    Guards ((m.counted w i).severed g) f d Barred New m.depth ((m.counted w i).severed g) := by
  have hmark := h.mark (w := w) hp ht
  obtain ⟨-, -, rfl, hf⟩ := h
  have hm : (m.counted w i).Memory := hp.counted.memory
  have hdm : d < m.depth := (Array.getElem?_eq_some_iff.1 hf).1
  have hnone : ∀ k g', m.depth ≤ k → m.stack[k]? ≠ some g' := fun k g' hk hg' =>
    Nat.not_lt.2 hk (Array.getElem?_eq_some_iff.1 hg').1
  obtain ⟨hcommitted, hdropped⟩ := severed_current (m := m.counted w i) (g := g)
    (hm.lt_of_getElem? hf)
  -- Just after the cut no frame is above the stack, so only the marks below are to be looked at.
  exact
    { above := hdm
      within := Nat.le_refl _
      place := hf
      size := Nat.le_refl _
      old := fun _ _ => rfl
      fresh := fun k g' hk hg' => (hnone k g' hk hg').elim
      committed := hcommitted
      guard := fun g' hg' => by
        have hlast : m.stack[m.depth - 1]? = some g' := hg'
        obtain rfl := Option.some.inj (hlast.symm.trans (top?_eq_getElem? ▸ ht))
        exact .inl ⟨d, hmark, hd⟩
      marks := fun k g' b hk hg' => (hnone k g' hk hg').elim
      alternatives := fun a ha => by
        have hnone : a ∈ [] := hdropped ▸ ha
        cases hnone
      saved := fun k g' r hk hg' => (hnone k g' hk hg').elim }

/-! ## §5. Lower cuts. -/

/-- A mark on the frame at stack index `d` or above leads to index `b` or lower. -/
def Lowered (d b : Nat) (m : Machine) : Prop :=
  ∃ (k : Nat) (g : FrameId) (c : Nat), d ≤ k ∧ m.stack[k]? = some g ∧ (m.frame g).cutTo = some c ∧ c ≤ b

/-- A mark stays lowered where marks and stack stay. -/
theorem Lowered.of_marks (h : Lowered d b m) (hstack : m'.stack = m.stack)
    (hmarks : ∀ g, (m'.frame g).cutTo = (m.frame g).cutTo) : Lowered d b m' := by
  obtain ⟨k, g, c, hdk, hg, hc, hcb⟩ := h
  exact ⟨k, g, c, hdk, hstack ▸ hg, (hmarks g).trans hc, hcb⟩

/-- Going back past such a mark leads below. -/
theorem Lowered.retreats {m₁ : Machine} (h : Lowered d b m) (hbd : b < d) (hb : Barriers m)
    (hr : Retreats m m₁) (hd : d < m₁.depth) (ht : m₁.top? = some g) (hg : g ≠ queryFrame)
    (hm : m.Memory) : Lowered d b m₁ := by
  obtain ⟨k, g', c, hdk, hg', hc, hcb⟩ := h
  have htop : m₁.stack[m₁.depth - 1]? = some g := top?_eq_getElem? ▸ ht
  have hkm : k < m.depth := (Array.getElem?_eq_some_iff.1 hg').1
  -- The marked frame stays, below the one that comes to be on top.
  have hstays : k < m₁.depth ∧ k ≠ m₁.depth - 1 → Lowered d b m₁ := by
    rintro ⟨hk, hne⟩
    have hlt : k < m₁.stack.size := hk
    have hsame : m₁.stack[k]? = some g' := by
      rw [Array.getElem?_eq_getElem hlt, ← hg']
      exact (hr.settles.stack k _ (Array.getElem?_eq_getElem hlt)).symm
    refine ⟨k, g', c, hdk, hsame, (hr.marks g' fun ht' => hne ?_).trans hc, hcb⟩
    obtain rfl := Option.some.inj (ht.symm.trans ht')
    exact hm.index_unique hg' (hr.settles.stack _ _ htop)
  rcases hr.height with ⟨hstack, hfree⟩ | ⟨f', b', ht', hb', hdepth⟩
  · have hsame : m₁.depth = m.depth := congrArg Array.size hstack
    refine hstays ⟨by omega, fun heq => ?_⟩
    have htm : m.top? = some g := (congrArg Array.back? hstack).symm.trans ht
    have hgg : g' = g := by
      rw [top?_eq_getElem?, ← hsame, ← heq, hg'] at htm
      exact Option.some.inj htm
    rw [hgg, hfree g htm hg] at hc
    cases hc
  · have htm : m.stack[m.depth - 1]? = some f' := top?_eq_getElem? ▸ ht'
    by_cases hk : k = m.depth - 1
    · -- The mark on top would lead below.
      subst hk
      obtain rfl := Option.some.inj (hg'.symm.trans htm)
      rw [hc] at hb'
      obtain rfl := Option.some.inj hb'
      omega
    · have hkb : k < b' := by
        by_contra hkb
        exact hb.nested _ _ _ htm hb' ⟨k, g', c, by omega, hg', hc, by omega, by omega⟩
      exact hstays ⟨by omega, by omega⟩

/-- As long as a frame is there, a mark that leads below it stays. -/
theorem Effects.lowered (he : Effects i m m') (h : Lowered d b m) (hbd : b < d) (hp : Poised i m)
    (hd : d < m'.depth) : Lowered d b m' := by
  have hm := hp.memory
  cases he with
  | keeps hs hstack hcurrent hmarks => exact h.of_marks hstack hmarks
  | enters hs hstack ht hcut hmarks => exact h.of_marks hstack hmarks
  | returns hs hstack hr hcaller hcurrent hmarks => exact h.of_marks hstack hmarks
  | @drops _ f hs ht hcut hdepth hcurrent hmarks hfree =>
    obtain ⟨k, g, c, hdk, hg, hc, hcb⟩ := h
    have hk : k < m.depth := (Array.getElem?_eq_some_iff.1 hg).1
    by_cases hlast : k = m.depth - 1
    · -- The frame that is popped has no mark.
      rw [hlast, ← top?_eq_getElem?, ht] at hg
      obtain rfl := Option.some.inj hg
      rw [hcut] at hc
      cases hc
    · have hlt : k < m'.stack.size := by
        simp only [depth] at hdepth hk hlast
        omega
      refine ⟨k, g, c, hdk, ?_, (hmarks g).trans hc, hcb⟩
      rw [Array.getElem?_eq_getElem hlt, ← hg]
      exact (hs.stack k _ (Array.getElem?_eq_getElem hlt)).symm
  | @denies _ f l hs hsuccess htarget hf hi hdepth hcurrent hmarks hfree =>
    obtain ⟨k, g, c, hdk, hg, hc, hcb⟩ := h
    have hk : k < m.depth := (Array.getElem?_eq_some_iff.1 hg).1
    -- The negated goal does not reach down to the mark, since it was called above it.
    have hkl : k < l := by
      by_contra hkl
      exact hp.denied f l hi htarget hf ⟨k, g, c, hk, hg, hc, by omega, by omega⟩
    have hlt : k < m'.stack.size := by
      simp only [depth] at hdepth
      omega
    refine ⟨k, g, c, hdk, ?_, (hmarks g).trans hc, hcb⟩
    rw [Array.getElem?_eq_getElem hlt, ← hg]
    exact (hs.stack k _ (Array.getElem?_eq_getElem hlt)).symm
  | @resumes m₁ g r hr ht hg hcut hreturn =>
    have h₁ := h.retreats hbd hp.barriers hr hd ht hg hm
    exact h₁.of_marks rfl fun g' => frame_resumed_field Frame.cutTo fun _ _ => rfl
  | @exhausts m₁ hr ht =>
    have htop : m₁.stack[m₁.depth - 1]? = some queryFrame := top?_eq_getElem? ▸ ht
    have hzero := hm.index_unique (hr.settles.stack _ _ htop) hp.bottom
    have hd₁ : d < m₁.depth := hd
    omega
  | pushes =>
    obtain ⟨k, g, c, hdk, hg, hc, hcb⟩ := h
    have hk : k < m.depth := (Array.getElem?_eq_some_iff.1 hg).1
    refine ⟨k, g, c, hdk, (stack_pushed hk).trans hg, ?_, hcb⟩
    rw [frame_pushed_of_ne (Nat.ne_of_lt (hm.lt_of_getElem? hg))]
    exact hc
  | setsUp => exact h.of_marks rfl fun g => frame_changeFrame_field Frame.cutTo (by intro; rfl)
  | records => exact h.of_marks rfl fun g => frame_changeFrame_field Frame.cutTo (by intro; rfl)
  | @cuts f hi ht hplace =>
    obtain ⟨k, g, c, hdk, hg, hc, hcb⟩ := h
    by_cases hgf : g = f
    · -- The mark may be lowered.
      subst hgf
      obtain ⟨c', hc', hle⟩ : ∃ c', lowerMark (m.frame m.current).position (some c) = some c' ∧
          c' ≤ c := by
        unfold lowerMark
        split
        · next old heq =>
          obtain rfl := Option.some.inj heq
          split
          · exact ⟨_, rfl, by omega⟩
          · exact ⟨_, rfl, Nat.le_refl _⟩
        · next heq => cases heq
      refine ⟨k, g, c', hdk, hg, ?_, by omega⟩
      rw [cutTo_severed (hm.lt_of_top? ht), if_pos rfl, hc, hc']
    · refine ⟨k, g, c, hdk, hg, ?_, hcb⟩
      rw [cutTo_severed (hm.lt_of_top? ht), if_neg hgf]
      exact hc

/-- A mark that was lowered below a frame stays so while the frame is on the stack. -/
theorem Continues.lowered (h : Continues kb s m) (hs : Search kb c s)
    (hlow : Lowered d b s) (hbd : b < d) (hlt : f < s.frames.size) :
    m.error = none → m.stack[d]? = some f → Lowered d b m := by
  refine h.preserves (P := fun m => m.error = none → m.stack[d]? = some f → Lowered d b m)
    (fun _ _ => hlow) fun m m' hrun ha ih herror hf' => ?_
  have herrorm := ha.error_none herror
  have hf := (ha.stack (hrun.search hs) herror).2 d f
    (Nat.lt_of_lt_of_le hlt (hrun.stack hs herrorm).1) hf'
  rcases ha.effects (hrun.search hs) herror with rfl | ⟨i, m₁, hp, he, hstack, hframes, -⟩
  · exact ih herrorm hf
  · have hlow₁ : Lowered d b m₁ :=
      (ih herrorm hf).of_marks hstack fun g => by simp only [frame, hframes]
    exact he.lowered hlow₁ hbd hp (Array.getElem?_eq_some_iff.1 hf').1

/-- **A cut of a lower frame leaves its mark as long as the frame is there.** -/
theorem Since.lowered (h : Since kb s m (Cuts · g b)) (hs : Search kb c s)
    (hbd : b < d) (hlt : f < s.frames.size) (hf : m.stack[d]? = some f) (herror : m.error = none) :
    Lowered d b m := by
  obtain ⟨m₁, w, hbefore, hcut, hw, hafter⟩ := h
  have hsearch₁ := hbefore.search hs
  have hsearch₂ : Search kb c (m₁.step w).2 := hsearch₁.step hw
  have herror₂ : (m₁.step w).2.error = none := hafter.error_eq_none herror
  have ha : Advances kb m₁ (m₁.step w).2 := .step hw
  have hlt₁ := Nat.lt_of_lt_of_le hlt (hbefore.stack hs (ha.error_none herror₂)).1
  have hlt₂ := Nat.lt_of_lt_of_le hlt₁ (ha.stack hsearch₁ herror₂).1
  have hf₂ := (hafter.stack hsearch₂ herror).2 d f hlt₂ hf
  have hd : d < (m₁.step w).2.depth := (Array.getElem?_eq_some_iff.1 hf₂).1
  refine hafter.lowered hsearch₂ ?_ hbd hlt₂ herror hf
  obtain ⟨i, g', hp, ht, hsevered⟩ := hcut.step_eq hsearch₁ herror₂
  rw [hsevered] at hd ⊢
  have hdm : d < m₁.depth := hd
  exact ⟨m₁.depth - 1, g', b, by omega, top?_eq_getElem? ▸ ht, hcut.mark hp ht, Nat.le_refl b⟩

/-- A call that has returned as failed has no mark. -/
theorem Search.unmarked_of_failed (hm : Search kb c m) (hf : Failed m f) :
    (m.frame f).cutTo = none := by
  obtain ⟨hactive, hs, htarget, -⟩ := hf
  obtain ⟨q, -, horderly⟩ := hm.orderly hactive.1 hactive.2.1
  cases horderly with
  | running _ hmem hcode hat hfit => exact hfit.unmarked_of_failed hs htarget
  | headless _ _ _ _ _ _ hs' => rw [hs] at hs'; cases hs'
  | answered _ _ hended => rw [hactive.2.2.1] at hended; cases hended
  | exhausted _ _ hended => rw [hactive.2.2.1] at hended; cases hended

/-! ## §6. What a cut promises. -/

/-- A frame that is tried again is on top, has no mark and is not committed. -/
theorem Retries.top (h : Retries w m g) (hm : Search kb c m) (hw : Equipped kb w) :
    m.exhausted = false ∧ m.top? = some g ∧ (m.frame g).cutTo = none ∧
      (m.frame g).committed = false := by
  obtain ⟨-, -, herror, hclause⟩ := h
  rcases hm.advances hw herror with hidle | ⟨i, q, hactive, hi, -, hmove, -⟩
  · rw [hidle] at hclause
    omega
  · obtain ⟨ht, hcut, hcommitted, -⟩ := hmove.retries_of_clause (f := g) hclause
    exact ⟨hactive.2.2.2, ht, hcut, hcommitted⟩

/-- No frame of the cut tries another clause. -/
theorem Guards.not_retries {New : Alternative → Prop} {Barred : Nat → Prop}
    (h : Guards s f d Barred New n m) (hm : Search kb c m) (hw : Equipped kb w)
    (hg : g < s.frames.size) : ¬ Retries w m g := by
  intro hretries
  obtain ⟨-, ht, hcut, hcommitted⟩ := hretries.top hm hw
  have htop : m.stack[m.depth - 1]? = some g := top?_eq_getElem? ▸ ht
  have hdepth := h.le_depth
  have hdn := h.above
  by_cases hn : n ≤ m.depth - 1
  · have hfresh := h.fresh _ g hn htop
    exact Nat.not_lt.2 hfresh hg
  · obtain ⟨-, rfl⟩ := h.eq_of_top ht hcut (by omega)
    rw [h.committed] at hcommitted
    cases hcommitted

/-- Where a failed call can have returned. -/
theorem Guarded.of_failed (h : Guarded s f d (Barred kb s d m) (Newer kb s f m) m)
    (hm : Search kb c m) (hfailed : Failed m g) (hold : g < s.frames.size) :
    ∃ b, b ≤ d ∧ m.depth = b + 1 ∧ (b = d ∧ g = f ∨ b < d ∧ Since kb s m (Cuts · g b)) := by
  have hcut := hm.unmarked_of_failed hfailed
  obtain ⟨hactive, -, htarget, ht, -⟩ := hfailed
  have htop : m.stack[m.depth - 1]? = some g := top?_eq_getElem? ▸ ht
  -- Either the frame of the cut is guarded, or the machine went back to a lower cut.
  cases h with
  | @guards n h hmore =>
    have hdepth := h.le_depth
    have hdn := h.above
    by_cases hn : n ≤ m.depth - 1
    · exact absurd (h.fresh _ g hn htop) (Nat.not_le.2 hold)
    · obtain ⟨rfl, rfl⟩ := h.eq_of_top ht hcut (by omega)
      exact ⟨d, Nat.le_refl d, by omega, .inl ⟨rfl, rfl⟩⟩
  | barred hb hbd hdepth hstack hmore =>
    rcases hb with rfl | ⟨-, g', hg', hsince⟩
    · exact absurd hbd (Nat.lt_irrefl _)
    · rw [hdepth, Nat.add_sub_cancel, hstack, hg'] at htop
      obtain rfl := Option.some.inj htop
      exact ⟨_, Nat.le_of_lt hbd, hdepth, .inr ⟨hbd, hsince⟩⟩
  | popped hdepth hfree hmore =>
    rw [htarget] at hfree
    cases hfree
  | exhausted hmore =>
    rw [hactive.2.2.2] at hmore
    cases hmore

/-- No lower frame was cut since: its mark would have led below. -/
theorem Failed.not_since {b' : Nat} {g' : FrameId} (h : Failed m g) (hs : Search kb c s)
    (hm : Search kb c m) (hdepth : m.depth = b + 1) (hold : g < s.frames.size)
    (hb : b' < b) : ¬ Since kb s m (Cuts · g' b') := by
  intro hsince
  have htop : m.stack[b]? = some g := by
    rw [← h.2.2.2.1, top?_eq_getElem?, hdepth, Nat.add_sub_cancel]
  obtain ⟨k, g'', c, hbk, hg'', hc, -⟩ := hsince.lowered hs hb hold htop h.1.2.1
  have hk : k < m.depth := (Array.getElem?_eq_some_iff.1 hg'').1
  obtain rfl : k = b := by omega
  obtain rfl := Option.some.inj (htop.symm.trans hg'')
  rw [hm.unmarked_of_failed h] at hc
  cases hc

/-- **Cut commits.**  In a search, whatever native predicates it calls, a clause that runs in frame `f`, at
    stack index `d`, cuts, and the run goes on from the machine `s` behind the cut to a machine `m` that
    still has the frame.  Then

    * no frame that was there at the cut tries another clause;
    * the alternatives that the clause has pending were recorded since the cut;
    * when the search goes back to a call that is not newer than the cut, all frames above it are popped,
      what they had bound is unbound, and it is the call of `f`, or that of the lowest frame that was
      cut since;
    * when the search is over, the cut was one of the query, or the query was cut since. -/
theorem cut_commits {m₀ s m m' : Machine} {w₀ : World} {f : FrameId} {d : Nat}
    (hsearch : Search kb c m₀) (hw₀ : Equipped kb w₀) (hcut : Cuts m₀ f d)
    (hs : s = (m₀.step w₀).2) (hrun : Continues kb s m) (hf : m.stack[d]? = some f)
    (hnext : Advances kb m m') (herror : m'.error = none) :
    (∀ g ∈ s.stack, ∀ w, Equipped kb w → ¬ Retries w m g) ∧
      (∀ a ∈ (m.frame f).alternatives, Since kb s m (Records · f a)) ∧
      (∀ g, Failed m' g → s.frames.size ≤ g ∨ ∃ b, b ≤ d ∧ m'.depth = b + 1 ∧ Undone (b + 1) m m' ∧
        (b = d ∧ g = f ∨ b < d ∧ Since kb s m' (Cuts · g b)) ∧
        ∀ b' g', b' < b → ¬ Since kb s m' (Cuts · g' b')) ∧
      (m'.exhausted = true → m.exhausted = false → m'.depth = 1 ∧ Undone 1 m m' ∧
        (d = 0 ∨ Since kb s m' (Cuts · queryFrame 0))) := by
  have hsearchs : Search kb c s := hs ▸ hsearch.step hw₀
  have hsearchm := hrun.search hsearchs
  have hsearchm' := (hrun.advances hnext).search hsearchs
  -- Without an error now there was none before.
  have herrorm := hnext.error_none herror
  have herrors : s.error = none := hrun.error_eq_none herrorm
  -- The cut puts the frames under guard.
  obtain ⟨i, g₀, hp, ht, hsevered⟩ := hcut.step_eq hsearch (hs ▸ herrors)
  rw [← hs] at hsevered
  have hstart : Guards s f d (Barred kb s d s) (Newer kb s f s) s.depth s := by
    rw [hsevered]
    exact hcut.guards hp ht (.inl rfl)
  have hmems : s.Memory := by
    rw [hsevered]
    exact (hp.counted.memory.changeFrame (by intro; rfl) (by intro; rfl)).changeFrame
      (f := m₀.current) (by intro; rfl) (by intro; rfl)
  have hbottom : s.stack[0]? = some queryFrame := by
    rw [hsevered]
    exact hp.bottom
  have hold : ∀ g ∈ s.stack, g < s.frames.size := fun g hg => hmems.stackBounded g (by simpa using hg)
  rcases hrun.guards hstart (hmems.lt_of_getElem? hstart.at_place) hsearchs herrorm hf with
    ⟨hover, hnewer⟩ | ⟨n, hguards⟩
  · -- The search is over, and nothing happens any more.
    have hidle : m' = m := by
      rcases hnext.effects hsearchm herror with hidle | ⟨_, _, _, _, _, _, _, _, hmore, _⟩
      · exact hidle
      · rw [hover] at hmore
        cases hmore
    refine ⟨fun g _ w hw hretries => ?_, hnewer, fun g hfailed => ?_, fun _ hmore => ?_⟩
    · rw [(hretries.top hsearchm hw).1] at hover
      cases hover
    · rw [← hidle, hfailed.1.2.2.2] at hover
      cases hover
    · rw [hover] at hmore
      cases hmore
  refine ⟨fun g hg w hw => hguards.not_retries hsearchm hw (hold g hg), hguards.alternatives,
    fun g hfailed => ?_, fun hover hmore => ?_⟩
  · by_cases hnew : s.frames.size ≤ g
    · exact .inl hnew
    have hlt : g < s.frames.size := Nat.lt_of_not_le hnew
    obtain ⟨hundone, hguarded⟩ : Undone m'.depth m m' ∧
        Guarded s f d (Barred kb s d m') (Newer kb s f m') m' := by
      rcases hguards.advances hrun hsearchm hnext herror with rfl | ⟨hundone, hguarded⟩
      · exact ⟨.refl m', .guards hguards hfailed.1.2.2.2⟩
      · refine ⟨hundone.resolve_right fun hfree => ?_, hguarded⟩
        rw [hfailed.2.2.1] at hfree
        cases hfree.1
    obtain ⟨b, hbd, hdepth, hwhere⟩ := hguarded.of_failed hsearchm' hfailed hlt
    exact .inr ⟨b, hbd, hdepth, hdepth ▸ hundone, hwhere, fun b' g' hb' =>
      hfailed.not_since hsearchs hsearchm' hdepth hlt hb'⟩
  · rcases hguards.advances hrun hsearchm hnext herror with rfl | ⟨hundone, hguarded⟩
    · rw [hover] at hmore
      cases hmore
    cases hguarded with
    | guards _ hmore' => rw [hmore'] at hover; cases hover
    | barred _ _ _ _ hmore' => rw [hmore'] at hover; cases hover
    | popped _ _ hmore' => rw [hmore'] at hover; cases hover
    | exhausted _ hdepth hb =>
      have hundone₁ : Undone m'.depth m m' := hundone.resolve_right fun hfree => by
        rw [hfree.2] at hover
        cases hover
      refine ⟨hdepth, hdepth ▸ hundone₁, ?_⟩
      rcases hb with rfl | ⟨-, g, hg, hsince⟩
      · exact .inl rfl
      · rw [hbottom] at hg
        obtain rfl := Option.some.inj hg
        exact .inr hsince

/-- With `q(a)`, `q(b)`, `p :- q(X), !, q(c)` and `p`, the question `p` cuts while the frame of `q(X)` is on
    top; when `q(c)` has failed, that frame is popped, `X` is unbound and `p` returns as failed. -/
theorem cut_commits_first : ∃ (kb : KnowledgeBase) (m₀ s m m' : Machine) (w : World),
    Search kb 0 m₀ ∧ Cuts m₀ 1 1 ∧ s = (m₀.step w).2 ∧ Continues kb s m ∧
      m.stack = #[0, 1, 2] ∧ Advances kb m m' ∧ m'.error = none ∧
      (m.heap.isBound 0 = true ∧ m'.heap.isBound 0 = false ∧ m'.target = some 1 ∧ m'.success = false) ∧
      (∀ g ∈ s.stack, ∀ w, Equipped kb w → ¬ Retries w m g) ∧
      (∀ a ∈ (m.frame 1).alternatives, Since kb s m (Records · 1 a)) ∧
      (∀ g, Failed m' g → s.frames.size ≤ g ∨ ∃ b, b ≤ 1 ∧ m'.depth = b + 1 ∧ Undone (b + 1) m m' ∧
        (b = 1 ∧ g = 1 ∨ b < 1 ∧ Since kb s m' (Cuts · g b)) ∧
        ∀ b' g', b' < b → ¬ Since kb s m' (Cuts · g' b')) ∧
      (m'.exhausted = true → m.exhausted = false → m'.depth = 1 ∧ Undone 1 m m' ∧
        (1 = 0 ∨ Since kb s m' (Cuts · queryFrame 0))) := by
  -- The four clauses and the question, and what they are compiled from.
  let q₁ : Clause := ⟨⟨"q", 1⟩, [("head", [
    { op := .getStruct, functor := "q", arity := 1, register := "$x0" },
    { op := .getTerm, constant := some ⟨.atom "a", .code 0 0⟩ }, { op := .proceed }])], false, []⟩
  let q₂ : Clause := ⟨⟨"q", 1⟩, [("head", [
    { op := .getStruct, functor := "q", arity := 1, register := "$x0" },
    { op := .getTerm, constant := some ⟨.atom "b", .code 0 1⟩ }, { op := .proceed }])], false, []⟩
  let p₁ : Clause := ⟨⟨"p", 0⟩, [("head", [
    { op := .getStruct, functor := "p", arity := 0, register := "$x0" }, { op := .jump, label := "g0" }]),
    ("g0", [
      { op := .allocate }, { op := .putStruct, functor := "q", arity := 1, register := "$x0" },
      { op := .putVar, name := "X" }, { op := .setup }, { op := .call }, { op := .maybeRetry },
      { op := .deallocate }, { op := .maybeFail }, { op := .cut },
      { op := .allocate }, { op := .putStruct, functor := "q", arity := 1, register := "$x0" },
      { op := .putTerm, constant := some ⟨.atom "c", .code 0 2⟩ }, { op := .setup }, { op := .call },
      { op := .maybeRetry }, { op := .deallocate }, { op := .proceed }])], false, []⟩
  let p₂ : Clause := ⟨⟨"p", 0⟩, [("head", [
    { op := .getStruct, functor := "p", arity := 0, register := "$x0" }, { op := .proceed }])], false, []⟩
  let q : Clause := ⟨querySignature, [("g0", [
    { op := .allocate }, { op := .putStruct, functor := "p", arity := 0, register := "$x0" },
    { op := .setup }, { op := .call }, { op := .maybeRetry }, { op := .deallocate },
    { op := .end_ }])], false, []⟩
  have hq₁ : CompiledFrom (fun _ => True) q₁ :=
    ⟨{}, .app "q" [.const (.atom "a") 2] .none 0, .inl ⟨{}, "q(a).", 0, rfl⟩, trivial, by cbv⟩
  have hq₂ : CompiledFrom (fun _ => True) q₂ :=
    ⟨{ constants := 1 }, .app "q" [.const (.atom "b") 2] .none 0, .inl ⟨{}, "q(b).", 0, rfl⟩, trivial,
      by cbv⟩
  have hp₁ : CompiledFrom (fun _ => True) p₁ :=
    ⟨{ constants := 2 }, .app "rule" [.const (.atom "p") 0, .app "conj" [.app "q" [.var "X" 0] .none 5,
        .app "conj" [.const (.atom "!") 11, .app "q" [.const (.atom "c") 16] .none 14] .none 12] .none 9]
        .none 2,
      .inl ⟨{}, "p :- q(X), !, q(c).", 0, rfl⟩, trivial, by cbv⟩
  have hp₂ : CompiledFrom (fun _ => True) p₂ :=
    ⟨{ constants := 3 }, .const (.atom "p") 0, .inl ⟨{}, "p.", 0, rfl⟩, trivial, by cbv⟩
  have hq : Question (fun _ => True) q :=
    ⟨{ constants := 3 }, .const (.atom "p") 0, .inl ⟨{}, "p.", 0, rfl⟩, trivial, by cbv⟩
  let kb₀ : KnowledgeBase := ((((({} : KnowledgeBase).insertUser q₁.signature (some q₁)).base.insertUser
    q₂.signature (some q₂)).base.insertUser p₁.signature (some p₁)).base.insertUser
    p₂.signature (some p₂)).base
  let x := (({} : Machine).ask kb₀ (some q)).2
  let w : World := { base := x.1, natives := Registry.core }
  have hw : Equipped x.1 w := ⟨rfl, Registry.sober_core⟩
  -- The machine takes steps up to the cut, and from there to the failure of `q(c)`.
  let m₀ := (x.2.trace w 17).2
  let s := (m₀.step w).2
  let m := (s.trace w 13).2
  have hstart : Search x.1 0 x.2 :=
    .ask (.new {}) (.user (.user (.user (.user .empty hq₁) hq₂) hp₁) hp₂) hq rfl
  have hsearch : Search x.1 0 m₀ := hstart.trace hw 17
  -- The next instruction is the cut, and then the machine runs on.
  have hcut : Cuts m₀ 1 1 := by
    obtain ⟨i, hi, hop⟩ := exists_fetch m₀ .cut (by decide +kernel)
    exact ⟨active_of_isNone (by decide +kernel), ⟨i, hi, hop⟩, by decide +kernel, by decide +kernel⟩
  have hrun : Continues x.1 s m := Continues.refl.trace hw 13
  have hf : m.stack[1]? = some 1 := by decide +kernel
  have hnext : Advances x.1 m (m.step w).2 := .step hw
  have herror : (m.step w).2.error = none := Option.isNone_iff_eq_none.1 (by decide +kernel)
  exact ⟨x.1, m₀, s, m, (m.step w).2, w, hsearch, hcut, rfl, hrun, by decide +kernel, hnext, herror,
    by decide +kernel, cut_commits hsearch hw hcut rfl hrun hf hnext herror⟩

end Machine

end PrologMachine
