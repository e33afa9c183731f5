/-
  PrologMachine.Proofs.Machine.Discipline ── **THE SHAPE OF A RUN.**

  Between two instructions of compiled code the stack has a fixed shape: at the bottom the frame of
  the query, above it the frames of calls, each of which returns to a point behind a call in the
  clause that a lower frame runs.  Only the top frame may be under construction.

    * `Machine.Pending` describes one call, `Machine.Control` the whole stack.
    * `Machine.Quiet` is a change that leaves the stack alone, `Machine.Tame` one that also keeps the
      memory in shape; both compose.
    * `Machine.Fits` says what a phase of the code promises about the machine.
-/
import PrologMachine.Proofs.Machine.Memory
import PrologMachine.Proofs.Stock

namespace PrologMachine

/-- The clause has a block of its body with the label. -/
def Clause.HasBody (c : Clause) (label : String) : Prop :=
  label ≠ headLabel ∧ label ∈ c.code.map Prod.fst

namespace Machine

variable {admits : Signature → Bool} {kb : KnowledgeBase} {q : Clause} {m m' m'' : Machine}
  {n k : Nat} {f : FrameId} {s : StructId} {t : Value} {name : String} {g : Signature}
  {r : ReturnPoint} {c : Clause} {h' : Heap} {vs : List VarId}

/-! ## §1. Calls. -/

/-- The goal in the register of a frame. -/
def goal? (m : Machine) (f : FrameId) : Option Signature :=
  match (m.frame f).get? "$x0" with
  | some (.struct s) => some ⟨(m.heap.structCell s).name, (m.heap.structCell s).args.length⟩
  | _ => none

/-- The frame runs the clause: the query, or the clause of its goal that is being tried. -/
inductive Runs (kb : KnowledgeBase) (q : Clause) (m : Machine) : FrameId → Clause → Prop where
  /-- The bottom frame. -/
  | query : Runs kb q m queryFrame q
  /-- The frame of a call. -/
  | call {f : FrameId} {c : Clause} {g : Signature} {cs : List Clause} (hf : f ≠ queryFrame)
    (hg : m.goal? f = some g) (hq : g ≠ querySignature) (hcs : kb.get g = .ok cs)
    (hc : cs[(m.frame f).clause]? = some c) (hn : c.native = false) : Runs kb q m f c

/-- The frame at stack index `k` holds a call of `g` that returns to `r`. -/
structure Pending (admits : Signature → Bool) (kb : KnowledgeBase) (q : Clause) (m : Machine)
    (k : Nat) (f : FrameId) (g : Signature) (r : ReturnPoint) : Prop where
  /-- It knows its place. -/
  place : (m.frame f).position = k
  /-- It is set up. -/
  returns : (m.frame f).returnPoint = some r
  /-- Its goal is complete. -/
  goal : m.goal? f = some g
  /-- The caller is below. -/
  caller : ∃ j, j < k ∧ m.stack[j]? = some r.frame
  /-- The call returns behind a call of the clause that the caller runs, and the alternatives saved
      with it are alternatives of that clause. -/
  code : ∃ c, r.code = some c ∧ Runs kb q m r.frame c ∧ c.At admits r.label r.index (.returned g) ∧
    ∀ a ∈ r.alternatives, c.HasBody a.label
  /-- It tries clauses that exist. -/
  clause : ∀ cs, kb.get g = .ok cs →
    (m.frame f).clause < cs.length ∧ (m.frame f).clauses ≤ cs.length
  /-- Without clauses it tries none. -/
  unknown : ∀ e, kb.get g = .error e → (m.frame f).clauses ≤ 1

/-- The first `n` frames of the stack are the query and calls. -/
structure Calls (admits : Signature → Bool) (kb : KnowledgeBase) (q : Clause) (m : Machine)
    (n : Nat) : Prop where
  /-- The query is at the bottom. -/
  bottom : m.stack[0]? = some queryFrame
  /-- There are that many frames. -/
  size : n ≤ m.depth
  /-- It knows its place. -/
  origin : (m.frame queryFrame).position = 0
  /-- The frames of calls. -/
  settled : ∀ k f, 0 < k → k < n → m.stack[k]? = some f →
    ∃ g r, Pending admits kb q m k f g r ∧ g ≠ querySignature
  /-- Alternatives are blocks of the clause that the frame runs. -/
  alternatives : ∀ k f, k < n → m.stack[k]? = some f → ∀ c, Runs kb q m f c →
    ∀ a ∈ (m.frame f).alternatives, c.HasBody a.label

/-- The stack with its first `n` frames called, one of which runs its clause. -/
structure Control (admits : Signature → Bool) (kb : KnowledgeBase) (q : Clause) (m : Machine)
    (n : Nat) : Prop extends Calls admits kb q m n where
  /-- The clause being run has a frame among them. -/
  current : ∃ j, j < n ∧ m.stack[j]? = some m.current
  /-- The code being run is that clause. -/
  code : ∃ c, m.code = some c ∧ Runs kb q m m.current c

/-- A frame runs one clause. -/
theorem Runs.unique {c' : Clause} (h : Runs kb q m f c) (h' : Runs kb q m f c') : c = c' := by
  cases h with
  | query =>
    cases h' with
    | query => rfl
    | call hf => exact (hf rfl).elim
  | call hf hg _ hcs hc _ =>
    cases h' with
    | query => exact (hf rfl).elim
    | call _ hg' _ hcs' hc' _ =>
      obtain rfl := Option.some.inj (hg.symm.trans hg')
      obtain rfl := Except.ok.inj (hcs.symm.trans hcs')
      exact Option.some.inj (hc.symm.trans hc')

/-- Whatever runs is sound. -/
theorem Runs.sound (hkb : kb.Sound admits) (hq : q.Sound admits) (h : Runs kb q m f c) :
    c.Sound admits := by
  cases h with
  | query => exact hq
  | call hf hg hg' hcs hc hn =>
    rcases hkb.callable hg' hcs c (List.mem_of_getElem? hc) with ⟨hn', -⟩ | hc'
    · simp [hn] at hn'
    · exact hc'.sound

/-! ## §2. Changes that leave calls alone. -/

/-- The first `n` frames of the stack hold the same calls in both machines. -/
structure Alike (n : Nat) (m m' : Machine) : Prop where
  /-- The same frames. -/
  stack : ∀ k, k < n → m'.stack[k]? = m.stack[k]?
  /-- The same goals. -/
  goal : ∀ k f, k < n → m.stack[k]? = some f → m'.goal? f = m.goal? f
  /-- The same clauses. -/
  clause : ∀ k f, k < n → m.stack[k]? = some f → (m'.frame f).clause = (m.frame f).clause
  /-- As many clauses. -/
  clauses : ∀ k f, k < n → m.stack[k]? = some f → (m'.frame f).clauses = (m.frame f).clauses
  /-- The same points of return. -/
  returnPoint : ∀ k f, k < n → m.stack[k]? = some f →
    (m'.frame f).returnPoint = (m.frame f).returnPoint
  /-- The same places. -/
  position : ∀ k f, k < n → m.stack[k]? = some f →
    (m'.frame f).position = (m.frame f).position

/-- Frames that are alike run the same clause. -/
theorem Alike.runs (h : Alike n m m') (hk : k < n) (hf : m.stack[k]? = some f)
    (hr : Runs kb q m f c) : Runs kb q m' f c := by
  cases hr with
  | query => exact .query
  | call hne hg hq hcs hc hn =>
    exact .call hne (by rw [h.goal k f hk hf, hg]) hq hcs (by rw [h.clause k f hk hf, hc]) hn

theorem Alike.runs_iff (h : Alike n m m') (hk : k < n) (hf : m.stack[k]? = some f) :
    Runs kb q m' f c ↔ Runs kb q m f c := by
  refine ⟨fun hr => ?_, h.runs hk hf⟩
  cases hr with
  | query => exact .query
  | call hne hg hq hcs hc hn =>
    exact .call hne (by rw [← h.goal k f hk hf, hg]) hq hcs (by rw [← h.clause k f hk hf, hc]) hn

/-- A pending call stays pending. -/
theorem Alike.pending (h : Alike n m m') (hk : k < n) (hf : m.stack[k]? = some f)
    (hp : Pending admits kb q m k f g r) : Pending admits kb q m' k f g r := by
  obtain ⟨j, hj, hcaller⟩ := hp.caller
  obtain ⟨c, hc, hruns, hrest⟩ := hp.code
  exact
    { place := by rw [h.position k f hk hf, hp.place]
      returns := by rw [h.returnPoint k f hk hf, hp.returns]
      goal := by rw [h.goal k f hk hf, hp.goal]
      caller := ⟨j, hj, by rw [h.stack j (by omega), hcaller]⟩
      code := ⟨c, hc, h.runs (by omega) hcaller hruns, hrest⟩
      clause := by rw [h.clause k f hk hf, h.clauses k f hk hf]; exact hp.clause
      unknown := by rw [h.clauses k f hk hf]; exact hp.unknown }

/-- **Where the calls are the same, only new alternatives have to be looked at.** -/
theorem Alike.calls (h : Alike n m m') (hc : Calls admits kb q m n) (h0 : 0 < n)
    (hsize : n ≤ m'.depth)
    (halternatives : ∀ k f, k < n → m.stack[k]? = some f → ∀ c, Runs kb q m f c →
      ∀ a ∈ (m'.frame f).alternatives, a ∈ (m.frame f).alternatives ∨ c.HasBody a.label) :
    Calls admits kb q m' n where
  bottom := by rw [h.stack 0 h0]; exact hc.bottom
  origin := by rw [h.position 0 queryFrame h0 hc.bottom]; exact hc.origin
  size := hsize
  settled k f hpos hk hf := by
    rw [h.stack k hk] at hf
    obtain ⟨g, r, hp, hq⟩ := hc.settled k f hpos hk hf
    exact ⟨g, r, h.pending hk hf hp, hq⟩
  alternatives k f hk hf c hruns a ha := by
    rw [h.stack k hk] at hf
    have hruns' := (h.runs_iff hk hf).1 hruns
    rcases halternatives k f hk hf c hruns' a ha with ha | ha
    · exact hc.alternatives k f hk hf c hruns' a ha
    · exact ha

protected theorem Alike.trans (h : Alike n m m') (h' : Alike n m' m'') : Alike n m m'' where
  stack k hk := (h'.stack k hk).trans (h.stack k hk)
  goal k f hk hf := (h'.goal k f hk (by rw [h.stack k hk, hf])).trans (h.goal k f hk hf)
  clause k f hk hf := (h'.clause k f hk (by rw [h.stack k hk, hf])).trans (h.clause k f hk hf)
  clauses k f hk hf := (h'.clauses k f hk (by rw [h.stack k hk, hf])).trans (h.clauses k f hk hf)
  returnPoint k f hk hf :=
    (h'.returnPoint k f hk (by rw [h.stack k hk, hf])).trans (h.returnPoint k f hk hf)
  position k f hk hf :=
    (h'.position k f hk (by rw [h.stack k hk, hf])).trans (h.position k f hk hf)

/-- The calls below a depth are among those below a greater one. -/
theorem Calls.mono {n' : Nat} (hc : Calls admits kb q m n) (hn : n' ≤ n) :
    Calls admits kb q m n' where
  bottom := hc.bottom
  origin := hc.origin
  size := Nat.le_trans hn hc.size
  settled k f h0 hk := hc.settled k f h0 (by omega)
  alternatives k f hk := hc.alternatives k f (by omega)

/-- The fields of a machine that have to do with control. -/
structure View where
  /-- The stack. -/
  stack : Array FrameId
  /-- The code. -/
  code : Option Clause
  /-- The block. -/
  label : String
  /-- The frame of the clause. -/
  current : FrameId
  /-- The frame of the call. -/
  target : Option FrameId
  /-- The search stopped. -/
  ended : Bool
  /-- It is over. -/
  exhausted : Bool
  /-- The error. -/
  error : Option Error
  /-- A question was set. -/
  asked : Bool

/-- Where the machine stands. -/
def view (m : Machine) : View :=
  ⟨m.stack, m.code, m.label, m.current, m.target, m.ended, m.exhausted, m.error, m.asked⟩

/-- Only variables and the top trail change, and no goal of the first `n` frames does. -/
structure Quiet (n : Nat) (m m' : Machine) : Prop where
  /-- Control stays where it is. -/
  view : m'.view = m.view
  /-- No frame is made. -/
  size : m'.frames.size = m.frames.size
  /-- Frames change in their variables and trails only. -/
  frames : ∀ f, m'.frame f =
    { m.frame f with vars := (m'.frame f).vars, trail := (m'.frame f).trail }
  /-- Trails below the top stay. -/
  trails : ∀ f, m.top? ≠ some f → (m'.frame f).trail = (m.frame f).trail
  /-- Nothing is taken off a trail. -/
  grows : ∀ f, (m.frame f).trail <:+ (m'.frame f).trail
  /-- Variables do not get lost. -/
  vars : ∀ f x, ((m.frame f).get? x).isSome → ((m'.frame f).get? x).isSome
  /-- Goal registers stay. -/
  register : ∀ k f, k < n → m.stack[k]? = some f →
    (m'.frame f).get? "$x0" = (m.frame f).get? "$x0"
  /-- Goals stay. -/
  goal : ∀ k f, k < n → m.stack[k]? = some f → m'.goal? f = m.goal? f
  /-- Variables are bound on the top trail only. -/
  under : ∀ d v, d < m.depth → m'.bindingUnder d v = m.bindingUnder d v

namespace Quiet

theorem stack (h : Quiet n m m') : m'.stack = m.stack := congrArg View.stack h.view

theorem code (h : Quiet n m m') : m'.code = m.code := congrArg View.code h.view

/-- The current frame stays. -/
theorem current (h : Quiet n m m') : m'.current = m.current := congrArg View.current h.view

theorem target (h : Quiet n m m') : m'.target = m.target := congrArg View.target h.view

/-- The frame on top stays. -/
theorem top? (h : Quiet n m m') : m'.top? = m.top? := congrArg Array.back? h.stack

theorem depth (h : Quiet n m m') : m'.depth = m.depth := congrArg Array.size h.stack

protected theorem refl (n : Nat) (m : Machine) : Quiet n m m :=
  ⟨rfl, rfl, fun _ => rfl, fun _ _ => rfl, fun _ => List.suffix_rfl, fun _ _ h => h,
    fun _ _ _ _ => rfl, fun _ _ _ _ => rfl, fun _ _ _ => rfl⟩

protected theorem trans (h : Quiet n m m') (h' : Quiet n m' m'') : Quiet n m m'' where
  view := h'.view.trans h.view
  size := h'.size.trans h.size
  frames f := by rw [h'.frames f, h.frames f]
  trails f hf := (h'.trails f (by rw [h.top?]; exact hf)).trans (h.trails f hf)
  grows f := (h.grows f).trans (h'.grows f)
  vars f x hx := h'.vars f x (h.vars f x hx)
  register k f hk hf := (h'.register k f hk (by rw [h.stack]; exact hf)).trans
    (h.register k f hk hf)
  goal k f hk hf := (h'.goal k f hk (by rw [h.stack]; exact hf)).trans (h.goal k f hk hf)
  under d v hd := (h'.under d v (by rw [h.depth]; exact hd)).trans (h.under d v hd)

theorem alike (h : Quiet n m m') : Alike n m m' where
  stack k _ := by rw [h.stack]
  goal := h.goal
  clause _ f _ _ := by rw [h.frames f]
  clauses _ f _ _ := by rw [h.frames f]
  returnPoint _ f _ _ := by rw [h.frames f]
  position _ f _ _ := by rw [h.frames f]

theorem calls (h : Quiet n m m') (hc : Calls admits kb q m n) (h0 : 0 < n) :
    Calls admits kb q m' n := by
  refine h.alike.calls hc h0 (by rw [h.depth]; exact hc.size) ?_
  intro k f hk hf c hc' a ha
  rw [h.frames f] at ha
  exact .inl ha

/-- **A quiet change keeps the shape of the stack.** -/
theorem control (h : Quiet n m m') (hc : Control admits kb q m n) : Control admits kb q m' n := by
  obtain ⟨c, hcode, hruns⟩ := hc.code
  obtain ⟨j, hj, hcur⟩ := hc.current
  refine { h.calls hc.toCalls (by omega) with current := ⟨j, hj, ?_⟩, code := ⟨c, h.code.trans hcode, ?_⟩ }
  · rw [h.stack, h.current, hcur]
  · rw [h.current]
    exact h.alike.runs hj hcur hruns

end Quiet

/-- All goals of the first `n` frames are structures older than `s`. -/
def Sealed (m : Machine) (n : Nat) (s : StructId) : Prop :=
  ∀ k f s', k < n → m.stack[k]? = some f → (m.frame f).get? "$x0" = some (.struct s') → s' < s

/-- A structure under construction stays so. -/
theorem Sealed.quiet (hs : Sealed m n s) (h : Quiet n m m') : Sealed m' n s := by
  intro k f s' hk hf hx
  rw [h.stack] at hf
  rw [h.register k f hk hf] at hx
  exact hs k f s' hk hf hx

/-- Goals are complete structures of the heap. -/
theorem Memory.sealed (hm : m.Memory) (n : Nat) : Sealed m n m.heap.structs.size :=
  fun _ _ _ _ _ hx => hm.holds_get hx

/-! ## §3. Tame changes. -/

/-- A quiet change that keeps the memory in shape. -/
structure Tame (n : Nat) (m m' : Machine) : Prop where
  /-- It is quiet. -/
  quiet : Quiet n m m'
  /-- The memory is in shape. -/
  memory : m'.Memory

/-- Where stack, trails and bindings are the same, so are the bindings under each frame. -/
theorem bindingUnder_congr {d : Nat} {v : VarId} (hstack : m'.stack = m.stack)
    (htrails : ∀ f, (m'.frame f).trail = (m.frame f).trail)
    (hbinding : m'.heap.binding? v = m.heap.binding? v) : m'.bindingUnder d v = m.bindingUnder d v := by
  unfold bindingUnder
  rw [hstack, trailsOf_congr fun f _ => htrails f, hbinding]

namespace Tame

protected theorem trans (h : Tame n m m') (h' : Tame n m' m'') : Tame n m m'' :=
  ⟨h.quiet.trans h'.quiet, h'.memory⟩

/-- Fields that have nothing to do with control or memory. -/
theorem fields (hm : m.Memory) (n : Nat)
    (h : m'.view = m.view ∧ m'.frames = m.frames ∧ m'.heap = m.heap) :
    Tame n m m' := by
  obtain ⟨hview, hframes, hheap⟩ := h
  have hframe : ∀ f, m'.frame f = m.frame f := fun f => by simp [frame, hframes]
  have hstack : m'.stack = m.stack := congrArg View.stack hview
  refine ⟨⟨hview, by rw [hframes], fun f => by simp [hframe], fun f _ => by rw [hframe],
    fun f => by rw [hframe], fun f x h => by rwa [hframe], fun _ f _ _ => by rw [hframe],
    fun _ f _ _ => by simp [goal?, hframe, hheap], fun _ _ _ =>
    bindingUnder_congr hstack (fun f => by rw [hframe]) (by rw [hheap])⟩, ?_⟩
  exact hm.of_eq hheap hstack (by rw [hframes]) fun f => by simp [hframe]

/-- A heap in which the goals of the first `n` frames have not changed. -/
theorem heap (hm : { m with heap := h' }.Memory)
    (hbinding : ∀ v, h'.binding? v = m.heap.binding? v)
    (hcells : ∀ k f s, k < n → m.stack[k]? = some f → (m.frame f).get? "$x0" = some (.struct s) →
      h'.structCell s = m.heap.structCell s) : Tame n m { m with heap := h' } := by
  refine ⟨⟨rfl, rfl, fun _ => rfl, fun _ _ => rfl, fun _ => List.suffix_rfl, fun _ _ h => h,
    fun _ _ _ _ => rfl, fun k f hk hf => ?_, fun _ v _ =>
    bindingUnder_congr rfl (fun _ => rfl) (hbinding v)⟩, hm⟩
  have hframe : ({ m with heap := h' } : Machine).frame f = m.frame f := rfl
  cases hx : (m.frame f).get? "$x0" with
  | none => simp [goal?, hframe, hx]
  | some t =>
    cases t with
    | struct s => simp [goal?, hframe, hx, hcells k f s hk hf hx]
    | var v => simp [goal?, hframe, hx]
    | const c => simp [goal?, hframe, hx]
    | absent => simp [goal?, hframe, hx]

/-- Making a variable is tame. -/
theorem fresh (hm : m.Memory) (name : String) (n : Nat) :
    Tame n m { m with heap := (m.heap.fresh name).2 } :=
  heap (hm.fresh name) (by simp) fun _ _ _ _ _ _ => rfl

theorem newConst (hm : m.Memory) (a : Atomic) (n : Nat) :
    Tame n m { m with heap := (m.heap.newConst a).2 } :=
  heap (hm.newConst a) (by simp) fun _ _ _ _ _ _ => rfl

theorem newStruct (hm : m.Memory) (name : String) (n : Nat) :
    Tame n m { m with heap := (m.heap.newStruct name [] .none).2 } :=
  heap (hm.newStruct name) (by simp) fun _ _ s _ _ hx => by
    have hlt : s < m.heap.structs.size := hm.holds_get hx
    rw [Heap.structCell_newStruct, if_neg (Nat.ne_of_lt hlt)]

/-- An argument of a structure that is newer than all goals. -/
theorem pushArg (hm : m.Memory) (hs : Sealed m n s) (ht : m.heap.Holds t) :
    Tame n m { m with heap := m.heap.pushArg s t } :=
  heap (hm.pushArg ht s) (by simp) fun k f _ hk hf hx =>
    Heap.structCell_pushArg_of_ne (Nat.ne_of_lt (hs k f _ hk hf hx))

/-- A variable that is not the goal register of one of the first `n` frames. -/
theorem put (hm : m.Memory) (ht : m.heap.Holds t)
    (hx : name ≠ "$x0" ∨ ∀ k, k < n → m.stack[k]? ≠ some f) :
    Tame n m (m.changeFrame f (·.put name t)) := by
  -- Either another name is set, or the frame is none of those below; so their goals stay.
  have hreg : ∀ k f', k < n → m.stack[k]? = some f' →
      ((m.changeFrame f (·.put name t)).frame f').get? "$x0" = (m.frame f').get? "$x0" := by
    intro k f' hk hf'
    rcases hx with hx | hx
    · exact frame_changeFrame_field (Frame.get? · "$x0") fun _ => Frame.get?_put_of_ne hx.symm
    · have hne : f' ≠ f := by rintro rfl; exact hx k hk hf'
      rw [frame_changeFrame_of_ne hne]
  -- Only the variables of one frame change, and no trail does.
  refine ⟨⟨rfl, frames_size_changeFrame, fun f' => ?_, fun f' _ =>
    frame_changeFrame_field Frame.trail (by intro; simp), fun f' => ?_, fun f' x h => ?_, hreg,
    fun k f' hk hf' => ?_, fun _ _ _ => bindingUnder_congr rfl (fun f' =>
      frame_changeFrame_field Frame.trail (by intro; simp)) rfl⟩, hm.put ht⟩
  · by_cases hne : f' = f
    · subst hne
      by_cases hlt : f' < m.frames.size
      · rw [frame_changeFrame_self hlt]
        unfold Frame.put
        split <;> rfl
      · simp [frame, Machine.changeFrame, hlt]
    · rw [frame_changeFrame_of_ne hne]
  · rw [frame_changeFrame_field Frame.trail (by intro; simp)]
  · by_cases hne : f' = f
    · subst hne
      by_cases hlt : f' < m.frames.size
      · rw [frame_changeFrame_self hlt, Frame.get?_put]
        split
        · rfl
        · exact h
      · simp [frame, Frame.get?, hlt] at h
    · rwa [frame_changeFrame_of_ne hne]
  · unfold goal?
    rw [hreg k f' hk hf']
    rfl

/-- New cells, and bindings recorded on the top trail. -/
theorem record (hm : m.Memory) (ht : m.top? = some f) (hgood : h'.Good)
    (hb : m.heap.Gains h' vs) (n : Nat) : Tame n m ({ m with heap := h' }.trailAll vs) := by
  have hmem := hm.record ht hgood hb
  have ht' : { m with heap := h' }.top? = some f := ht
  rw [trailAll, ht'] at hmem ⊢
  -- The variables of all frames stay; the trail of the top frame grows.
  have hget : ∀ f' x, (({ m with heap := h' }.changeFrame f
      (fun fr => { fr with trail := vs ++ fr.trail })).frame f').get? x = (m.frame f').get? x :=
    fun f' x =>
      frame_changeFrame_field (m := { m with heap := h' }) (Frame.get? · x) (by intro; rfl)
  refine ⟨⟨rfl, frames_size_changeFrame, fun f' => ?_, fun f' hf' => ?_, fun f' => ?_,
    fun f' x h => by rwa [hget], fun _ f' _ _ => hget f' "$x0", fun _ f' _ _ => ?_,
    fun d v hd => ?_⟩, hmem⟩
  · by_cases hne : f' = f
    · subst hne
      have hlt : f' < ({ m with heap := h' } : Machine).frames.size := hm.lt_of_top? ht
      rw [frame_changeFrame_self hlt]
      rfl
    · rw [frame_changeFrame_of_ne hne]
      rfl
  · have hne : f' ≠ f := by rintro rfl; exact hf' ht
    rw [frame_changeFrame_of_ne hne]
    rfl
  · by_cases hne : f' = f
    · subst hne
      have hlt : f' < ({ m with heap := h' } : Machine).frames.size := hm.lt_of_top? ht
      rw [frame_changeFrame_self hlt]
      exact List.suffix_append vs _
    · rw [frame_changeFrame_of_ne hne]
      exact List.suffix_rfl
  · unfold goal?
    rw [hget]
    cases hx : (m.frame f').get? "$x0" with
    | none => rfl
    | some t =>
      cases t with
      | struct s => simp [Machine.changeFrame, hb.cells s (hm.holds_get hx)]
      | var v => rfl
      | const c => rfl
      | absent => rfl
  · -- The variables newly bound are those newly on the top trail, and they were unbound.
    have htrails : ({ m with heap := h' }.changeFrame f
        (fun fr => { fr with trail := vs ++ fr.trail })).trailsOf (m.stack.toList.drop d) =
        vs ++ m.trailsOf (m.stack.toList.drop d) := by
      refine (trailsOf_drop (m := { m with heap := h' }.changeFrame f _) ht hd).trans ?_
      rw [trailsOf_drop ht hd, frame_changeFrame_self (m := { m with heap := h' }) (hm.lt_of_top? ht),
        ← List.append_assoc]
      refine congrArg _ (trailsOf_congr fun f' hf' => ?_)
      have hne : f' ≠ f := by
        rintro rfl
        exact hm.top_not_below ht (List.mem_of_mem_drop hf')
      rw [frame_changeFrame_of_ne hne]
      rfl
    unfold bindingUnder
    show (if v ∈ Machine.trailsOf _ (m.stack.toList.drop d) then none else h'.binding? v) = _
    rw [htrails]
    by_cases hv : v ∈ vs
    · rw [if_pos (by simp [hv]), hb.before v hv, ite_self]
    · simp only [List.mem_append, hv, false_or, hb.others v hv]

theorem unify (hm : m.Memory) (ht : m.top? = some f) {a b : Value} (ha : m.heap.Holds a)
    (hb : m.heap.Holds b) (n : Nat) : Tame n m (m.unify a b).2 :=
  record hm ht (Heap.good_unify hm.good ha hb) (Heap.unify_binds hm.good ha hb).gains n

/-- Binding a variable is tame. -/
theorem bindVar (hm : m.Memory) (ht : m.top? = some f) {v : VarId}
    (hv : m.heap.binding? v = none) (hlt : v < m.heap.vars.size) (hheld : m.heap.Holds t)
    (hne : t ≠ .var v) (hend : m.heap.deref t = t) (n : Nat) : Tame n m (m.bindVar v t) := by
  rw [bindVar_eq ht]
  exact record hm ht (hm.good.set hv hlt hheld hne hend) (Heap.Binds.set hv hlt t).gains n

/-- The value of a variable of the running clause. -/
theorem valueOf (hm : m.Memory) (hx : name ≠ "$x0") (n : Nat) : Tame n m (m.valueOf name).2 := by
  unfold Machine.valueOf
  split
  · exact ⟨.refl n m, hm⟩
  · exact (fresh hm name n).trans (put (hm.fresh name) (by simp) (.inl hx))

end Tame

/-! ## §4. What a phase promises. -/

/-- The structure being decoded: one that is written is the newest, and one that is read has as many
    arguments left as the code expects. -/
def Decodes (m : Machine) (last : String) (left : Nat) : Prop :=
  (m.decoding = none ∧ left = 0) ∨
    (m.register = last ∧ ∃ s, m.decoding = some s ∧
      match m.mode with
      | .write => s + 1 = m.heap.structs.size ∧ Sealed m m.depth s
      | .read => m.argument + left = (m.heap.structCell s).args.length)

/-- The structure begun last in frame `f`: it is the newest and waits for `left` arguments. -/
def Builds (m : Machine) (f : FrameId) (begun : Option (String × Signature)) (left : Nat) : Prop :=
  match begun with
  | none => left = 0
  | some (x, g) => ∃ s, (m.frame f).get? x = some (.struct s) ∧ m.building = some s ∧
      s + 1 = m.heap.structs.size ∧ Sealed m (m.depth - 1) s ∧
      (m.heap.structCell s).name = g.name ∧
      ((m.heap.structCell s).args.length : Int) + left = g.arity

/-- The frame on top is as it was pushed, up to its variables and its trail. -/
def Untried (m : Machine) (f : FrameId) : Prop :=
  m.frame f = { position := m.depth - 1, vars := (m.frame f).vars, trail := (m.frame f).trail }

/-- The point of return is behind the call instruction `i` of the code being run. -/
def ReturnsBehind (m : Machine) (i : Nat) (r : ReturnPoint) : Prop :=
  r.code = m.code ∧ r.label = m.label ∧ r.index = i + 1 ∧ r.frame = m.current

/-- What the code before instruction `i` promises about the machine. -/
def Fits (admits : Signature → Bool) (kb : KnowledgeBase) (q : Clause) (m : Machine) (i : Nat) :
    Phase → Prop
  | .head pending last left =>
    m.success = true ∧ Control admits kb q m m.depth ∧
      (∀ x ∈ pending, ((m.frame m.current).get? x).isSome) ∧ Decodes m last left
  | .body => m.success = true ∧ Control admits kb q m m.depth
  | .build regs begun left =>
    m.success = true ∧ Control admits kb q m (m.depth - 1) ∧
      ∃ f, m.target = some f ∧ m.top? = some f ∧
        (∀ x ∈ regs, ((m.frame f).get? x).isSome) ∧ Builds m f begun left ∧ Untried m f
  | .ready g =>
    Control admits kb q m (m.depth - 1) ∧
      ∃ f r, m.target = some f ∧ m.top? = some f ∧
        Pending admits kb q m (m.depth - 1) f g r ∧ m.ReturnsBehind i r ∧
        (m.frame f).cutTo = none ∧ (m.frame f).committed = false
  | .returned g =>
    Control admits kb q m m.depth ∧
      ∃ k f r j, 0 < k ∧ m.stack[k]? = some f ∧ m.target = some f ∧
        (m.frame f).returnPoint = some r ∧ m.goal? f = some g ∧ i = j + 1 ∧ m.ReturnsBehind j r ∧
        (m.success = false → m.top? = some f ∧ (m.frame f).cutTo = none)
  | .retried =>
    Control admits kb q m m.depth ∧
      (m.success = true ∨ m.target = none ∨
        ∃ f j, m.target = some f ∧ m.top? = some f ∧ f ≠ queryFrame ∧ j + 1 < m.depth ∧
          m.stack[j]? = some m.current ∧ (m.frame f).cutTo = none)
  | .outcome => Control admits kb q m m.depth ∧ (m.success = true ∨ m.target = none)
  | .operands n =>
    m.success = true ∧ Control admits kb q m m.depth ∧
      ∃ s, (m.frame m.current).get? scratchRegister = some (.struct s) ∧
        s + 1 = m.heap.structs.size ∧ Sealed m m.depth s ∧
        (m.heap.structCell s).args.length = n
  | .failed => False
  | .closed => False

/-! ## §5. Machines between two instructions. -/

/-- A question was asked, and the search for an answer is going on. -/
def Active (m : Machine) : Prop :=
  m.asked = true ∧ m.error = none ∧ m.ended = false ∧ m.exhausted = false

/-- A machine without an error, between two instructions of compiled code. -/
inductive Orderly (admits : Signature → Bool) (kb : KnowledgeBase) (q : Clause) (m : Machine) :
    Prop where
  /-- The next instruction finds what it needs. -/
  | running {c : Clause} {p : Phase} (hactive : m.Active) (hm : m.Memory) (hcode : m.code = some c)
    (hat : c.At admits m.label m.index p) (hfit : Fits admits kb q m m.index p)
  /-- A query was called like a clause; it has no head. -/
  | headless {c : Clause} (hquery : admits querySignature = true) (hactive : m.Active)
    (hgood : m.heap.Good) (hcode : m.code = some c) (hlabel : m.label = headLabel)
    (hhead : headLabel ∉ c.code.map Prod.fst) (hs : m.success = true)
  /-- The query variables hold an answer. -/
  | answered (hasked : m.asked = true) (herror : m.error = none) (hended : m.ended = true)
    (hmore : m.exhausted = false) (hm : m.Memory) (hc : Control admits kb q m m.depth)
    (hs : m.success = true)
  /-- There are no more answers. -/
  | exhausted (hasked : m.asked = true) (herror : m.error = none) (hended : m.ended = true)
    (hmore : m.exhausted = true) (hgood : m.heap.Good)

end Machine

end PrologMachine
