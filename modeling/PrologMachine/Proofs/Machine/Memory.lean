/-
  PrologMachine.Proofs.Machine.Memory ── **CELLS, VARIABLES AND TRAILS.**

  The memory of a machine is its heap, the variables of its frames and the trails of its stack.  In
  every run the heap is in good shape, variables hold what exists, and the trails together name each
  variable once and only bound ones.

    * `Machine.Memory` is the invariant.
    * §3 keeps it through the changes of a running clause, §4 through undoing and popping.
-/
import PrologMachine.Proofs.Heap.Binds
import PrologMachine.Proofs.Machine.Unwinding

namespace PrologMachine

/-! ## §1. Variables of a frame. -/

namespace Frame

variable {fr : Frame} {name x : String} {t : Value}

/-- A replaced variable has its new value. -/
private theorem lookup_replace_self : ∀ {vars : List (String × Value)}, (vars.lookup name).isSome →
    (vars.map (fun e => if e.1 = name then (name, t) else e)).lookup name = some t
  | [], h => by simp at h
  | e :: es, h => by
    by_cases he : e.1 = name
    · simp [he]
    · have hne : (name == e.1) = false := by simpa using Ne.symm he
      simp only [List.lookup, hne] at h
      simp [List.lookup, he, hne, lookup_replace_self h]

/-- The other variables keep theirs. -/
private theorem lookup_replace_of_ne (hx : x ≠ name) : ∀ vars : List (String × Value),
    (vars.map (fun e => if e.1 = name then (name, t) else e)).lookup x = vars.lookup x
  | [] => rfl
  | e :: es => by
    by_cases he : e.1 = name
    · have hne : (x == name) = false := by simpa using hx
      simp [List.lookup, he, hne, lookup_replace_of_ne hx es]
    · simp [List.lookup, he, lookup_replace_of_ne hx es]

/-- Setting a variable sets it and no other. -/
theorem get?_put : (fr.put name t).get? x = if x = name then some t else fr.get? x := by
  unfold put get?
  by_cases hx : x = name
  · subst hx
    by_cases h : (fr.vars.lookup x).isSome
    · simp [h, lookup_replace_self h]
    · simp [h]
  · have hne : (x == name) = false := by simpa using hx
    by_cases h : (fr.vars.lookup name).isSome
    · simp [h, lookup_replace_of_ne hx, hx]
    · simp [h, hx, List.lookup, hne]

@[simp] theorem get?_put_self : (fr.put name t).get? name = some t := by simp [get?_put]

/-- Naming a variable leaves the others as they are. -/
theorem get?_put_of_ne (hx : x ≠ name) : (fr.put name t).get? x = fr.get? x := by
  simp [get?_put, hx]

/-- What holds of the value and of the old variables holds of all variables. -/
theorem forall_put {P : Value → Prop} (ht : P t) (h : ∀ e ∈ fr.vars, P e.2) :
    ∀ e ∈ (fr.put name t).vars, P e.2 := by
  intro e he
  unfold put at he
  split at he
  · obtain ⟨e₀, he₀, rfl⟩ := List.mem_map.1 he
    split
    · exact ht
    · exact h e₀ he₀
  · rcases List.mem_cons.1 he with rfl | he
    · exact ht
    · exact h e he

@[simp] theorem put_position : (fr.put name t).position = fr.position := by
  unfold put; split <;> rfl

@[simp] theorem put_returnPoint : (fr.put name t).returnPoint = fr.returnPoint := by
  unfold put; split <;> rfl

@[simp] theorem put_trail : (fr.put name t).trail = fr.trail := by
  unfold put; split <;> rfl

@[simp] theorem put_clause : (fr.put name t).clause = fr.clause := by
  unfold put; split <;> rfl

@[simp] theorem put_clauses : (fr.put name t).clauses = fr.clauses := by
  unfold put; split <;> rfl

@[simp] theorem put_cutTo : (fr.put name t).cutTo = fr.cutTo := by
  unfold put; split <;> rfl

@[simp] theorem put_committed : (fr.put name t).committed = fr.committed := by
  unfold put; split <;> rfl

@[simp] theorem put_alternatives : (fr.put name t).alternatives = fr.alternatives := by
  unfold put; split <;> rfl

/-- A value that is found is one of the values of the frame. -/
theorem mem_of_get? (h : fr.get? name = some t) : (name, t) ∈ fr.vars := by
  rw [get?, List.lookup_eq_some_iff] at h
  obtain ⟨l₁, l₂, hl, -⟩ := h
  rw [hl]
  simp

end Frame

namespace Machine

variable {m m' : Machine} {f : FrameId} {name : String} {t : Value} {h' : Heap} {vs : List VarId}

/-! ## §2. The memory of a machine. -/

/-- The trails of frames, the last frame's first. -/
def trailsOf (m : Machine) (fs : List FrameId) : List VarId :=
  fs.reverse.flatMap (fun f => (m.frame f).trail)

/-- All variables that are recorded as bound, newest first. -/
def trails (m : Machine) : List VarId := m.trailsOf m.stack.toList

@[simp] theorem trailsOf_append (fs : List FrameId) (f : FrameId) :
    m.trailsOf (fs ++ [f]) = (m.frame f).trail ++ m.trailsOf fs := by
  simp [trailsOf]

/-- Frames with the same trails have the same trails together. -/
theorem trailsOf_congr {fs : List FrameId}
    (h : ∀ f ∈ fs, (m'.frame f).trail = (m.frame f).trail) : m'.trailsOf fs = m.trailsOf fs := by
  unfold trailsOf
  rw [List.flatMap_congr]
  intro f hf
  exact h f (by simpa using hf)

/-- The binding of a variable once the frames from stack index `d` on are left. -/
def bindingUnder (m : Machine) (d : Nat) (v : VarId) : Option Value :=
  if v ∈ m.trailsOf (m.stack.toList.drop d) then none else m.heap.binding? v

/-- The invariant of the memory. -/
structure Memory (m : Machine) : Prop where
  /-- The heap is in good shape. -/
  good : m.heap.Good
  /-- Variables and registers hold what exists. -/
  vars : ∀ f, ∀ e ∈ (m.frame f).vars, m.heap.Holds e.2
  /-- No frame is on the stack twice. -/
  stackNodup : m.stack.toList.Nodup
  /-- The frames on the stack exist. -/
  stackBounded : ∀ f ∈ m.stack.toList, f < m.frames.size
  /-- No variable is recorded twice. -/
  trailsNodup : m.trails.Nodup
  /-- What is recorded is bound. -/
  trailsBound : ∀ v ∈ m.trails, m.heap.isBound v = true

/-- The values of a frame's variables are in the heap. -/
theorem Memory.holds_get (hm : m.Memory) (ht : (m.frame f).get? name = some t) : m.heap.Holds t :=
  hm.vars f _ (Frame.mem_of_get? ht)

/-- The memory is in the heap, the stack, the variables and the trails. -/
theorem Memory.of_eq (hm : m.Memory) (hheap : m'.heap = m.heap) (hstack : m'.stack = m.stack)
    (hsize : m'.frames.size = m.frames.size)
    (hframes : ∀ f, (m'.frame f).vars = (m.frame f).vars ∧
      (m'.frame f).trail = (m.frame f).trail) : m'.Memory := by
  have htrails : m'.trails = m.trails := by
    rw [trails, trails, hstack]
    exact trailsOf_congr fun f _ => (hframes f).2
  refine ⟨hheap ▸ hm.good, fun f e he => ?_, hstack ▸ hm.stackNodup, fun f hf => ?_,
    htrails ▸ hm.trailsNodup, fun v hv => ?_⟩
  · rw [hheap]
    exact hm.vars f e ((hframes f).1 ▸ he)
  · rw [hsize]
    exact hm.stackBounded f (hstack ▸ hf)
  · rw [hheap]
    exact hm.trailsBound v (htrails ▸ hv)

/-- Changing other fields of a frame, and of the machine. -/
theorem Memory.modify (hm : m.Memory) (f : FrameId) (change : Frame → Frame)
    (hvars : ∀ fr, (change fr).vars = fr.vars) (htrail : ∀ fr, (change fr).trail = fr.trail)
    (hheap : m'.heap = m.heap) (hstack : m'.stack = m.stack)
    (hframes : m'.frames = m.frames.modify f change) : m'.Memory := by
  refine hm.of_eq hheap hstack (by simp [hframes]) fun f' => ?_
  rw [frame_modify hframes]
  exact ⟨frame_changeFrame_field Frame.vars hvars, frame_changeFrame_field Frame.trail htrail⟩

/-- Changing other fields of a frame. -/
theorem Memory.changeFrame (hm : m.Memory) {g : Frame → Frame}
    (hvars : ∀ fr, (g fr).vars = fr.vars) (htrail : ∀ fr, (g fr).trail = fr.trail) :
    (m.changeFrame f g).Memory :=
  hm.modify f g hvars htrail rfl rfl rfl

/-- The frame on top is the last one of the stack. -/
theorem top?_eq (ht : m.top? = some f) : m.stack.toList = m.stack.toList.dropLast ++ [f] := by
  have h : m.stack.toList.getLast? = some f := by simpa [top?] using ht
  exact (List.dropLast_append_getLast? f h).symm

/-- It is one of the frames of the stack. -/
theorem mem_of_top? (ht : m.top? = some f) : f ∈ m.stack.toList := by
  rw [top?_eq ht]; simp

/-- The trail of the top frame comes first. -/
theorem trails_eq (ht : m.top? = some f) :
    m.trails = (m.frame f).trail ++ m.trailsOf m.stack.toList.dropLast := by
  rw [trails]
  conv_lhs => rw [top?_eq ht]
  exact trailsOf_append _ _

/-- So it does among the frames from a stack index on. -/
theorem trailsOf_drop {d : Nat} (ht : m.top? = some f) (hd : d < m.depth) :
    m.trailsOf (m.stack.toList.drop d) =
      (m.frame f).trail ++ m.trailsOf (m.stack.toList.dropLast.drop d) := by
  have hlength : d ≤ m.stack.toList.dropLast.length := by
    simp only [depth] at hd
    simp only [List.length_dropLast, Array.length_toList]
    omega
  conv_lhs => rw [top?_eq ht, List.drop_append_of_le_length hlength]
  exact trailsOf_append _ _

/-- It is one of the frames that were made. -/
theorem Memory.lt_of_top? (hm : m.Memory) (ht : m.top? = some f) : f < m.frames.size :=
  hm.stackBounded f (mem_of_top? ht)

/-- The top frame is nowhere else on the stack. -/
theorem Memory.top_not_below (hm : m.Memory) (ht : m.top? = some f) :
    f ∉ m.stack.toList.dropLast := by
  have h := hm.stackNodup
  rw [top?_eq ht, List.nodup_append] at h
  intro hmem
  exact h.2.2 f hmem f (by simp) rfl

/-! ## §3. What a clause does. -/

/-- Setting a variable to what exists. -/
theorem Memory.put (hm : m.Memory) (ht : m.heap.Holds t) :
    (m.changeFrame f (·.put name t)).Memory := by
  have htrails : (m.changeFrame f (·.put name t)).trails = m.trails :=
    trailsOf_congr fun _ _ => frame_changeFrame_field Frame.trail (by intro; simp)
  refine ⟨hm.good, fun f' e he => ?_, hm.stackNodup, fun f' hf' => ?_, htrails ▸ hm.trailsNodup,
    fun v hv => hm.trailsBound v (htrails ▸ hv)⟩
  · by_cases hne : f' = f
    · subst hne
      by_cases hlt : f' < m.frames.size
      · rw [frame_changeFrame_self hlt] at he
        exact Frame.forall_put ht (hm.vars f') e he
      · simp [frame, Machine.changeFrame, hlt] at he
    · rw [frame_changeFrame_of_ne hne] at he
      exact hm.vars f' e he
  · rw [frames_size_changeFrame]
    exact hm.stackBounded f' hf'

/-- New cells, and arguments added. -/
theorem Memory.grow (hm : m.Memory) (hgood : h'.Good)
    (hvars : m.heap.vars.size ≤ h'.vars.size) (hstructs : m.heap.structs.size ≤ h'.structs.size)
    (hbinding : ∀ v, h'.binding? v = m.heap.binding? v) :
    { m with heap := h' }.Memory where
  good := hgood
  vars f e he := (hm.vars f e he).mono hvars hstructs
  stackNodup := hm.stackNodup
  stackBounded := hm.stackBounded
  trailsNodup := hm.trailsNodup
  trailsBound v hv := by
    have hb : m.heap.isBound v = true := hm.trailsBound v hv
    show h'.isBound v = true
    rwa [Heap.isBound, hbinding]

/-- Making a variable keeps the memory in order. -/
theorem Memory.fresh (hm : m.Memory) (name : String) :
    { m with heap := (m.heap.fresh name).2 }.Memory :=
  hm.grow (hm.good.fresh name) (by simp) (by simp) (by simp)

theorem Memory.newStruct (hm : m.Memory) (name : String) :
    { m with heap := (m.heap.newStruct name [] .none).2 }.Memory :=
  hm.grow (hm.good.newStruct name (by simp)) (by simp) (by simp) (by simp)

theorem Memory.newConst (hm : m.Memory) (a : Atomic) :
    { m with heap := (m.heap.newConst a).2 }.Memory :=
  hm.grow (hm.good.newConst a) (by simp) (by simp) (by simp)

theorem Memory.pushArg (hm : m.Memory) (ht : m.heap.Holds t) (s : StructId) :
    { m with heap := m.heap.pushArg s t }.Memory :=
  hm.grow (hm.good.pushArg ht s) (by simp) (by simp) (by simp)

/-- **New cells, and bindings that are recorded on the top trail.** -/
theorem Memory.record (hm : m.Memory) (ht : m.top? = some f) (hgood : h'.Good)
    (hb : m.heap.Gains h' vs) : ({ m with heap := h' }.trailAll vs).Memory := by
  have ht' : { m with heap := h' }.top? = some f := ht
  have hlt : f < m.frames.size := hm.lt_of_top? ht
  rw [trailAll, ht']
  let m₁ : Machine := { m with heap := h' }.changeFrame f
    (fun fr => { fr with trail := vs ++ fr.trail })
  have ht₁ : m₁.top? = some f := ht
  have hself : (m₁.frame f).trail = vs ++ (m.frame f).trail :=
    congrArg Frame.trail (frame_changeFrame_self (m := { m with heap := h' }) hlt)
  -- The target has the new bindings on its trail; the trails below it are as before.
  have hbelow : m₁.trailsOf m.stack.toList.dropLast = m.trailsOf m.stack.toList.dropLast := by
    refine trailsOf_congr fun f' hf' => ?_
    have hne : f' ≠ f := by rintro rfl; exact hm.top_not_below ht hf'
    exact congrArg Frame.trail (frame_changeFrame_of_ne (m := { m with heap := h' }) hne)
  have htrails : m₁.trails = vs ++ m.trails := by
    rw [trails_eq ht₁, hself, trails_eq ht, List.append_assoc]
    exact congrArg _ (congrArg _ hbelow)
  -- Bindings are only added, so what was bound is still bound.
  have hbound : ∀ v ∈ m.trails, (h'.binding? v).isSome := by
    intro v hv
    obtain ⟨t, hvt⟩ := Option.isSome_iff_exists.1 (hm.trailsBound v hv)
    rw [hb.keeps hvt]
    rfl
  show m₁.Memory
  refine ⟨hgood, fun f' e he => ?_, hm.stackNodup, fun f' hf' => ?_, ?_, fun v hv => ?_⟩
  · have he' : e ∈ (m.frame f').vars := by
      rwa [frame_changeFrame_field Frame.vars (by intro; rfl)] at he
    exact hb.holds (hm.vars f' e he')
  · exact Nat.lt_of_lt_of_eq (hm.stackBounded f' hf') frames_size_changeFrame.symm
  -- A variable that was just bound was unbound before, and so is on no trail yet.
  · rw [htrails]
    refine List.nodup_append.2 ⟨hb.nodup, hm.trailsNodup, fun a ha b hb' => ?_⟩
    rintro rfl
    have := hm.trailsBound a hb'
    rw [Heap.isBound, hb.before a ha] at this
    simp at this
  · rw [htrails, List.mem_append] at hv
    rcases hv with hv | hv
    · exact hb.after v hv
    · exact hbound v hv

/-- Recording changes frames only. -/
theorem trailAll_eq : m.trailAll vs = { m with frames := (m.trailAll vs).frames } := by
  unfold trailAll
  split <;> rfl

/-- Binding one variable is binding it in the heap and recording it. -/
theorem bindVar_eq {v : VarId} (ht : m.top? = some f) :
    m.bindVar v t = { m with heap := m.heap.set v t }.trailAll [v] := by
  have ht' : { m with heap := m.heap.set v t }.top? = some f := ht
  simp only [Machine.bindVar, trail, trailAll, ht, ht']
  rfl

/-- Binding changes the heap and frames only. -/
theorem bindVar_fields {v : VarId} (ht : m.top? = some f) :
    m.bindVar v t = { m with heap := m.heap.set v t, frames := (m.bindVar v t).frames } := by
  rw [bindVar_eq ht, trailAll_eq]

/-- The value of a variable of the running clause exists. -/
theorem Memory.valueOf (hm : m.Memory) (name : String) :
    (m.valueOf name).2.Memory ∧ (m.valueOf name).2.heap.Holds (m.valueOf name).1 := by
  unfold Machine.valueOf
  split
  · next t ht => exact ⟨hm, hm.holds_get ht⟩
  · exact ⟨(hm.fresh name).put (by simp), by simp [Machine.changeFrame]⟩

/-! ## §4. Undoing and popping. -/

/-- The trail of the target can be undone. -/
theorem Memory.unwindable (hm : m.Memory) (ht : m.top? = some f) : Exec.Unwindable m f := by
  have hnodup := hm.trailsNodup
  have hbound := hm.trailsBound
  rw [trails_eq ht] at hnodup hbound
  exact ⟨(List.nodup_append.1 hnodup).1, fun v hv => hbound v (by simp [hv])⟩

/-- What is left on the top trail when it is undone down to a mark. -/
theorem frame_unwound_self (hlt : f < m.frames.size) (mark : Nat) :
    (m.unwound f mark).frame f = { m.frame f with
      trail := (m.frame f).trail.drop ((m.frame f).trail.length - mark) } :=
  frame_changeFrame_self (m := { m with heap := _ }) hlt

/-- **Undoing the bindings of the top frame down to a mark.** -/
theorem Memory.unwound (hm : m.Memory) (ht : m.top? = some f) (mark : Nat) :
    (m.unwound f mark).Memory := by
  have hlt := hm.lt_of_top? ht
  let k := (m.frame f).trail.length - mark
  have ht' : (m.unwound f mark).top? = some f := ht
  have hbelow : (m.unwound f mark).trailsOf m.stack.toList.dropLast =
      m.trailsOf m.stack.toList.dropLast := by
    refine trailsOf_congr fun f' hf' => ?_
    have hne : f' ≠ f := by rintro rfl; exact hm.top_not_below ht hf'
    exact congrArg Frame.trail (frame_changeFrame_of_ne (m := { m with heap := _ }) hne)
  have htrails : (m.unwound f mark).trails =
      (m.frame f).trail.drop k ++ m.trailsOf m.stack.toList.dropLast := by
    rw [trails_eq ht', frame_unwound_self hlt mark]
    exact congrArg _ hbelow
  -- All trails are what is undone, at the front, and what is left.
  have hsplit : m.trails = (m.frame f).trail.take k ++ (m.unwound f mark).trails := by
    rw [htrails, ← List.append_assoc, List.take_append_drop, trails_eq ht]
  have hnodup := hm.trailsNodup
  rw [hsplit] at hnodup
  refine ⟨hm.good.resetAll _, fun f' e he => ?_, hm.stackNodup, fun f' hf' => ?_,
    (List.nodup_append.1 hnodup).2.1, fun v hv => ?_⟩
  · have he' : e ∈ (m.frame f').vars := by
      rwa [Machine.unwound, frame_changeFrame_field Frame.vars (by intro; rfl)] at he
    refine Heap.Holds.mono (hm.vars f' e he') ?_ ?_
    · exact Nat.le_of_eq Heap.vars_size_resetAll.symm
    · exact Nat.le_of_eq (congrArg Array.size Heap.structs_resetAll.symm)
  · exact Nat.lt_of_lt_of_eq (hm.stackBounded f' hf') frames_size_changeFrame.symm
  -- A variable that is left was recorded once, so it is not among those that are unbound.
  · have hnot : v ∉ (m.frame f).trail.take k := fun hmem =>
      (List.nodup_append.1 hnodup).2.2 v hmem v hv rfl
    have hb := hm.trailsBound v (by rw [hsplit]; simp [hv])
    show ((m.heap.resetAll ((m.frame f).trail.take k)).binding? v).isSome = true
    rw [Heap.binding?_resetAll, if_neg hnot]
    exact hb

@[simp] theorem stack_unwound (mark : Nat) : (m.unwound f mark).stack = m.stack := rfl

/-- With the trail of the top frame empty, the frame can be dropped. -/
theorem Memory.popped (hm : m.Memory) : m.popped.Memory := by
  unfold Machine.popped
  split
  · next f ht =>
    have hu := hm.unwound ht 0
    have ht' : (m.unwound f 0).top? = some f := ht
    have hsub : ∀ f', f' ∈ m.stack.toList.dropLast → f' ∈ m.stack.toList :=
      fun f' hf' => List.dropLast_subset _ hf'
    have htrails : (m.unwound f 0).trails =
        ({ m.unwound f 0 with stack := m.stack.pop } : Machine).trails := by
      have hnil : ((m.unwound f 0).frame f).trail = [] := by
        rw [frame_unwound_self (hm.lt_of_top? ht)]
        simp
      rw [trails_eq ht', hnil, List.nil_append, trails]
      simp [trailsOf, frame]
    refine ⟨hu.good, hu.vars, ?_, fun f' hf' => ?_, htrails ▸ hu.trailsNodup,
      fun v hv => hu.trailsBound v (htrails ▸ hv)⟩
    · simpa using List.Nodup.sublist (List.dropLast_sublist _) hm.stackNodup
    · exact hu.stackBounded f' (hsub f' (by simpa using hf'))
  · exact hm

/-- Popping frames keeps the memory in order. -/
theorem Memory.poppedMany (n : Nat) : ∀ {m : Machine}, m.Memory → (m.poppedMany n).Memory := by
  induction n with
  | zero => intro m hm; exact hm
  | succ n ih => intro m hm; exact ih hm.popped

@[simp] theorem depth_popped : m.popped.depth = m.depth - 1 := by
  unfold Machine.popped
  split
  · simp [depth]
  · next h =>
    have : m.stack.size = 0 := by simpa [top?] using h
    simp [depth, this]

/-- **Popping is never refused while the frame of the query stays.** -/
theorem eval_popMany (n : Nat) : ∀ {m : Machine}, m.Memory → n < m.depth →
    Exec.eval (Exec.popMany n) m = (.ok (), m.poppedMany n) := by
  induction n with
  | zero => intro m _ _; rfl
  | succ n ih =>
    intro m hm hn
    have hne : m.stack.size ≠ 0 := by
      simp only [depth] at hn
      omega
    obtain ⟨f, ht⟩ : ∃ f, m.top? = some f := by
      cases h : m.top? with
      | none => exact absurd (by simpa [top?] using h) hne
      | some f => exact ⟨f, rfl⟩
    have hpop := Exec.eval_pop (by omega) ht (hm.unwindable ht)
    simp only [Exec.popMany, Exec.eval_bind, hpop]
    exact ih hm.popped (by simp; omega)

end Machine

end PrologMachine
