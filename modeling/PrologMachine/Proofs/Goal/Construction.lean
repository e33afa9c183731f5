/-
  PrologMachine.Proofs.Goal.Construction ── **THE CODE OF A GOAL REBUILDS THE GOAL.**

  A goal is built inside out: each nested structure gets a register of the frame under construction,
  and its parent takes it from there.  Whether a variable occurs for the first time is decided when
  code is emitted, in the order of emission.  What comes out is the goal all the same, with one cell
  for each name and a cell of its own for each anonymous variable.

    * `Term.Denotes`: a value on the heap is a term, given the values of its variables.
    * `Machine.Makes`: the new cells of a stretch of code, and what becomes of the variables.
    * `Machine.putArgs_fills`, `Machine.buildNested_readies`: passing arguments, and building the structures
      among them.
    * `Machine.goal_rebuilt`: the code of a goal leaves the goal in `$x0`.

  Beside the term each lemma speaks of the pattern that the term is with the constants of its code.
-/
import PrologMachine.Proofs.Code.Emission
import PrologMachine.Proofs.Goal.Patterns
import PrologMachine.Proofs.Machine.Progress

namespace PrologMachine

/-! ## §1. Terms and values. -/

namespace Term

mutual

/-- The names of the variables in a term.  An anonymous variable has none. -/
def names : Term → List String
  | .var x _ => if isAnonymous x then [] else [x]
  | .const _ _ => []
  | .app _ args _ _ => namesAll args
  | .absent => []

/-- The names in terms. -/
def namesAll : List Term → List String
  | [] => []
  | t :: ts => t.names ++ namesAll ts

end

mutual

/-- The value `u` is the term, where `σ` gives the values of names.  The list has the cells of the
    anonymous variables, those of missing terms included.  A compound without arguments is an atom. -/
def Denotes (h : Heap) (σ : String → Option Value) : Term → Value → List VarId → Prop
  | .var x _, u, vs => if isAnonymous x then ∃ v, u = .var v ∧ vs = [v] else σ x = some u ∧ vs = []
  | .const a _, u, vs => ∃ k : Constant, u = .const k ∧ k.value = a ∧ vs = []
  | .app f args _ _, u, vs =>
    (args = [] ∧ ∃ k : Constant, u = .const k ∧ k.value = .atom f ∧ vs = []) ∨
      (args ≠ [] ∧ ∃ s us, u = .struct s ∧ h.structs[s]? = some ⟨f, us, .none⟩ ∧
        DenotesAll h σ args us vs)
  | .absent, u, vs => ∃ v, u = .var v ∧ vs = [v]

/-- The values are the terms, one by one. -/
def DenotesAll (h : Heap) (σ : String → Option Value) : List Term → List Value → List VarId → Prop
  | [], us, vs => us = [] ∧ vs = []
  | t :: ts, us, vs => ∃ u us' vs₁ vs₂, us = u :: us' ∧ vs = vs₁ ++ vs₂ ∧ Denotes h σ t u vs₁ ∧
      DenotesAll h σ ts us' vs₂

end

/-- The term is a structure with arguments. -/
def Compound : Term → Prop
  | .app _ (_ :: _) _ _ => True
  | _ => False

variable {h h' : Heap} {σ σ' : String → Option Value}

mutual

/-- A value stays the term when structures and variables stay. -/
theorem Denotes.mono (hh : ∀ (s : StructId) cell, h.structs[s]? = some cell → h'.structs[s]? = some cell)
    (hσ : ∀ x u, σ x = some u → σ' x = some u) :
    ∀ {t : Term} {u : Value} {vs : List VarId}, Denotes h σ t u vs → Denotes h' σ' t u vs
  | .var x _, u, vs, ht => by
    rw [Denotes] at ht ⊢
    split at ht
    · next hx => rw [if_pos hx]; exact ht
    · next hx => rw [if_neg hx]; exact ⟨hσ x u ht.1, ht.2⟩
  | .const a _, u, vs, ht => by
    rw [Denotes] at ht ⊢
    exact ht
  | .app f args _ _, u, vs, ht => by
    rw [Denotes] at ht ⊢
    rcases ht with ht | ⟨hne, s, us, hu, hcell, hargs⟩
    · exact .inl ht
    · exact .inr ⟨hne, s, us, hu, hh s _ hcell, DenotesAll.mono hh hσ hargs⟩
  | .absent, u, vs, ht => by
    rw [Denotes] at ht ⊢
    exact ht

theorem DenotesAll.mono (hh : ∀ (s : StructId) cell, h.structs[s]? = some cell → h'.structs[s]? = some cell)
    (hσ : ∀ x u, σ x = some u → σ' x = some u) :
    ∀ {ts : List Term} {us : List Value} {vs : List VarId}, DenotesAll h σ ts us vs →
      DenotesAll h' σ' ts us vs
  | [], us, vs, ht => by
    rw [DenotesAll] at ht ⊢
    exact ht
  | t :: ts, us, vs, ht => by
    rw [DenotesAll] at ht ⊢
    obtain ⟨u, us', vs₁, vs₂, hus, hvs, ht, hts⟩ := ht
    exact ⟨u, us', vs₁, vs₂, hus, hvs, Denotes.mono hh hσ ht, DenotesAll.mono hh hσ hts⟩

end

mutual

/-- All names of a term that a value is have values. -/
theorem Denotes.names : ∀ {t : Term} {u : Value} {vs : List VarId}, Denotes h σ t u vs →
    ∀ x ∈ t.names, (σ x).isSome
  | .var x _, u, vs, ht, y, hy => by
    rw [Term.names] at hy
    rw [Denotes] at ht
    split at hy
    · exact absurd hy List.not_mem_nil
    · next hx =>
      rw [if_neg hx] at ht
      obtain rfl := List.mem_singleton.1 hy
      exact Option.isSome_iff_exists.2 ⟨u, ht.1⟩
  | .const a _, u, vs, ht, y, hy => absurd hy List.not_mem_nil
  | .app f args _ _, u, vs, ht, y, hy => by
    rw [Denotes] at ht
    rw [Term.names] at hy
    rcases ht with ⟨rfl, -⟩ | ⟨-, s, us, -, -, hargs⟩
    · exact absurd hy List.not_mem_nil
    · exact DenotesAll.names hargs y hy
  | .absent, u, vs, ht, y, hy => absurd hy List.not_mem_nil

/-- All names of terms that are denoted have values. -/
theorem DenotesAll.names : ∀ {ts : List Term} {us : List Value} {vs : List VarId},
    DenotesAll h σ ts us vs → ∀ x ∈ namesAll ts, (σ x).isSome
  | [], us, vs, ht, y, hy => absurd hy List.not_mem_nil
  | t :: ts, us, vs, ht, y, hy => by
    rw [DenotesAll] at ht
    obtain ⟨u, us', vs₁, vs₂, -, -, ht, hts⟩ := ht
    rcases List.mem_append.1 hy with hy | hy
    · exact Denotes.names ht y hy
    · exact DenotesAll.names hts y hy

end

end Term

namespace Term

variable {h h' : Heap} {σ σ' : String → Option Value} {t : Term} {p : Pattern} {u : Value}
  {vs vs' : List VarId} {ts : List Term} {ps : List Pattern} {us : List Value}

/-- The value is the term, with its constants in the cells that the pattern has. -/
structure Shows (h : Heap) (σ : String → Option Value) (t : Term) (p : Pattern) (u : Value)
    (vs : List VarId) : Prop where
  /-- The term. -/
  denotes : Denotes h σ t u vs
  /-- The pattern. -/
  depicts : p.Depicts h σ u vs

/-- The values are the terms, one by one, with their constants in the cells that the patterns have. -/
structure ShowsAll (h : Heap) (σ : String → Option Value) (ts : List Term) (ps : List Pattern)
    (us : List Value) (vs : List VarId) : Prop where
  /-- The terms. -/
  denotes : DenotesAll h σ ts us vs
  /-- The patterns. -/
  depicts : Pattern.DepictsAll h σ ps us vs

theorem Shows.mono (hs : Shows h σ t p u vs)
    (hh : ∀ (s : StructId) cell, h.structs[s]? = some cell → h'.structs[s]? = some cell)
    (hσ : ∀ x u, σ x = some u → σ' x = some u) : Shows h' σ' t p u vs :=
  ⟨hs.denotes.mono hh hσ, hs.depicts.mono hh hσ⟩

theorem ShowsAll.mono (hs : ShowsAll h σ ts ps us vs)
    (hh : ∀ (s : StructId) cell, h.structs[s]? = some cell → h'.structs[s]? = some cell)
    (hσ : ∀ x u, σ x = some u → σ' x = some u) : ShowsAll h' σ' ts ps us vs :=
  ⟨hs.denotes.mono hh hσ, hs.depicts.mono hh hσ⟩

theorem ShowsAll.nil : ShowsAll h σ [] [] [] [] := by
  refine ⟨?_, ?_⟩
  · rw [DenotesAll]
    exact ⟨rfl, rfl⟩
  · rw [Pattern.DepictsAll]
    exact ⟨rfl, rfl⟩

/-- One more term is shown in front. -/
theorem ShowsAll.cons (hs : Shows h σ t p u vs) (hall : ShowsAll h σ ts ps us vs') :
    ShowsAll h σ (t :: ts) (p :: ps) (u :: us) (vs ++ vs') := by
  refine ⟨?_, ?_⟩
  · rw [DenotesAll]
    exact ⟨u, us, vs, vs', rfl, rfl, hs.denotes, hall.denotes⟩
  · rw [Pattern.DepictsAll]
    exact ⟨u, us, vs, vs', rfl, rfl, hs.depicts, hall.depicts⟩

/-- A structure over such values. -/
theorem Shows.structure {f : String} {attrs : Attrs} {pos : Int} {s : StructId} (hne : ts ≠ [])
    (hcell : h.structs[s]? = some ⟨f, us, .none⟩) (hall : ShowsAll h σ ts ps us vs) :
    Shows h σ (.app f ts attrs pos) (.struct f ps) (.struct s) vs := by
  refine ⟨?_, ?_⟩
  · rw [Denotes]
    exact .inr ⟨hne, s, us, rfl, hcell, hall.denotes⟩
  · rw [Pattern.Depicts]
    exact ⟨s, us, rfl, hcell, hall.depicts⟩

end Term

/-! ## §2. The instructions for variables. -/

section Emission

open Emit

variable {x : String} {id : Int} {e : Emitter}

/-- A variable without a name is passed as such. -/
theorem eval_putArg_anonymous (hx : isAnonymous x = true) :
    (putArg (.var x id)).eval e = ({ op := .putVoid }, e) := by
  simp [putArg, hx]

/-- A name that occurs for the first time is passed as a new variable. -/
theorem eval_putArg_first (hx : isAnonymous x = false) (hseen : x ∉ e.seen) :
    (putArg (.var x id)).eval e =
      ({ op := .putVar, name := x }, { e with seen := x :: e.seen }) := by
  simp [putArg, hx, hseen]

/-- A name that occurred before is passed by its value. -/
theorem eval_putArg_again (hx : isAnonymous x = false) (hseen : x ∈ e.seen) :
    (putArg (.var x id)).eval e = ({ op := .putValue, name := x }, e) := by
  simp [putArg, hx, hseen]

end Emission

namespace Machine

open Exec Term

variable {w : World} {c : Clause} {label : String} {f : FrameId} {i n n' : Nat} {block code : Code}
  {instr : Instruction} {m m' m'' : Machine} {N : Set String} {seen seen' seen'' : List String}
  {news news' : List (String × VarId)} {others others' : List VarId} {x : String} {t : Value}

/-! ## §3. New cells. -/

/-- The values of the variables that occurred before. -/
def known (seen : List String) (m : Machine) (x : String) : Option Value :=
  if x ∈ seen then m.value? x else none

/-- Between the machines new cells were made, `news` for names and `others` without.  The names
    `seen` occurred before, and then also the names `seen'`; a name among them keeps the value that
    it had, and no name outside of `N` gets another value. -/
structure Makes (N : Set String) (seen seen' : List String) (news : List (String × VarId))
    (others : List VarId) (m m' : Machine) : Prop where
  /-- Names with a new cell have it as value. -/
  entries : ∀ x, m'.value? x = ((news.lookup x).map Value.var).or (m.value? x)
  /-- A name that occurred has occurred. -/
  mono : ∀ x ∈ seen, x ∈ seen'
  /-- With a value it gets no new cell. -/
  kept : ∀ x ∈ seen, (m.value? x).isSome → x ∉ news.map Prod.fst
  /-- A name that occurs for the first time gets a new cell. -/
  first : ∀ x ∈ seen', x ∉ seen → x ∈ news.map Prod.fst
  /-- Names with new cells occurred. -/
  noted : ∀ x ∈ news.map Prod.fst, x ∈ seen' ∧ x ∈ N
  /-- No name has two new cells. -/
  names : (news.map Prod.fst).Nodup
  /-- The cells are different. -/
  distinct : (news.map Prod.snd ++ others).Nodup
  /-- They are new. -/
  new : ∀ v ∈ news.map Prod.snd ++ others, m.heap.vars.size ≤ v ∧ v < m'.heap.vars.size
  /-- Cells that were there stay. -/
  grows : m.heap.vars.size ≤ m'.heap.vars.size
  /-- They are what they were. -/
  vars : ∀ v < m.heap.vars.size, m'.heap.vars[v]? = m.heap.vars[v]?
  /-- Nothing is bound. -/
  bindings : ∀ v, m'.heap.binding? v = m.heap.binding? v

namespace Makes

/-- Nothing is made. -/
theorem none (hentries : ∀ x, m'.value? x = m.value? x) (hvars : m'.heap.vars = m.heap.vars) :
    Makes N seen seen [] [] m m' where
  entries x := hentries x
  mono x hx := hx
  kept x _ _ := List.not_mem_nil
  first x hx hnot := absurd hx hnot
  noted x hx := absurd hx List.not_mem_nil
  names := List.nodup_nil
  distinct := List.nodup_nil
  new v hv := absurd hv List.not_mem_nil
  grows := by rw [hvars]
  vars v _ := by rw [hvars]
  bindings v := by simp only [Heap.binding?, Heap.varCell, hvars]

/-- The cells of a heap with one new variable. -/
private theorem fresh_vars (h : Heap) (y : String) {v : VarId} (hv : v < h.vars.size) :
    (h.fresh y).2.vars[v]? = h.vars[v]? := by
  have hne : v ≠ h.vars.size := Nat.ne_of_lt hv
  simp [Heap.fresh, Heap.newVar, Array.getElem?_push, hne]

/-- A cell without a name. -/
theorem other {y : String} (hentries : ∀ x, m'.value? x = m.value? x)
    (hvars : m'.heap.vars = (m.heap.fresh y).2.vars) :
    Makes N seen seen [] [m.heap.vars.size] m m' where
  entries x := hentries x
  mono x hx := hx
  kept x _ _ := List.not_mem_nil
  first x hx hnot := absurd hx hnot
  noted x hx := absurd hx List.not_mem_nil
  names := List.nodup_nil
  distinct := List.nodup_singleton _
  new v hv := by
    obtain rfl := List.mem_singleton.1 hv
    rw [hvars, Heap.vars_size_fresh]
    exact ⟨Nat.le_refl _, Nat.lt_succ_self _⟩
  grows := by rw [hvars, Heap.vars_size_fresh]; omega
  vars v hv := by rw [hvars]; exact fresh_vars m.heap y hv
  bindings v := by
    rw [← show (m.heap.fresh y).2.binding? v = m.heap.binding? v from Heap.binding?_fresh]
    simp only [Heap.binding?, Heap.varCell, hvars]

/-- A cell for a name that occurs for the first time, or has no value. -/
theorem named {y : String} (hN : x ∈ N) (hseen : ∀ z, z ∈ seen' ↔ z = x ∨ z ∈ seen)
    (hnew : x ∈ seen → m.value? x = Option.none)
    (hentries : ∀ z, m'.value? z = if z = x then some (.var m.heap.vars.size) else m.value? z)
    (hvars : m'.heap.vars = (m.heap.fresh y).2.vars) :
    Makes N seen seen' [(x, m.heap.vars.size)] [] m m' where
  -- The name is the only one with a new entry.
  entries z := by
    rw [hentries]
    by_cases hz : z = x
    · subst hz
      simp
    · have hne : (z == x) = false := by simpa using hz
      simp [List.lookup, hne, hz]
  mono z hz := (hseen z).2 (.inr hz)
  kept z hz hsome hmem := by
    obtain rfl := List.mem_singleton.1 hmem
    rw [hnew hz] at hsome
    exact absurd hsome (by simp)
  first z hz hnot := List.mem_singleton.2 (((hseen z).1 hz).resolve_right hnot)
  noted z hz := by
    obtain rfl := List.mem_singleton.1 hz
    exact ⟨(hseen z).2 (.inl rfl), hN⟩
  names := List.nodup_singleton _
  distinct := List.nodup_singleton _
  new v hv := by
    obtain rfl := List.mem_singleton.1 hv
    rw [hvars, Heap.vars_size_fresh]
    exact ⟨Nat.le_refl _, Nat.lt_succ_self _⟩
  grows := by rw [hvars, Heap.vars_size_fresh]; omega
  vars v hv := by rw [hvars]; exact fresh_vars m.heap y hv
  bindings v := by
    rw [← show (m.heap.fresh y).2.binding? v = m.heap.binding? v from Heap.binding?_fresh]
    simp only [Heap.binding?, Heap.varCell, hvars]

/-- A name of the new cells has an entry. -/
theorem entry_isSome (h : Makes N seen seen' news others m m') (hx : x ∈ news.map Prod.fst) :
    (m'.value? x).isSome := by
  obtain ⟨v, hv⟩ : ∃ v, news.lookup x = some v := by
    obtain ⟨p, hp, rfl⟩ := List.mem_map.1 hx
    cases hlookup : news.lookup p.1 with
    | some v => exact ⟨v, rfl⟩
    | none => exact absurd (List.lookup_eq_none_iff.1 hlookup p hp) (by simp)
  rw [h.entries, hv]
  rfl

/-- The other entries are as they were. -/
theorem entry_of_notMem (h : Makes N seen seen' news others m m') (hx : x ∉ news.map Prod.fst) :
    m'.value? x = m.value? x := by
  have hnone : news.lookup x = Option.none := by
    refine List.lookup_eq_none_iff.2 fun p hp => ?_
    have hne : x ≠ p.1 := fun heq => hx (List.mem_map.2 ⟨p, hp, heq.symm⟩)
    simpa using hne
  rw [h.entries, hnone]
  rfl

/-- A known value stays. -/
theorem known (h : Makes N seen seen' news others m m') (hx : m.known seen x = some t) :
    m'.known seen' x = some t := by
  unfold Machine.known at hx ⊢
  split at hx
  · next hmem =>
    rw [if_pos (h.mono x hmem), h.entry_of_notMem (h.kept x hmem (by rw [hx]; rfl)), hx]
  · exact absurd hx (by simp)

/-- The order of cells without a name does not matter. -/
theorem perm (h : Makes N seen seen' news others m m') (hperm : others.Perm others') :
    Makes N seen seen' news others' m m' :=
  { h with
    distinct := (hperm.append_left _).nodup_iff.1 h.distinct
    new := fun v hv => h.new v ((hperm.append_left _).mem_iff.2 hv) }

/-- **One stretch after the other.** -/
theorem trans (h : Makes N seen seen' news others m m') (h' : Makes N seen' seen'' news' others' m' m'') :
    Makes N seen seen'' (news ++ news') (others ++ others') m m'' := by
  have hcells : ((news ++ news').map Prod.snd ++ (others ++ others')).Perm
      ((news.map Prod.snd ++ others) ++ (news'.map Prod.snd ++ others')) := by
    rw [List.map_append, List.append_assoc, List.append_assoc]
    refine List.Perm.append_left _ ?_
    rw [← List.append_assoc, ← List.append_assoc]
    exact List.perm_append_comm.append_right _
  -- A name with a cell from the first stretch has an entry, so the second one makes none for it.
  have hapart : ∀ x ∈ news.map Prod.fst, x ∉ news'.map Prod.fst := fun x hx =>
    h'.kept x (h.noted x hx).1 (h.entry_isSome hx)
  refine ⟨fun x => ?_, fun x hx => h'.mono x (h.mono x hx), fun x hx hsome hmem => ?_,
    fun x hx hnot => ?_, fun x hx => ?_, ?_, ?_, fun v hv => ?_, h.grows.trans h'.grows, fun v hv => ?_,
    fun v => (h'.bindings v).trans (h.bindings v)⟩
  · -- A name with a cell from the first stretch gets none in the second.
    rw [List.lookup_append, h'.entries, h.entries]
    by_cases hx : x ∈ news.map Prod.fst
    · have hnone : news'.lookup x = Option.none := by
        refine List.lookup_eq_none_iff.2 fun p hp => ?_
        have hne : x ≠ p.1 := fun heq => hapart x hx (List.mem_map.2 ⟨p, hp, heq.symm⟩)
        simpa using hne
      rw [hnone, Option.or_none]
      rfl
    · have hnone : news.lookup x = Option.none := by
        refine List.lookup_eq_none_iff.2 fun p hp => ?_
        have hne : x ≠ p.1 := fun heq => hx (List.mem_map.2 ⟨p, hp, heq.symm⟩)
        simpa using hne
      rw [hnone, Option.none_or]
      rfl
  · have hnot := h.kept x hx hsome
    rw [List.map_append, List.mem_append] at hmem
    rcases hmem with hmem | hmem
    · exact hnot hmem
    · exact h'.kept x (h.mono x hx) (by rwa [h.entry_of_notMem hnot]) hmem
  · rw [List.map_append, List.mem_append]
    by_cases hx' : x ∈ seen'
    · exact .inl (h.first x hx' hnot)
    · exact .inr (h'.first x hx hx')
  · rw [List.map_append, List.mem_append] at hx
    rcases hx with hx | hx
    · exact ⟨h'.mono x (h.noted x hx).1, (h.noted x hx).2⟩
    · exact h'.noted x hx
  · rw [List.map_append]
    exact List.nodup_append.2 ⟨h.names, h'.names, fun a ha b hb heq => hapart a ha (heq ▸ hb)⟩
  · refine hcells.nodup_iff.2 (List.nodup_append.2 ⟨h.distinct, h'.distinct, fun a ha b hb => ?_⟩)
    exact Nat.ne_of_lt (Nat.lt_of_lt_of_le (h.new a ha).2 (h'.new b hb).1)
  · rcases List.mem_append.1 (hcells.mem_iff.1 hv) with hv | hv
    · exact ⟨(h.new v hv).1, Nat.lt_of_lt_of_le (h.new v hv).2 h'.grows⟩
    · exact ⟨Nat.le_trans h.grows (h'.new v hv).1, (h'.new v hv).2⟩
  · rw [h'.vars v (Nat.lt_of_lt_of_le hv h.grows), h.vars v hv]

end Makes

/-! ## §4. Stretches of goal code. -/

/-- The machine runs the code of a goal from instruction `i` on, with the frame `f` allocated for its
    call. -/
structure Preparing (c : Clause) (label : String) (f : FrameId) (i : Nat) (m : Machine) : Prop where
  /-- It stands there. -/
  place : At c label i m
  /-- The frame of the call. -/
  target : m.target = some f
  /-- It is not the frame of the clause. -/
  other : f ≠ m.current
  /-- It exists. -/
  frame : f < m.frames.size
  /-- The frame of the clause exists. -/
  current : m.current < m.frames.size

/-- A stretch of goal code is passed and makes new cells.  Beside them it changes variables of the
    clause and registers of the frame `f`, and adds structures. -/
structure Constructs (w : World) (c : Clause) (label : String) (f : FrameId) (N : Set String)
    (seen seen' : List String) (i n : Nat) (news : List (String × VarId)) (others : List VarId)
    (m m' : Machine) : Prop where
  /-- It is passed. -/
  passes : Passes w c label i n m m'
  /-- The new cells. -/
  makes : Makes N seen seen' news others m m'
  /-- The call under construction stays. -/
  target : m'.target = m.target
  /-- Other frames stay. -/
  frames : ∀ f', f' ≠ m.current → f' ≠ f → m'.frame f' = m.frame f'
  /-- Frames change in their variables only. -/
  fields : ∀ f', { m'.frame f' with vars := [] } = { m.frame f' with vars := [] }
  /-- None of its instructions stops the machine. -/
  reaches : m.Active → Reaches w m m'

namespace Constructs

/-- Nothing is constructed by no instruction. -/
theorem zero (h : At c label i m) : Constructs w c label f N seen seen i 0 [] [] m m :=
  ⟨.zero h, .none (fun _ => rfl) rfl, rfl, fun _ _ _ => rfl, fun _ => rfl, fun _ => .refl m⟩

/-- The machine is still preparing a goal. -/
theorem preparing (h : Constructs w c label f N seen seen' i n news others m m')
    (hp : Preparing c label f i m) : Preparing c label f (i + n) m' where
  place := h.passes.behind
  target := h.target.trans hp.target
  other := by rw [h.passes.current]; exact hp.other
  frame := by rw [h.passes.frames]; exact hp.frame
  current := by rw [h.passes.current, h.passes.frames]; exact hp.current

theorem trans (h : Constructs w c label f N seen seen' i n news others m m')
    (h' : Constructs w c label f N seen' seen'' (i + n) n' news' others' m' m'') :
    Constructs w c label f N seen seen'' i (n + n') (news ++ news') (others ++ others') m m'' where
  passes := h.passes.trans h'.passes
  makes := h.makes.trans h'.makes
  target := h'.target.trans h.target
  frames f' hcurrent hf' :=
    (h'.frames f' (by rw [h.passes.current]; exact hcurrent) hf').trans (h.frames f' hcurrent hf')
  fields f' := (h'.fields f').trans (h.fields f')
  reaches hactive := (h.reaches hactive).trans (h'.reaches ((h.reaches hactive).active hactive))

/-- The order of the unnamed cells does not matter. -/
theorem perm (h : Constructs w c label f N seen seen' i n news others m m')
    (hperm : others.Perm others') : Constructs w c label f N seen seen' i n news others' m m' :=
  ⟨h.passes, h.makes.perm hperm, h.target, h.frames, h.fields, h.reaches⟩

end Constructs

/-! ## §5. Passing arguments. -/

/-- The cell of a structure with further arguments. -/
def extended (us : List Value) (cell : StructCell) : StructCell := { cell with args := cell.args ++ us }

/-- The structure `s` got further arguments, and neither another structure nor the frame `f` changed. -/
structure Pushes (f : FrameId) (s : StructId) (us : List Value) (m m' : Machine) : Prop where
  /-- The structure under construction stays. -/
  building : m'.building = m.building
  /-- The frame stays. -/
  frame : m'.frame f = m.frame f
  /-- The structures. -/
  structs : ∀ k : StructId, m'.heap.structs[k]? =
    if k = s then (m.heap.structs[k]?).map (extended us) else m.heap.structs[k]?

namespace Pushes

variable {s : StructId} {us us' : List Value}

theorem nil : Pushes f s [] m m := by
  refine ⟨rfl, rfl, fun k => ?_⟩
  have hid : extended [] = id := funext fun cell => by simp [extended]
  rw [hid, Option.map_id, id, ite_self]

theorem trans (h : Pushes f s us m m') (h' : Pushes f s us' m' m'') : Pushes f s (us ++ us') m m'' := by
  refine ⟨h'.building.trans h.building, h'.frame.trans h.frame, fun k => ?_⟩
  have hcomp : extended us' ∘ extended us = extended (us ++ us') :=
    funext fun cell => by simp [extended]
  rw [h'.structs, h.structs]
  split
  · rw [Option.map_map, hcomp]
  · rfl

/-- What is elsewhere stays. -/
theorem structs_of_ne (h : Pushes f s us m m') {k : StructId} (hk : k ≠ s) :
    m'.heap.structs[k]? = m.heap.structs[k]? := by rw [h.structs, if_neg hk]

end Pushes

/-- Only the structure that gets the argument is extended. -/
theorem structs_pushArg (h : Heap) (s : StructId) (u : Value) (k : StructId) :
    (h.pushArg s u).structs[k]? =
      if k = s then (h.structs[k]?).map (extended [u]) else h.structs[k]? := by
  rw [Heap.pushArg, Array.getElem?_modify]
  by_cases hk : k = s
  · rw [if_pos hk, if_pos hk.symm]
    rfl
  · rw [if_neg hk, if_neg (Ne.symm hk)]

section One

variable {s : StructId} {u : Value} {e : Emitter}

/-- An instruction there that changes no flag does not stop the machine. -/
theorem Preparing.reaches (hp : Preparing c label f i m) (hblock : c.block? label = some block)
    (hi : block[i]? = some instr) (hroom : Room w 1 m)
    (heval : eval (execute w instr) (m.counted w instr) = (.ok (), m')) (hflags : Flags m m')
    (hactive : m.Active) : Reaches w m m' :=
  .single (hp.place.step hblock hi hroom hactive heval hflags)

/-- An instruction that passes an argument and makes no cell. -/
theorem Preparing.pushes (seen : List String) (hp : Preparing c label f i m)
    (hblock : c.block? label = some block) (hi : block[i]? = some instr) (hroom : Room w 1 m)
    (heval : eval (execute w instr) (m.counted w instr) =
      (.ok (), { m.counted w instr with heap := m.heap.pushArg s u })) :
    ∃ m', Constructs w c label f N seen seen i 1 [] [] m m' ∧ Pushes f s [u] m m' :=
  ⟨_, ⟨.one hp.place hblock hi hroom heval ⟨rfl, rfl, rfl, rfl, rfl, rfl, rfl⟩,
    .none (fun _ => rfl) rfl, rfl, fun _ _ _ => rfl, fun _ => rfl,
    hp.reaches hblock hi hroom heval ⟨rfl, rfl, rfl, rfl⟩⟩,
    ⟨rfl, rfl, structs_pushArg m.heap s u⟩⟩

/-- An instruction that passes a new cell without a name. -/
theorem Preparing.pushes_other (seen : List String) (hp : Preparing c label f i m)
    (hblock : c.block? label = some block) (hi : block[i]? = some instr) (hroom : Room w 1 m) {y : String}
    (heval : eval (execute w instr) (m.counted w instr) =
      (.ok (), { m.counted w instr with
        heap := (m.heap.fresh y).2.pushArg s (.var m.heap.vars.size) })) :
    ∃ m', Constructs w c label f N seen seen i 1 [] [m.heap.vars.size] m m' ∧
      Pushes f s [.var m.heap.vars.size] m m' :=
  ⟨_, ⟨.one hp.place hblock hi hroom heval ⟨rfl, rfl, rfl, rfl, rfl, rfl, rfl⟩,
    .other (fun _ => rfl) rfl, rfl, fun _ _ _ => rfl, fun _ => rfl,
    hp.reaches hblock hi hroom heval ⟨rfl, rfl, rfl, rfl⟩⟩,
    ⟨rfl, rfl, structs_pushArg (m.heap.fresh y).2 s _⟩⟩

/-- An instruction that passes a new cell for a name. -/
theorem Preparing.pushes_named {seen seen' : List String} (hp : Preparing c label f i m)
    (hblock : c.block? label = some block) (hi : block[i]? = some instr) (hroom : Room w 1 m)
    {y : String} (hN : x ∈ N)
    (hseen : ∀ z, z ∈ seen' ↔ z = x ∨ z ∈ seen) (hnew : x ∈ seen → m.value? x = none)
    (heval : eval (execute w instr) (m.counted w instr) =
      (.ok (), { (m.counted w instr).changeFrame m.current (·.put x (.var m.heap.vars.size)) with
        heap := (m.heap.fresh y).2.pushArg s (.var m.heap.vars.size) })) :
    ∃ m', Constructs w c label f N seen seen' i 1 [(x, m.heap.vars.size)] [] m m' ∧
      Pushes f s [.var m.heap.vars.size] m m' := by
  refine ⟨_, ⟨.one hp.place hblock hi hroom heval ⟨rfl, rfl, rfl, rfl, rfl, frames_size_changeFrame, rfl⟩,
    .named hN hseen hnew (fun z => ?_) rfl, rfl, fun f' hcurrent _ => ?_, fun f' => ?_,
    hp.reaches hblock hi hroom heval ⟨rfl, rfl, rfl, rfl⟩⟩, rfl, ?_,
    structs_pushArg (m.heap.fresh y).2 s _⟩
  · have hself : ((m.counted w instr).changeFrame m.current
        (·.put x (.var m.heap.vars.size))).frame m.current = (m.frame m.current).put x _ :=
      frame_changeFrame_self hp.current
    exact (congrArg (Frame.get? · z) hself).trans Frame.get?_put
  · exact frame_changeFrame_of_ne (m := m.counted w instr) hcurrent
  · exact fields_put (m := m.counted w instr) m.current f' x _
  · exact frame_changeFrame_of_ne (m := m.counted w instr) hp.other

/-- Passing a term that was not built before. -/
def PassesTerm (w : World) (c : Clause) (label : String) (f : FrameId) (N : Set String) (i : Nat)
    (s : StructId) (e e' : Emitter) (t : Term) (m : Machine) : Prop :=
  ∃ m' u news others, Constructs w c label f N e.seen e'.seen i 1 news others m m' ∧
    Pushes f s [u] m m' ∧
      ∀ h, Shows h (m'.known e'.seen) t (t.leafPattern e.compiler e.constants) u others

/-- A variable with a name. -/
theorem putArg_passes_named {id : Int} (hx : isAnonymous x = false) (hp : Preparing c label f i m)
    (hblock : c.block? label = some block) (hi : block[i]? = some ((putArg (.var x id)).eval e).1)
    (hroom : Room w 1 m) (hs : m.building = some s) (hmem : x ∈ N) (hN : isRegister x = false) :
    PassesTerm w c label f N i s e ((putArg (.var x id)).eval e).2 (.var x id) m := by
  -- Either way the argument is the value of the variable, and shows it as soon as the entry is there.
  have hshows : ∀ {m' : Machine} {u : Value} {seen' : List String}, x ∈ seen' → m'.value? x = some u →
      ∀ h, Shows h (m'.known seen') (.var x id)
        ((Term.var x id).leafPattern e.compiler e.constants) u [] := by
    intro m' u seen' hseen hu h
    have hknown : m'.known seen' x = some u := by rw [Machine.known, if_pos hseen, hu]
    have hnot : ¬ isAnonymous x = true := by simp [hx]
    refine ⟨?_, ?_⟩
    · rw [Denotes, if_neg hnot]
      exact ⟨hknown, rfl⟩
    · rw [leafPattern, if_neg hnot, Pattern.Depicts]
      exact ⟨hknown, rfl⟩
  by_cases hseen : x ∈ e.seen
  · -- A later occurrence passes the value, and makes a cell if there is none.
    rw [eval_putArg_again hx hseen] at hi ⊢
    have heval := eval_putValue_variable (m := m.counted w { op := .putValue, name := x })
      (i := { op := .putValue, name := x }) (isStructRegister_of_not_isRegister hN) hs
    cases hentry : m.value? x with
    | some u =>
      rw [valueOf_some (show (m.counted w _).value? x = some u from hentry)] at heval
      obtain ⟨m', hcon, hpush⟩ := hp.pushes (N := N) e.seen hblock hi hroom heval
      exact ⟨m', u, [], [], hcon, hpush, hshows hseen (hcon.makes.entry_of_notMem List.not_mem_nil ▸ hentry)⟩
    | none =>
      have hsame : ∀ z, z ∈ e.seen ↔ z = x ∨ z ∈ e.seen :=
        fun z => ⟨.inr, fun hz => hz.elim (fun heq => heq ▸ hseen) fun hmem => hmem⟩
      rw [valueOf_none (show (m.counted w _).value? x = none from hentry)] at heval
      obtain ⟨m', hcon, hpush⟩ := hp.pushes_named hblock hi hroom hmem hsame (fun _ => hentry) heval
      exact ⟨m', _, [_], [], hcon, hpush, hshows hseen (by simp [hcon.makes.entries])⟩
  · rw [eval_putArg_first hx hseen] at hi ⊢
    obtain ⟨m', hcon, hpush⟩ := hp.pushes_named hblock hi hroom hmem
      (fun z => List.mem_cons (b := x) (l := e.seen)) (fun h => absurd h hseen) (eval_putVar hs)
    exact ⟨m', _, [_], [], hcon, hpush, hshows List.mem_cons_self (by simp [hcon.makes.entries])⟩

/-- **One argument.** -/
theorem putArg_passes {t : Term} (ht : ¬ t.Compound) (hp : Preparing c label f i m)
    (hblock : c.block? label = some block) (hi : block[i]? = some ((putArg t).eval e).1)
    (hroom : Room w 1 m) (hs : m.building = some s) (hnames : ∀ x ∈ t.names, x ∈ N)
    (hN : ∀ x ∈ N, isRegister x = false) :
    PassesTerm w c label f N i s e ((putArg t).eval e).2 t m := by
  -- A constant is passed as it is.
  have hconst : ∀ (a : Atomic) (instr : Instruction), instr.constant = some ⟨a, .code e.compiler e.constants⟩ →
      execute w instr = putConst instr → block[i]? = some instr →
      ∃ m', Constructs w c label f N e.seen e.seen i 1 [] [] m m' ∧
        Pushes f s [.const ⟨a, .code e.compiler e.constants⟩] m m' := by
    intro a instr hc hexec hi
    exact hp.pushes e.seen hblock hi hroom
      (by rw [hexec, eval_putConst hc (show (m.counted w instr).building = some s from hs)]; rfl)
  match t with
  | .const a pos =>
    obtain ⟨m', hcon, hpush⟩ : ∃ m', Constructs w c label f N e.seen e.seen i 1 [] [] m m' ∧
        Pushes f s [.const ⟨a, .code e.compiler e.constants⟩] m m' := by
      cases a <;> exact hconst _ _ rfl rfl hi
    refine ⟨m', _, [], [], hcon, hpush, fun h => ⟨?_, ?_⟩⟩
    · rw [Denotes]
      exact ⟨_, rfl, rfl, rfl⟩
    · rw [leafPattern, Pattern.Depicts]
      exact ⟨rfl, rfl⟩
  | .app name [] attrs pos =>
    obtain ⟨m', hcon, hpush⟩ := hconst (.atom name) _ rfl rfl hi
    refine ⟨m', _, [], [], hcon, hpush, fun h => ⟨?_, ?_⟩⟩
    · rw [Denotes]
      exact .inl ⟨rfl, _, rfl, rfl, rfl⟩
    · rw [leafPattern, Pattern.Depicts]
      exact ⟨rfl, rfl⟩
  | .app name (a :: as) attrs pos => exact absurd trivial ht
  | .absent =>
    obtain ⟨m', hcon, hpush⟩ := hp.pushes_other (N := N) e.seen hblock hi hroom (eval_putVoid hs)
    refine ⟨m', _, [], [_], hcon, hpush, fun h => ⟨?_, ?_⟩⟩
    · rw [Denotes]
      exact ⟨_, rfl, rfl⟩
    · rw [leafPattern, Pattern.Depicts]
      exact ⟨_, rfl, rfl⟩
  | .var y id =>
    cases hy : isAnonymous y with
    | true =>
      rw [eval_putArg_anonymous hy] at hi ⊢
      obtain ⟨m', hcon, hpush⟩ := hp.pushes_other (N := N) e.seen hblock hi hroom (eval_putVoid hs)
      refine ⟨m', _, [], [_], hcon, hpush, fun h => ⟨?_, ?_⟩⟩
      · rw [Denotes, if_pos hy]
        exact ⟨_, rfl, rfl⟩
      · rw [leafPattern, if_pos hy, Pattern.Depicts]
        exact ⟨_, rfl, rfl⟩
    | false =>
      have hmem : y ∈ N := hnames y (by simp [Term.names, hy])
      exact putArg_passes_named hy hp hblock hi hroom hs hmem (hN y hmem)

end One

/-- The terms that have a register of their own, above number `low`, were built there as their patterns say;
    the list has the cells of their anonymous variables. -/
inductive Ready (h : Heap) (σ reg : String → Option Value) (low : Nat) :
    List Term → List (Option Pattern) → List (Option Nat) → List VarId → Prop where
  /-- No terms. -/
  | nil : Ready h σ reg low [] [] [] []
  /-- A structure. -/
  | built {t : Term} {ts : List Term} {p : Pattern} {ps : List (Option Pattern)} {r : Nat}
    {rs : List (Option Nat)} {u : Value} {vs ws : List VarId}
    (hlow : low < r) (hreg : reg (structRegister r) = some u) (ht : Shows h σ t p u vs)
    (hrest : Ready h σ reg low ts ps rs ws) :
    Ready h σ reg low (t :: ts) (some p :: ps) (some r :: rs) (vs ++ ws)
  /-- A term that is passed as it is. -/
  | later {t : Term} {ts : List Term} {ps : List (Option Pattern)} {rs : List (Option Nat)}
    {ws : List VarId} (ht : ¬ t.Compound) (hrest : Ready h σ reg low ts ps rs ws) :
    Ready h σ reg low (t :: ts) (none :: ps) (none :: rs) ws

theorem Ready.mono {h h' : Heap} {σ σ' reg reg' : String → Option Value} {low low' : Nat} {ts : List Term}
    {ps : List (Option Pattern)} {rs : List (Option Nat)} {ws : List VarId}
    (hr : Ready h σ reg low ts ps rs ws)
    (hh : ∀ (s : StructId) cell, h.structs[s]? = some cell → h'.structs[s]? = some cell)
    (hσ : ∀ x u, σ x = some u → σ' x = some u)
    (hreg : ∀ r, low < r → reg' (structRegister r) = reg (structRegister r)) (hlow : low' ≤ low) :
    Ready h' σ' reg' low' ts ps rs ws := by
  induction hr with
  | nil => exact .nil
  | built hr hu ht _ ih =>
    exact .built (Nat.lt_of_le_of_lt hlow hr) ((hreg _ hr).trans hu) (ht.mono hh hσ) ih
  | later ht _ ih => exact .later ht ih

/-- Patterns are there for the terms that have registers. -/
def Aligned (ps : List (Option Pattern)) (rs : List (Option Nat)) : Prop :=
  List.Forall₂ (fun (p : Option Pattern) (r : Option Nat) => p.isSome = r.isSome) ps rs

/-- One argument uses up a constant or none. -/
theorem numbers_putArg (t : Term) (e : Emitter) : ((putArg t).eval e).2.compiler = e.compiler ∧
    ((putArg t).eval e).2.constants = e.constants + t.leafConstants := by
  match t with
  | .var x id =>
    cases hx : isAnonymous x with
    | true =>
      rw [eval_putArg_anonymous hx]
      exact ⟨rfl, rfl⟩
    | false =>
      by_cases hseen : x ∈ e.seen
      · rw [eval_putArg_again hx hseen]
        exact ⟨rfl, rfl⟩
      · rw [eval_putArg_first hx hseen]
        exact ⟨rfl, rfl⟩
  | .const a pos => exact ⟨rfl, rfl⟩
  | .app name args attrs pos => exact ⟨rfl, rfl⟩
  | .absent => exact ⟨rfl, rfl⟩

/-- All arguments use up the constants that their patterns have. -/
theorem numbers_putArgs (ts : List Term) (places : List (Option Nat)) :
    ∀ (e : Emitter) (ps : List (Option Pattern)), Aligned ps places →
      ((putArgs ts places).eval e).2.compiler = e.compiler ∧
        ((putArgs ts places).eval e).2.constants = (argPatterns e.compiler e.constants ts ps).2 := by
  fun_induction putArgs ts places with
  | case1 t ts r rs ih =>
    intro e ps hps
    cases hps with
    | @cons p _ ps _ hp hps =>
      -- An argument that was built takes no number; it took its numbers when it was built.
      obtain ⟨p, rfl⟩ := Option.isSome_iff_exists.1 hp
      exact ih e ps hps
  | case2 t ts rs ih =>
    intro e ps hps
    cases hps with
    | @cons p _ ps _ hp hps =>
      obtain rfl := Option.isSome_eq_false_iff.1 hp |> Option.isNone_iff_eq_none.1
      obtain ⟨hcompiler, hconstants⟩ := numbers_putArg t e
      obtain ⟨hcompiler', hconstants'⟩ := ih ((putArg t).eval e).2 ps hps
      rw [hcompiler, hconstants] at hconstants'
      exact ⟨hcompiler'.trans hcompiler, hconstants'⟩
  | case3 ts places h₁ h₂ =>
    intro e ps hps
    refine ⟨rfl, ?_⟩
    cases ts with
    | nil => rfl
    | cons t ts =>
      cases hps with
      | nil => rfl
      | @cons p place ps places hp hps =>
        cases place with
        | some r => exact (h₁ t ts r places rfl rfl).elim
        | none => exact (h₂ t ts places rfl rfl).elim

/-- What passing the terms that are at hand comes to. -/
def FillsAll (w : World) (c : Clause) (label : String) (f : FrameId) (N : Set String) (i n : Nat)
    (s : StructId) (h : Heap) (ws : List VarId) (e e' : Emitter) (ts : List Term) (ps : List Pattern)
    (m : Machine) : Prop :=
  ∃ m' us vs news others, Constructs w c label f N e.seen e'.seen i n news others m m' ∧
    Pushes f s us m m' ∧ ShowsAll h (m'.known e'.seen) ts ps us vs ∧ vs.Perm (ws ++ others)

/-- **All arguments.**  The structures among them are taken from their registers. -/
theorem putArgs_fills {s : StructId} {h : Heap} {low : Nat} (hblock : c.block? label = some block)
    (hN : ∀ x ∈ N, isRegister x = false) (ts : List Term) (places : List (Option Nat)) :
    ∀ {e : Emitter} {i : Nat} {m : Machine} {ps : List (Option Pattern)} {ws : List VarId},
      Preparing c label f i m →
      Segment block i ((putArgs ts places).eval e).1 → Room w ((putArgs ts places).eval e).1.length m →
      m.building = some s → (∀ x ∈ namesAll ts, x ∈ N) →
      Ready h (m.known e.seen) (m.frame f).get? low ts ps places ws →
      FillsAll w c label f N i ((putArgs ts places).eval e).1.length s h ws e
        ((putArgs ts places).eval e).2 ts (argPatterns e.compiler e.constants ts ps).1 m := by
  fun_induction putArgs ts places with
  | case1 t ts r rs ih =>
    intro e i m ps ws hp hcode hroom hs hnames hready
    simp only [Emit.eval_bind, Emit.eval_pure] at hcode hroom ⊢
    cases hready with
    -- The argument was built before, and its register is passed.
    | @built _ _ q ps _ _ u vs ws _ hreg ht hrest =>
      have hput : eval (execute w { op := .putValue, name := structRegister r })
          (m.counted w { op := .putValue, name := structRegister r }) = (.ok (), { m.counted w _ with
            heap := m.heap.pushArg s u }) :=
        eval_putValue_register (isStructRegister_structRegister r) hs hp.target hreg
      obtain ⟨m₁, hcon₁, hpush₁⟩ := hp.pushes (N := N) e.seen hblock hcode.head
        (hroom.mono (by simp)) hput
      have hready₁ : Ready h (m₁.known e.seen) (m₁.frame f).get? low ts ps rs ws :=
        hrest.mono (fun _ _ hcell => hcell) (fun _ _ hx => hcon₁.makes.known hx)
          (fun r _ => by rw [hpush₁.frame]) le_rfl
      obtain ⟨m', us, vs', news, others, hcon, hpush, hshows, hperm⟩ := ih (hcon₁.preparing hp) hcode.tail
        (hroom.mono (by rw [hcon₁.passes.steps]; simp; omega)) (hpush₁.building.trans hs)
        (fun x hx => hnames x (List.mem_append_right _ hx)) hready₁
      refine ⟨m', u :: us, vs ++ vs', news, others, ?_, hpush₁.trans hpush, ?_, ?_⟩
      · rw [List.length_cons, Nat.add_comm]
        exact hcon₁.trans hcon
      · exact .cons
          (ht.mono (fun _ _ hcell => hcell) fun _ _ hx => hcon.makes.known (hcon₁.makes.known hx)) hshows
      · rw [List.append_assoc]
        exact hperm.append_left vs
  | case2 t ts rs ih =>
    intro e i m ps ws hp hcode hroom hs hnames hready
    simp only [Emit.eval_bind, Emit.eval_pure] at hcode hroom ⊢
    cases hready with
    -- Any other argument is passed by itself; its cells come before those of the later arguments.
    | @later _ _ ps _ _ ht hrest =>
      obtain ⟨m₁, u, news₁, vs, hcon₁, hpush₁, hu⟩ := putArg_passes ht hp hblock hcode.head
        (hroom.mono (by simp)) hs (fun x hx => hnames x (List.mem_append_left _ hx)) hN
      have hready₁ : Ready h (m₁.known ((putArg t).eval e).2.seen) (m₁.frame f).get? low ts ps rs ws :=
        hrest.mono (fun _ _ hcell => hcell) (fun _ _ hx => hcon₁.makes.known hx)
          (fun r _ => by rw [hpush₁.frame]) le_rfl
      obtain ⟨m', us, vs', news, others, hcon, hpush, hshows, hperm⟩ := ih (hcon₁.preparing hp) hcode.tail
        (hroom.mono (by rw [hcon₁.passes.steps]; simp; omega)) (hpush₁.building.trans hs)
        (fun x hx => hnames x (List.mem_append_right _ hx)) hready₁
      refine ⟨m', u :: us, vs ++ vs', news₁ ++ news, vs ++ others, ?_, hpush₁.trans hpush, ?_, ?_⟩
      · rw [List.length_cons, Nat.add_comm]
        exact hcon₁.trans hcon
      · obtain ⟨hcompiler, hconstants⟩ := numbers_putArg t e
        rw [hcompiler, hconstants] at hshows
        exact .cons ((hu h).mono (fun _ _ hcell => hcell) fun _ _ hx => hcon.makes.known hx) hshows
      · have hswap : (vs ++ (ws ++ others)).Perm (ws ++ (vs ++ others)) := by
          rw [← List.append_assoc, ← List.append_assoc]
          exact List.perm_append_comm.append_right others
        exact (hperm.append_left vs).trans hswap
  | case3 ts places h₁ h₂ =>
    intro e i m ps ws hp _ _ _ _ hready
    simp only [Emit.eval_pure, List.length_nil]
    cases hready with
    | nil => exact ⟨m, [], [], [], [], .zero hp.place, .nil, .nil, .nil⟩
    | built => exact (h₁ _ _ _ _ rfl rfl).elim
    | later => exact (h₂ _ _ _ rfl rfl).elim

/-! ## §6. Building structures. -/

/-- Passing an argument takes no register. -/
theorem registers_putArg (t : Term) (e : Emitter) : ((putArg t).eval e).2.registers = e.registers := by
  match t with
  | .var x id =>
    cases hx : isAnonymous x with
    | true => rw [eval_putArg_anonymous hx]
    | false =>
      by_cases hseen : x ∈ e.seen
      · rw [eval_putArg_again hx hseen]
      · rw [eval_putArg_first hx hseen]
  | .const a pos => rfl
  | .app name args attrs pos => rfl
  | .absent => rfl

/-- Passing several takes none either. -/
theorem registers_putArgs (ts : List Term) (places : List (Option Nat)) :
    ∀ e : Emitter, ((putArgs ts places).eval e).2.registers = e.registers := by
  fun_induction putArgs ts places with
  | case1 t ts r rs ih => exact ih
  | case2 t ts rs ih => exact fun e => (ih _).trans (registers_putArg t e)
  | case3 => exact fun e => rfl

/-- A structure is started in a register of the frame `f`. -/
theorem Preparing.starts (seen : List String) (hp : Preparing c label f i m)
    (hblock : c.block? label = some block) {name : String} {arity r : Nat}
    (hi : block[i]? = some (putStruct name arity r)) (hroom : Room w 1 m) :
    ∃ m', Constructs w c label f N seen seen i 1 [] [] m m' ∧ m'.building = some m.heap.structs.size ∧
      m'.heap.structs = m.heap.structs.push ⟨name, [], .none⟩ ∧
      ∀ x, (m'.frame f).get? x =
        if x = structRegister r then some (.struct m.heap.structs.size) else (m.frame f).get? x := by
  have heval := eval_putStruct (m := m.counted w (putStruct name arity r)) (i := putStruct name arity r)
    hp.target
  refine ⟨_, ⟨.one hp.place hblock hi hroom heval ⟨rfl, rfl, rfl, rfl, rfl, frames_size_changeFrame, rfl⟩,
    .none (fun x => ?_) rfl, rfl, fun f' _ hf' => ?_, fun f' => ?_,
    hp.reaches hblock hi hroom heval ⟨rfl, rfl, rfl, rfl⟩⟩, rfl, rfl, fun x => ?_⟩
  · exact congrArg (Frame.get? · x)
      (frame_changeFrame_of_ne (m := m.counted w (putStruct name arity r)) (Ne.symm hp.other))
  · exact frame_changeFrame_of_ne (m := m.counted w (putStruct name arity r)) hf'
  · exact fields_put (m := m.counted w (putStruct name arity r)) f f' _ _
  · have hself : ((m.counted w (putStruct name arity r)).changeFrame f (·.put (structRegister r)
        (.struct m.heap.structs.size))).frame f = (m.frame f).put (structRegister r) _ :=
      frame_changeFrame_self hp.frame
    exact (congrArg (Frame.get? · x) hself).trans Frame.get?_put

/-- What building a structure with the arguments at hand comes to: the structure is in its register, and its
    arguments are the terms. -/
structure Built (f : FrameId) (seen : List String) (name : String) (ts : List Term) (ps : List Pattern)
    (r : Nat) (vs : List VarId) (m m' : Machine) : Prop where
  /-- The structure. -/
  structure_eq : ∃ us, (m'.frame f).get? (structRegister r) = some (.struct m.heap.structs.size) ∧
    m'.heap.structs[m.heap.structs.size]? = some ⟨name, us, .none⟩ ∧
    ShowsAll m'.heap (m'.known seen) ts ps us vs
  /-- Structures that were there stay. -/
  structs : ∀ (s : StructId) cell, m.heap.structs[s]? = some cell → m'.heap.structs[s]? = some cell
  /-- Other registers stay. -/
  registers : ∀ x, x ≠ structRegister r → (m'.frame f).get? x = (m.frame f).get? x

/-- **A structure is started and its arguments are passed.** -/
theorem putStruct_builds (hblock : c.block? label = some block) (hN : ∀ x ∈ N, isRegister x = false)
    {name : String} {ts : List Term} {ps : List (Option Pattern)} {places : List (Option Nat)} {r : Nat}
    {e : Emitter} {ws : List VarId} (hp : Preparing c label f i m)
    (hcode : Segment block i (putStruct name ts.length r :: ((putArgs ts places).eval e).1))
    (hroom : Room w (((putArgs ts places).eval e).1.length + 1) m) (hnames : ∀ x ∈ namesAll ts, x ∈ N)
    {low : Nat} (hr : r ≤ low)
    (hready : Ready m.heap (m.known e.seen) (m.frame f).get? low ts ps places ws) :
    ∃ m' vs news others, Constructs w c label f N e.seen ((putArgs ts places).eval e).2.seen i
        (((putArgs ts places).eval e).1.length + 1) news others m m' ∧
      Built f ((putArgs ts places).eval e).2.seen name ts (argPatterns e.compiler e.constants ts ps).1 r vs
        m m' ∧ vs.Perm (ws ++ others) := by
  obtain ⟨m₁, hcon₁, hbuilding, hstructs, hregs⟩ :=
    hp.starts (N := N) e.seen hblock hcode.head (hroom.mono (by omega))
  have hkeeps : ∀ (s : StructId) cell, m.heap.structs[s]? = some cell → m₁.heap.structs[s]? = some cell := by
    intro s cell hcell
    have hlt : s < m.heap.structs.size := (Array.getElem?_eq_some_iff.1 hcell).1
    have hne : s ≠ m.heap.structs.size := Nat.ne_of_lt hlt
    rw [hstructs, Array.getElem?_push, if_neg hne, hcell]
  -- The new structure has a register of its own, so the arguments that were built are still found.
  have hready₁ : Ready m.heap (m₁.known e.seen) (m₁.frame f).get? low ts ps places ws := by
    refine hready.mono (fun _ _ hcell => hcell) (fun _ _ hx => hcon₁.makes.known hx) (fun k hk => ?_) le_rfl
    rw [hregs, if_neg]
    rw [structRegister_inj]
    omega
  obtain ⟨m', us, vs, news, others, hcon, hpush, hshows, hperm⟩ := putArgs_fills hblock hN ts places
    (hcon₁.preparing hp) hcode.tail (hroom.mono (by rw [hcon₁.passes.steps]; omega)) hbuilding hnames hready₁
  have hsame : ∀ (s : StructId) cell, m.heap.structs[s]? = some cell → m'.heap.structs[s]? = some cell := by
    intro s cell hcell
    have hlt : s < m.heap.structs.size := (Array.getElem?_eq_some_iff.1 hcell).1
    rw [hpush.structs_of_ne (Nat.ne_of_lt hlt), hkeeps s cell hcell]
  refine ⟨m', vs, news, others, ?_, ⟨⟨us, ?_, ?_, ?_⟩, hsame, fun x hx => ?_⟩, hperm⟩
  · rw [Nat.add_comm]
    exact hcon₁.trans hcon
  · rw [hpush.frame, hregs, if_pos rfl]
  · rw [hpush.structs, if_pos rfl, hstructs, Array.getElem?_push_size]
    rfl
  · exact hshows.mono hsame fun _ _ hx => hx
  · rw [hpush.frame, hregs, if_neg hx]

/-- The structures among terms use up the constants that their patterns have. -/
theorem numbers_buildNested (ts : List Term) : ∀ e : Emitter,
    ((buildNested ts).eval e).2.compiler = e.compiler ∧
      ((buildNested ts).eval e).2.constants = (nestedPatterns e.compiler e.constants ts).2 ∧
      Aligned (nestedPatterns e.compiler e.constants ts).1 ((buildNested ts).eval e).1.2 := by
  fun_induction buildNested ts with
  | case1 =>
    intro e
    rw [nestedPatterns_nil]
    exact ⟨rfl, rfl, .nil⟩
  | case2 name a as attrs pos ts ihBelow ihRest =>
    intro e
    simp only [Emit.eval_bind, Emit.eval_newRegister, Emit.eval_pure]
    -- Registers do not matter for the numbers of constants.
    let e₁ : Emitter := { e with registers := e.registers + 1 }
    let b := (buildNested (a :: as)).eval e₁
    obtain ⟨hcompiler₁, hconstants₁, haligned₁⟩ := ihBelow e₁
    obtain ⟨hcompiler₂, hconstants₂⟩ := numbers_putArgs (a :: as) b.1.2 b.2 _ haligned₁
    obtain ⟨hcompiler₃, hconstants₃, haligned₃⟩ := ihRest ((putArgs (a :: as) b.1.2).eval b.2).2
    rw [hcompiler₁, hconstants₁] at hconstants₂
    rw [hcompiler₂, hcompiler₁, hconstants₂] at hconstants₃ haligned₃
    rw [nestedPatterns_structure]
    exact ⟨hcompiler₃.trans (hcompiler₂.trans hcompiler₁), hconstants₃, .cons rfl haligned₃⟩
  | case3 t ts hnot ih =>
    intro e
    obtain ⟨hcompiler, hconstants, haligned⟩ := ih e
    simp only [Emit.eval_bind, Emit.eval_pure]
    rw [nestedPatterns_other hnot]
    exact ⟨hcompiler, hconstants, .cons rfl haligned⟩

/-- The structures among terms were built in registers of their own. -/
structure Readies (f : FrameId) (e e' : Emitter) (ts : List Term) (places : List (Option Nat))
    (others : List VarId) (m m' : Machine) : Prop where
  /-- Structures that were there stay. -/
  structs : ∀ (s : StructId) cell, m.heap.structs[s]? = some cell → m'.heap.structs[s]? = some cell
  /-- So do the registers that were handed out before. -/
  registers : ∀ r ≤ e.registers,
    (m'.frame f).get? (structRegister r) = (m.frame f).get? (structRegister r)
  /-- Registers are handed out in order. -/
  grows : e.registers ≤ e'.registers
  /-- The terms are at hand. -/
  ready : Ready m'.heap (m'.known e'.seen) (m'.frame f).get? e.registers ts
    (nestedPatterns e.compiler e.constants ts).1 places others

/-- **Nested structures are built before they are passed.** -/
theorem buildNested_readies (hblock : c.block? label = some block) (hN : ∀ x ∈ N, isRegister x = false)
    (ts : List Term) : ∀ {e : Emitter} {i : Nat} {m : Machine}, Preparing c label f i m →
      Segment block i ((buildNested ts).eval e).1.1 → Room w ((buildNested ts).eval e).1.1.length m →
      (∀ x ∈ namesAll ts, x ∈ N) →
      ∃ m' news others, Constructs w c label f N e.seen ((buildNested ts).eval e).2.seen i
          ((buildNested ts).eval e).1.1.length news others m m' ∧
        Readies f e ((buildNested ts).eval e).2 ts ((buildNested ts).eval e).1.2 others m m' := by
  fun_induction buildNested ts with
  | case1 =>
    intro e i m hp _ _ _
    refine ⟨m, [], [], .zero hp.place, ⟨fun _ _ h => h, fun _ _ => rfl, le_rfl, ?_⟩⟩
    rw [nestedPatterns_nil]
    exact .nil
  | case2 name a as attrs pos ts ihBelow ihRest =>
    intro e i m hp hcode hroom hnames
    simp only [Emit.eval_bind, Emit.eval_newRegister, Emit.eval_pure] at hcode hroom ⊢
    let e₁ : Emitter := { e with registers := e.registers + 1 }
    let b := (buildNested (a :: as)).eval e₁
    let p := (putArgs (a :: as) b.1.2).eval b.2
    let d := (buildNested ts).eval p.2
    let start := putStruct name (a :: as).length (e.registers + 1)
    change Segment block i (b.1.1 ++ start :: p.1 ++ d.1.1) at hcode
    change Room w (b.1.1 ++ start :: p.1 ++ d.1.1).length m at hroom
    have hlength : (b.1.1 ++ start :: p.1 ++ d.1.1).length =
        b.1.1.length + (p.1.length + 1) + d.1.1.length := by
      simp only [List.length_append, List.length_cons]
    rw [hlength] at hroom
    -- First what is inside, then the structure itself, then the terms behind it.
    have hroom₁ : Room w b.1.1.length m := hroom.mono (by omega)
    obtain ⟨m₁, news₁, others₁, hcon₁, hbelow⟩ := ihBelow (e := e₁) hp hcode.left.left hroom₁
      (fun x hx => hnames x (List.mem_append_left _ hx))
    have hsteps₁ : m₁.steps = m.steps + b.1.1.length := hcon₁.passes.steps
    have hroom₂ : Room w (p.1.length + 1) m₁ := hroom.mono (by omega)
    obtain ⟨m₂, vs, news₂, others₂, hcon₂, hbuilt, hperm⟩ := putStruct_builds hblock hN
      (hcon₁.preparing hp) hcode.left.right hroom₂
      (fun x hx => hnames x (List.mem_append_left _ hx)) le_rfl hbelow.ready
    have hcon₁₂ := hcon₁.trans hcon₂
    have hcode₃ : Segment block (i + (b.1.1.length + (p.1.length + 1))) d.1.1 := by
      have hright := hcode.right
      rwa [List.length_append, List.length_cons] at hright
    have hsteps₂ : m₂.steps = m.steps + (b.1.1.length + (p.1.length + 1)) := hcon₁₂.passes.steps
    have hroom₃ : Room w d.1.1.length m₂ := hroom.mono (by omega)
    obtain ⟨m', news₃, others₃, hcon₃, hrest⟩ := ihRest (e := p.2) (hcon₁₂.preparing hp) hcode₃ hroom₃
      (fun x hx => hnames x (List.mem_append_right _ hx))
    obtain ⟨us, hreg, hcell, hshows⟩ := hbuilt.structure_eq
    have hregs : e.registers + 1 ≤ p.2.registers :=
      (hbelow.grows : e.registers + 1 ≤ b.2.registers).trans_eq (registers_putArgs _ _ _).symm
    have hregister : (m'.frame f).get? (structRegister (e.registers + 1)) =
        some (.struct m₁.heap.structs.size) := by
      rw [hrest.registers _ hregs, hreg]
    have hterm : Shows m'.heap (m'.known d.2.seen) (.app name (a :: as) attrs pos)
        (.struct name (argPatterns b.2.compiler b.2.constants (a :: as)
          (nestedPatterns e.compiler e.constants (a :: as)).1).1) (.struct m₁.heap.structs.size) vs :=
      .structure (List.cons_ne_nil _ _) (hrest.structs _ _ hcell)
        (hshows.mono hrest.structs fun _ _ hx => hcon₃.makes.known hx)
    have hready : Ready m'.heap (m'.known d.2.seen) (m'.frame f).get? e.registers ts
        (nestedPatterns p.2.compiler p.2.constants ts).1 d.1.2 others₃ :=
      hrest.ready.mono (fun _ _ h => h) (fun _ _ h => h) (fun _ _ => rfl) (Nat.le_of_succ_le hregs)
    obtain ⟨hcompiler₁, hconstants₁, haligned₁⟩ := numbers_buildNested (a :: as) e₁
    obtain ⟨hcompiler₂, hconstants₂⟩ := numbers_putArgs (a :: as) b.1.2 b.2 _ haligned₁
    rw [show b.2.compiler = e.compiler from hcompiler₁, show b.2.constants = _ from hconstants₁] at hterm
    rw [hcompiler₁, hconstants₁] at hconstants₂
    rw [show p.2.compiler = e.compiler from hcompiler₂.trans hcompiler₁,
      show p.2.constants = _ from hconstants₂] at hready
    refine ⟨m', _, vs ++ others₃, hlength ▸ (hcon₁₂.trans hcon₃).perm (hperm.symm.append_right others₃), ?_⟩
    refine ⟨fun s cell hs => hrest.structs s cell (hbuilt.structs s cell (hbelow.structs s cell hs)),
      fun r hr => ?_, (Nat.le_of_succ_le hregs).trans hrest.grows, ?_⟩
    swap
    · rw [nestedPatterns_structure]
      exact .built (Nat.lt_succ_self _) hregister hterm hready
    have hne : structRegister r ≠ structRegister (e.registers + 1) := by
      rw [Ne, structRegister_inj]
      omega
    rw [hrest.registers r (by omega), hbuilt.registers _ hne, hbelow.registers r (Nat.le_succ_of_le hr)]
  | case3 t ts hnot ih =>
    intro e i m hp hcode hroom hnames
    simp only [Emit.eval_bind, Emit.eval_pure] at hcode hroom ⊢
    obtain ⟨m', news, others, hcon, hrest⟩ := ih hp hcode hroom
      (fun x hx => hnames x (List.mem_append_right _ hx))
    have ht : ¬ t.Compound := by
      intro ht
      cases t with
      | app name args attrs pos =>
        cases args with
        | nil => exact ht
        | cons a as => exact hnot name a as attrs pos rfl
      | _ => exact ht
    refine ⟨m', news, others, hcon, ⟨hrest.structs, hrest.registers, hrest.grows, ?_⟩⟩
    rw [nestedPatterns_other hnot]
    exact .later ht hrest.ready

/-! ## §7. Goals. -/

/-- The machine `m'` is `m` with the goal in register `$x0` of the frame `f`.  New cells were made for the
    names in `news`, and `others` for anonymous variables; the compiler had met the names `seen`. -/
structure Rebuilt (g : Goal) (seen : List String) (f : FrameId) (news : List (String × VarId))
    (others : List VarId) (m m' : Machine) : Prop where
  /-- The goal, in which a name stands for the cell that the clause has for it. -/
  goal : ∃ s us, (m'.frame f).get? "$x0" = some (.struct s) ∧
    m'.heap.structs[s]? = some ⟨g.name, us, .none⟩ ∧ DenotesAll m'.heap m'.value? g.args us others
  /-- A name of the goal gets a new cell, unless it was met before and has a value. -/
  renewed : ∀ x, x ∈ news.map Prod.fst ↔ x ∈ namesAll g.args ∧ ¬ (x ∈ seen ∧ (m.value? x).isSome)
  /-- The clause has the new cells as values, and no other value changes. -/
  entries : ∀ x, m'.value? x = ((news.lookup x).map Value.var).or (m.value? x)
  /-- No name has two new cells. -/
  names : (news.map Prod.fst).Nodup
  /-- All new cells are different. -/
  distinct : (news.map Prod.snd ++ others).Nodup
  /-- They are new and unbound. -/
  new : ∀ v ∈ news.map Prod.snd ++ others,
    m.heap.vars.size ≤ v ∧ v < m'.heap.vars.size ∧ m'.heap.binding? v = none
  /-- Cells that were there are what they were. -/
  vars : ∀ v < m.heap.vars.size, m'.heap.vars[v]? = m.heap.vars[v]?
  /-- So are structures. -/
  structs : ∀ (s : StructId) cell, m.heap.structs[s]? = some cell → m'.heap.structs[s]? = some cell
  /-- So are other frames. -/
  frames : ∀ f', f' ≠ m.current → f' ≠ f → m'.frame f' = m.frame f'
  /-- The frames of the clause and of the call change in their variables only. -/
  fields : ∀ f', { m'.frame f' with vars := [] } = { m.frame f' with vars := [] }

/-- The names with new cells are those of the goal that were not met before or have no value. -/
theorem Constructs.renewed {g : Goal}
    (h : Constructs w c label f {x | x ∈ namesAll g.args} seen seen' i n news others m m')
    {us : List Value} (hdenotes : DenotesAll m'.heap (m'.known seen') g.args us others') (x : String) :
    x ∈ news.map Prod.fst ↔ x ∈ namesAll g.args ∧ ¬ (x ∈ seen ∧ (m.value? x).isSome) := by
  constructor
  · intro hx
    exact ⟨(h.makes.noted x hx).2, fun hknown => h.makes.kept x hknown.1 hknown.2 hx⟩
  · rintro ⟨hx, hnot⟩
    have hsome := hdenotes.names x hx
    unfold Machine.known at hsome
    split at hsome
    · next hseen =>
      by_cases hbefore : x ∈ seen
      · by_contra hmem
        rw [h.makes.entry_of_notMem hmem] at hsome
        exact hnot ⟨hbefore, hsome⟩
      · exact h.makes.first x hseen hbefore
    · exact absurd hsome (by simp)

/-- A goal uses up the constants that its pattern has. -/
theorem numbers_buildGoal (g : Goal) (e : Emitter) :
    ((buildGoal g).eval e).2.compiler = e.compiler ∧
      ((buildGoal g).eval e).2.constants = g.nextConstant e.compiler e.constants := by
  let e₁ : Emitter := { e with registers := 0 }
  let b := (buildNested g.args).eval e₁
  obtain ⟨hcompiler₁, hconstants₁, haligned⟩ := numbers_buildNested g.args e₁
  obtain ⟨hcompiler₂, hconstants₂⟩ := numbers_putArgs g.args b.1.2 b.2 _ haligned
  rw [hcompiler₁, hconstants₁] at hconstants₂
  exact ⟨hcompiler₂.trans hcompiler₁, hconstants₂⟩

/-- Register `$x0` of the frame `f` has the goal with the constants of its code. -/
def Depicted (g : Goal) (e : Emitter) (f : FrameId) (others : List VarId) (m : Machine) : Prop :=
  ∃ u, (m.frame f).get? "$x0" = some u ∧ (g.pattern e.compiler e.constants).Depicts m.heap
    (m.known ((buildGoal g).eval e).2.seen) u others

/-- The code of a goal constructs it: first the structures inside, then the goal itself. -/
theorem buildGoal_rebuilds {g : Goal} {e : Emitter} (hnames : ∀ x ∈ namesAll g.args, isRegister x = false)
    (hblock : c.block? label = some block) (hcode : Segment block i ((buildGoal g).eval e).1)
    (hp : Preparing c label f i m) (hroom : Room w ((buildGoal g).eval e).1.length m) :
    ∃ m' news others, Constructs w c label f {x | x ∈ namesAll g.args} e.seen
        ((buildGoal g).eval e).2.seen i ((buildGoal g).eval e).1.length news others m m' ∧
      Rebuilt g e.seen f news others m m' ∧ Depicted g e f others m' := by
  let e₁ : Emitter := { e with registers := 0 }
  let b := (buildNested g.args).eval e₁
  let p := (putArgs g.args b.1.2).eval b.2
  change Segment block i (b.1.1 ++ putStruct g.name g.args.length 0 :: p.1) at hcode
  change Room w (b.1.1 ++ putStruct g.name g.args.length 0 :: p.1).length m at hroom
  have hlength : (b.1.1 ++ putStruct g.name g.args.length 0 :: p.1).length =
      b.1.1.length + (p.1.length + 1) := by
    simp only [List.length_append, List.length_cons]
  rw [hlength] at hroom
  have hroom₁ : Room w b.1.1.length m := hroom.mono (by omega)
  obtain ⟨m₁, news₁, others₁, hcon₁, hbelow⟩ := buildNested_readies (N := {x | x ∈ namesAll g.args}) hblock
    hnames g.args (e := e₁) hp hcode.left hroom₁ (fun _ hx => hx)
  have hsteps₁ : m₁.steps = m.steps + b.1.1.length := hcon₁.passes.steps
  have hroom₂ : Room w (p.1.length + 1) m₁ := hroom.mono (by omega)
  obtain ⟨m', vs, news₂, others₂, hcon₂, hbuilt, hperm⟩ := putStruct_builds hblock hnames
    (hcon₁.preparing hp) hcode.right hroom₂ (fun _ hx => hx) le_rfl hbelow.ready
  obtain ⟨us, hreg, hcell, hshows⟩ := hbuilt.structure_eq
  have hdenotes := hshows.denotes
  -- The cells of the goal are those of its structures and those of its arguments.
  have hcon := (hcon₁.trans hcon₂).perm hperm.symm
  have hentries : ∀ x u, m'.known p.2.seen x = some u → m'.value? x = some u := by
    intro x u hx
    unfold Machine.known at hx
    split at hx
    · exact hx
    · exact absurd hx (by simp)
  have hdepicted : Depicted g e f vs m' := by
    obtain ⟨hcompiler, hconstants, -⟩ := numbers_buildNested g.args e₁
    have hdepicts := hshows.depicts
    rw [hcompiler, hconstants] at hdepicts
    refine ⟨_, hreg, ?_⟩
    rw [Goal.pattern, Pattern.Depicts]
    exact ⟨_, us, rfl, hcell, hdepicts⟩
  refine ⟨m', news₁ ++ news₂, vs, hlength ▸ hcon, ?_, hdepicted⟩
  exact {
    goal := ⟨_, us, hreg, hcell, hdenotes.mono (fun _ _ h => h) hentries⟩
    renewed := hcon.renewed hdenotes
    entries := hcon.makes.entries
    names := hcon.makes.names
    distinct := hcon.makes.distinct
    new := fun v hv => ⟨(hcon.makes.new v hv).1, (hcon.makes.new v hv).2,
      (hcon.makes.bindings v).trans (Heap.binding?_eq_none (hcon.makes.new v hv).1)⟩
    vars := hcon.makes.vars
    structs := fun s cell hs => hbuilt.structs s cell (hbelow.structs s cell hs)
    frames := hcon.frames
    fields := hcon.fields }

/-- **The code of a goal rebuilds the goal.**  Run with a frame `f` allocated for the call, it leaves in
    `$x0` of that frame the goal, with the cell that the clause has for each name, a new cell for each
    anonymous variable, and atoms for compounds without arguments.  Nothing is bound. -/
theorem goal_rebuilt {g : Goal} {e : Emitter} (hnames : ∀ x ∈ namesAll g.args, isRegister x = false)
    (hblock : c.block? label = some block) (hcode : Segment block i ((buildGoal g).eval e).1)
    (hp : Preparing c label f i m) (hroom : Room w ((buildGoal g).eval e).1.length m) :
    ∃ m' news others, Passes w c label i ((buildGoal g).eval e).1.length m m' ∧
      Rebuilt g e.seen f news others m m' := by
  obtain ⟨m', news, others, hcon, hrebuilt, -⟩ := buildGoal_rebuilds hnames hblock hcode hp hroom
  exact ⟨m', news, others, hcon.passes, hrebuilt⟩

/-- The state just behind an `allocate`. -/
theorem preparing_allocate (h : At c label i m) (hblock : c.block? label = some block)
    (hi : block[i]? = some { op := .allocate }) (hroom : Room w 1 m) (hcurrent : m.current < m.frames.size) :
    Preparing c label m.frames.size (i + 1) (m.advance w) := by
  have hadvance : m.advance w = (m.counted w { op := .allocate }).pushed := h.advance_eq hblock hi hroom
  have hsize : (m.counted w { op := .allocate }).pushed.frames.size = m.frames.size + 1 := Array.size_push _
  rw [hadvance]
  have hcounted : At c label (i + 1) (m.counted w { op := .allocate }) := h.counted
  refine ⟨⟨hcounted.code, hcounted.label, hcounted.index⟩, rfl, Nat.ne_of_gt hcurrent, ?_, ?_⟩
  · rw [hsize]
    exact Nat.lt_succ_self _
  · rw [hsize]
    exact Nat.lt_succ_of_lt hcurrent

/-- The goal `q(f(X, g(Y)), _, h(Y, X))`; the anonymous variable has the name that a reader gives it. -/
def sharing : Goal where
  name := "q"
  args := [.app "f" [.var "X" 0, .app "g" [.var "Y" 0] .none 0] .none 0, .var "_#0" 0,
    .app "h" [.var "Y" 0, .var "X" 0] .none 0]
  attrs := .none
  position := 0

/-- A clause whose body calls it, where `X` occurred before. -/
def sharingCaller : Clause :=
  ⟨⟨"p", 1⟩, [("g0", { op := .allocate } ::
    ((buildGoal sharing).eval { compiler := 0, constants := 0, seen := ["X"] }).1)], false, []⟩

/-- A machine about to call it, with the variable cell 0 for `X`. -/
def sharingCall : Machine where
  heap := { vars := #[⟨"X", 1, none⟩], structs := #[], constants := 0, numbered := 1 }
  code := some sharingCaller
  label := "g0"
  frames := #[{ position := 0, vars := [("X", .var 0)] }]
  stack := #[0]

/-- The goal is rebuilt with the cell for `X`, one new cell for both occurrences of `Y`, and one more for
    the anonymous variable. -/
theorem goal_rebuilt_sharing :
    let e : Emitter := { compiler := 0, constants := 0, seen := ["X"] }
    ∃ m' news others, Passes {} sharingCaller "g0" 1 ((buildGoal sharing).eval e).1.length
        (sharingCall.advance {}) m' ∧
      Rebuilt sharing ["X"] 1 news others (sharingCall.advance {}) m' := by
  intro e
  have hnames : ∀ x ∈ namesAll sharing.args, isRegister x = false := by decide
  have hcode : Segment ({ op := .allocate } :: ((buildGoal sharing).eval e).1) 1
      ((buildGoal sharing).eval e).1 :=
    ⟨[], (List.append_nil _).symm⟩
  have hp : Preparing sharingCaller "g0" 1 1 (sharingCall.advance {}) :=
    preparing_allocate (w := {}) (m := sharingCall) (i := 0) ⟨rfl, rfl, rfl⟩ rfl rfl
      (fun hpos => absurd hpos (by decide)) (by decide)
  exact goal_rebuilt hnames rfl hcode hp fun hpos => absurd hpos (by decide)

end Machine

end PrologMachine
