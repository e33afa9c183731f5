/-
  PrologMachine.Proofs.Renumbering.Heap ── **HEAPS UP TO THE NUMBERS OF A COMPILER.**

  A compiler numbers the auxiliary predicates and the constants that it makes.  Two searches for the
  answers of one question whose code was compiled at different times differ in these numbers, and in
  nothing else: their heaps have the same cells.

    * `Renumbering`: which number of one compilation stands for which of the other.
    * `Renumbering.Heaps`: heaps that are the same up to these numbers.  Only the goals of calls may
      have different names, so the structures that terms are made of are told apart from them.
    * `Heaps.unify`, `Heaps.compare`, `Heaps.text`: unification and comparison have one outcome and
      terms have one text in both.
-/
import PrologMachine.Code.Clause
import PrologMachine.Heap.Binding
import PrologMachine.Heap.Unify
import PrologMachine.Proofs.Heap.Change

namespace PrologMachine

/-! ## §1. Names and constants. -/

/-- The auxiliary predicates and constants of one compilation and those of another, one to one. -/
structure Renumbering where
  /-- Auxiliary predicates. -/
  goals : Signature → Signature → Prop
  /-- Numbers of constants. -/
  cells : Nat → Nat → Prop
  /-- They have names that the compiler made up. -/
  auxiliary : ∀ {g g'}, goals g g' → isAuxiliary g.name = true ∧ isAuxiliary g'.name = true
  /-- They have as many arguments. -/
  arity : ∀ {g g'}, goals g g' → g'.arity = g.arity
  /-- Names are paired one to one. -/
  names_inj : ∀ {g g' k k'}, goals g g' → goals k k' → (g.name = k.name ↔ g'.name = k'.name)
  /-- So are constants. -/
  cells_inj : ∀ {n n' k k'}, cells n n' → cells k k' → (n = k ↔ n' = k')

namespace Renumbering

variable {ρ : Renumbering}

/-- Paired predicates: the same one, unless it is an auxiliary predicate. -/
def Goal (ρ : Renumbering) (g g' : Signature) : Prop :=
  isAuxiliary g.name = false ∧ g' = g ∨ ρ.goals g g'

/-- Paired names of predicates. -/
def Name (ρ : Renumbering) (x x' : String) : Prop := ∃ g g', ρ.Goal g g' ∧ g.name = x ∧ g'.name = x'

/-- Names of goals are names. -/
theorem Goal.name {g g' : Signature} (h : ρ.Goal g g') : ρ.Name g.name g'.name :=
  ⟨g, g', h, rfl, rfl⟩

/-- Renumbering leaves arities alone. -/
theorem Goal.arity {g g' : Signature} (h : ρ.Goal g g') : g'.arity = g.arity := by
  rcases h with ⟨-, rfl⟩ | h
  · rfl
  · exact ρ.arity h

/-- **Names are paired one to one.** -/
theorem Name.inj {x x' y y' : String} (hx : ρ.Name x x') (hy : ρ.Name y y') :
    x = y ↔ x' = y' := by
  obtain ⟨g, g', hg, rfl, rfl⟩ := hx
  obtain ⟨k, k', hk, rfl, rfl⟩ := hy
  rcases hg with ⟨hg, rfl⟩ | hg <;> rcases hk with ⟨hk, rfl⟩ | hk
  · rfl
  · have := (ρ.auxiliary hk)
    exact ⟨fun h => by simp [h, this] at hg, fun h => by simp [h, this] at hg⟩
  · have := (ρ.auxiliary hg)
    exact ⟨fun h => by simp [← h, this] at hk, fun h => by simp [← h, this] at hk⟩
  · exact ρ.names_inj hg hk

/-- A predicate whose name is paired with the name of its partner is that partner. -/
theorem Goal.unique {g g' k' : Signature} (h : ρ.Goal g g') (hname : ρ.Name g.name k'.name)
    (harity : k'.arity = g.arity) : k' = g' := by
  have hname' : k'.name = g'.name := (hname.inj h.name).1 rfl
  have harity' : k'.arity = g'.arity := harity.trans h.arity.symm
  cases k'
  cases g'
  simp_all

/-- Paired cells of constants. -/
def Cell (ρ : Renumbering) : PrologMachine.Cell → PrologMachine.Cell → Prop
  | .code c n, .code c' n' => c' = c ∧ ρ.cells n n'
  | .heap n, .heap n' => n' = n
  | _, _ => False

/-- Cells of constants are counterparts of one cell each. -/
theorem Cell.inj {a a' b b' : PrologMachine.Cell} (ha : ρ.Cell a a') (hb : ρ.Cell b b') :
    a = b ↔ a' = b' := by
  cases a <;> cases a' <;> first | exact ha.elim | skip
  all_goals cases b <;> cases b' <;> first | exact hb.elim | skip
  · obtain ⟨rfl, ha⟩ := ha
    obtain ⟨rfl, hb⟩ := hb
    simp [ρ.cells_inj ha hb]
  · simp
  · simp
  · obtain rfl : _ = _ := ha
    obtain rfl : _ = _ := hb
    rfl

/-- Paired constants: the same content in paired cells. -/
structure Const (ρ : Renumbering) (c c' : Constant) : Prop where
  /-- The content. -/
  value : c'.value = c.value
  /-- The cells. -/
  cell : ρ.Cell c.cell c'.cell

/-- Whether two constants are the same does not depend on the numbers. -/
theorem Const.same {c c' d d' : Constant} (hc : ρ.Const c c') (hd : ρ.Const d d') :
    c'.same d' = c.same d := by
  rw [Constant.same, Constant.same, Bool.eq_iff_iff, beq_iff_eq, beq_iff_eq]
  exact (hc.cell.inj hd.cell).symm

theorem Const.equal {c c' d d' : Constant} (hc : ρ.Const c c') (hd : ρ.Const d d') :
    c'.equal d' = c.equal d := by
  rw [Constant.equal, Constant.equal, hc.same hd, hc.value, hd.value]

theorem Const.isAtom {c c' : Constant} (hc : ρ.Const c c') (name : String) :
    c'.isAtom name = c.isAtom name := by
  rw [Constant.isAtom, Constant.isAtom, hc.value]

/-! ## §2. Values. -/

/-- The structures that terms are made of, and the goals of calls. -/
structure Kinds where
  /-- Structures of terms. -/
  data : Set StructId
  /-- Goals. -/
  goals : Set StructId

instance : Preorder Kinds where
  le K K' := K.data ⊆ K'.data ∧ K.goals ⊆ K'.goals
  le_refl _ := ⟨subset_rfl, subset_rfl⟩
  le_trans _ _ _ h h' := ⟨h.1.trans h'.1, h.2.trans h'.2⟩

/-- One structure more of a term. -/
def Kinds.addData (K : Kinds) (s : StructId) : Kinds := { K with data := insert s K.data }

/-- One goal more. -/
def Kinds.addGoal (K : Kinds) (s : StructId) : Kinds := { K with goals := insert s K.goals }

variable {K K' : Kinds} {t t' u u' : Value} {ts ts' : List Value} {s : StructId} {v : VarId}

theorem Kinds.le_addData (K : Kinds) (s : StructId) : K ≤ K.addData s :=
  ⟨Set.subset_insert s K.data, subset_rfl⟩

theorem Kinds.le_addGoal (K : Kinds) (s : StructId) : K ≤ K.addGoal s :=
  ⟨subset_rfl, Set.subset_insert s K.goals⟩

/-- Paired values: the same cells, of which no one is a goal. -/
def Val (ρ : Renumbering) (K : Kinds) : Value → Value → Prop
  | .var v, .var v' => v' = v
  | .const c, .const c' => ρ.Const c c'
  | .struct s, .struct s' => s' = s ∧ s ∈ K.data
  | .absent, .absent => True
  | _, _ => False

theorem Val.var (v : VarId) : ρ.Val K (.var v) (.var v) := rfl

theorem Val.struct (hs : s ∈ K.data) : ρ.Val K (.struct s) (.struct s) := ⟨rfl, hs⟩

theorem Val.const {c c' : Constant} (hc : ρ.Const c c') : ρ.Val K (.const c) (.const c') := hc

theorem Val.absent : ρ.Val K .absent .absent := trivial

/-- The counterpart of a variable is that variable. -/
theorem Val.of_var (h : ρ.Val K (.var v) t') : t' = .var v := by
  cases t' <;> first | exact h.elim | (obtain rfl : _ = _ := h; rfl)

/-- The counterpart of a constant is a constant. -/
theorem Val.of_const {c : Constant} (h : ρ.Val K (.const c) t') :
    ∃ c', t' = .const c' ∧ ρ.Const c c' := by
  cases t' <;> first | exact h.elim | exact ⟨_, rfl, h⟩

/-- The counterpart of a structure is that structure, which is no goal. -/
theorem Val.of_struct (h : ρ.Val K (.struct s) t') : t' = .struct s ∧ s ∈ K.data := by
  cases t' <;> first | exact h.elim | (obtain ⟨rfl, hs⟩ := h; exact ⟨rfl, hs⟩)

/-- What is missing on one side is missing on the other. -/
theorem Val.of_absent (h : ρ.Val K .absent t') : t' = .absent := by
  cases t' <;> first | exact h.elim | rfl

/-- Values stay counterparts when more structures are known. -/
theorem Val.mono (hK : K ≤ K') (h : ρ.Val K t t') : ρ.Val K' t t' := by
  cases t <;> cases t' <;> first | exact h.elim | exact h | exact ⟨h.1, hK.1 h.2⟩

/-- Paired lists of values. -/
abbrev Vals (ρ : Renumbering) (K : Kinds) : List Value → List Value → Prop :=
  List.Forall₂ (ρ.Val K)

theorem Vals.mono (hK : K ≤ K') (h : ρ.Vals K ts ts') : ρ.Vals K' ts ts' :=
  h.imp fun _ _ => .mono hK

/-- Paired optional values. -/
abbrev Opt (ρ : Renumbering) (K : Kinds) : Option Value → Option Value → Prop :=
  Option.Rel (ρ.Val K)

theorem Opt.mono {o o' : Option Value} (hK : K ≤ K') (h : ρ.Opt K o o') : ρ.Opt K' o o' := by
  cases h with
  | none => exact .none
  | some h => exact .some (h.mono hK)

/-- A value is missing on both sides or on neither. -/
theorem Opt.isSome {o o' : Option Value} (h : ρ.Opt K o o') : o'.isSome = o.isSome := by
  cases h <;> rfl

/-- Related lists have related elements. -/
theorem getElem?_rel {α β : Type} {R : α → β → Prop} {as : List α} {bs : List β}
    (h : List.Forall₂ R as bs) (i : Nat) : Option.Rel R as[i]? bs[i]? := by
  induction h generalizing i with
  | nil => exact .none
  | cons ha _ ih =>
    cases i with
    | zero => exact .some ha
    | succ i => simpa using ih i

/-- **Paired values are one cell on both sides or on neither.** -/
theorem Val.same (h : ρ.Val K t t') (hu : ρ.Val K u u') : t'.same u' = t.same u := by
  cases t <;> cases t' <;> first | exact h.elim | skip
  all_goals cases u <;> cases u' <;> first | exact hu.elim | rfl | skip
  · obtain rfl : _ = _ := h
    obtain rfl : _ = _ := hu
    rfl
  · exact Const.same h hu
  · obtain ⟨rfl, -⟩ := h
    obtain ⟨rfl, -⟩ := hu
    rfl

/-! ## §3. Heaps. -/

/-- Variable cells with the same name and number and paired values. -/
structure VarCells (ρ : Renumbering) (K : Kinds) (c c' : VarCell) : Prop where
  /-- The name. -/
  name : c'.name = c.name
  /-- The number. -/
  id : c'.id = c.id
  /-- The values. -/
  binding : ρ.Opt K c.binding c'.binding

/-- Cells of variables stay counterparts when more structures are known. -/
theorem VarCells.mono {c c' : VarCell} (hK : K ≤ K') (h : ρ.VarCells K c c') : ρ.VarCells K' c c' :=
  { h with binding := h.binding.mono hK }

/-- Structure cells with the same marks and paired arguments. -/
structure StructCells (ρ : Renumbering) (K : Kinds) (c c' : StructCell) : Prop where
  /-- The arguments. -/
  args : ρ.Vals K c.args c'.args
  /-- The marks. -/
  attrs : c'.attrs = c.attrs

theorem StructCells.mono {c c' : StructCell} (hK : K ≤ K') (h : ρ.StructCells K c c') :
    ρ.StructCells K' c c' :=
  { h with args := h.args.mono hK }

/-- **Heaps with the same cells up to renumbering.** -/
structure Heaps (ρ : Renumbering) (K : Kinds) (h h' : Heap) : Prop where
  /-- As many variables. -/
  vars : h'.vars.size = h.vars.size
  /-- They are paired. -/
  var : ∀ v, ρ.VarCells K (h.varCell v) (h'.varCell v)
  /-- As many structures. -/
  structs : h'.structs.size = h.structs.size
  /-- They are paired. -/
  struct : ∀ s, ρ.StructCells K (h.structCell s) (h'.structCell s)
  /-- Those of terms have the same names. -/
  data : ∀ s ∈ K.data, (h'.structCell s).name = (h.structCell s).name
  /-- Goals have paired names. -/
  goal : ∀ s ∈ K.goals, ρ.Name (h.structCell s).name (h'.structCell s).name
  /-- Both exist. -/
  exist : ∀ s, s ∈ K.data ∨ s ∈ K.goals → s < h.structs.size
  /-- As many constants were made. -/
  constants : h'.constants = h.constants
  /-- As many numbers were handed out. -/
  numbered : h'.numbered = h.numbered

namespace Heaps

variable {h h' : Heap} {x x' : String}

/-- Bindings are counterparts. -/
theorem binding (hh : ρ.Heaps K h h') (v : VarId) : ρ.Opt K (h.binding? v) (h'.binding? v) :=
  (hh.var v).binding

/-- Arguments are counterparts. -/
theorem args (hh : ρ.Heaps K h h') (s : StructId) :
    ρ.Vals K (h.structCell s).args (h'.structCell s).args := (hh.struct s).args

/-- There are as many of them. -/
theorem length (hh : ρ.Heaps K h h') (s : StructId) :
    (h'.structCell s).args.length = (h.structCell s).args.length := (hh.args s).length_eq.symm

/-- There are none on both sides or on neither. -/
theorem isEmpty (hh : ρ.Heaps K h h') (s : StructId) :
    (h'.structCell s).args.isEmpty = (h.structCell s).args.isEmpty := by
  rw [Bool.eq_iff_iff, List.isEmpty_iff_length_eq_zero, List.isEmpty_iff_length_eq_zero, hh.length]

/-- The same variables are bound. -/
theorem isBound (hh : ρ.Heaps K h h') (v : VarId) : h'.isBound v = h.isBound v :=
  (hh.binding v).isSome

private theorem chase (hh : ρ.Heaps K h h') (origin : VarId) (n : Nat) :
    ∀ v, ρ.Val K (h.chase origin n v) (h'.chase origin n v) := by
  induction n with
  | zero => exact fun v => rfl
  | succ n ih =>
    intro v
    have hb := hh.binding v
    -- A chain goes on to a variable, or it has ended.
    unfold Heap.chase
    cases hv : h.binding? v <;> cases hv' : h'.binding? v <;> rw [hv, hv'] at hb
    · exact rfl
    · cases hb
    · cases hb
    next t t' =>
    cases hb with
    | some ht =>
      cases t with
      | var x =>
        rw [ht.of_var]
        simp only
        split
        · exact rfl
        · exact ih x
      | const c =>
        obtain ⟨c', rfl, hc⟩ := ht.of_const
        exact hc
      | struct s =>
        obtain ⟨rfl, hs⟩ := ht.of_struct
        exact .struct hs
      | absent =>
        rw [ht.of_absent]
        exact trivial

/-- **Paired values stand for paired values.** -/
theorem deref (hh : ρ.Heaps K h h') (ht : ρ.Val K t t') :
    ρ.Val K (h.deref t) (h'.deref t') := by
  cases t with
  | var v =>
    rw [ht.of_var]
    show ρ.Val K (h.chase v (h.vars.size + 1) v) (h'.chase v (h'.vars.size + 1) v)
    rw [hh.vars]
    exact hh.chase v _ v
  | const c =>
    obtain ⟨c', rfl, hc⟩ := ht.of_const
    exact hc
  | struct s =>
    obtain ⟨rfl, hs⟩ := ht.of_struct
    exact .struct hs
  | absent =>
    rw [ht.of_absent]
    exact trivial

/-! ## §4. New cells. -/

/-- Both heaps have made a constant. -/
theorem newConst (hh : ρ.Heaps K h h') (a : Atomic) :
    ρ.Heaps K (h.newConst a).2 (h'.newConst a).2 :=
  { hh with
    var := hh.var
    struct := hh.struct
    data := hh.data
    goal := hh.goal
    constants := congrArg (· + 1) hh.constants }

/-- The new constants are counterparts. -/
theorem newConst_const (hh : ρ.Heaps K h h') (a : Atomic) :
    ρ.Const (h.newConst a).1 (h'.newConst a).1 := ⟨rfl, hh.constants⟩

/-- The cells after a variable is made. -/
theorem varCell_newVar (h : Heap) (name : String) (id : Int) (v : VarId) :
    (h.newVar name id).2.varCell v = if v = h.vars.size then ⟨name, id, none⟩ else h.varCell v := by
  simp only [Heap.newVar, Heap.varCell, Array.getElem?_push]
  split <;> rfl

/-- A new variable. -/
theorem newVar (hh : ρ.Heaps K h h') (name : String) (id : Int) :
    ρ.Heaps K (h.newVar name id).2 (h'.newVar name id).2 :=
  { hh with
    vars := by simp [hh.vars]
    var := fun v => by
      rw [varCell_newVar, varCell_newVar, hh.vars]
      split
      · exact ⟨rfl, rfl, .none⟩
      · exact hh.var v
    struct := hh.struct
    data := hh.data
    goal := hh.goal
    constants := hh.constants
    numbered := hh.numbered }

/-- A new variable with the next number. -/
theorem fresh (hh : ρ.Heaps K h h') (name : String) :
    ρ.Heaps K (h.fresh name).2 (h'.fresh name).2 := by
  have hnumbered : ρ.Heaps K { h with numbered := h.numbered + 1 } { h' with numbered := h'.numbered + 1 } :=
    { hh with
      var := hh.var
      struct := hh.struct
      data := hh.data
      goal := hh.goal
      numbered := congrArg (· + 1) hh.numbered }
  rw [Heap.fresh, Heap.fresh, hh.numbered]
  rw [hh.numbered] at hnumbered
  exact hnumbered.newVar name _

/-- What a new structure leaves of the heaps. -/
private theorem struct_newStruct (hh : ρ.Heaps K h h') (hK : K ≤ K') (x x' : String)
    (hts : ρ.Vals K ts ts') (s : StructId) :
    ρ.StructCells K' ((h.newStruct x ts .none).2.structCell s)
      ((h'.newStruct x' ts' .none).2.structCell s) := by
  rw [Heap.structCell_newStruct, Heap.structCell_newStruct, hh.structs]
  split
  · exact ⟨hts.mono hK, rfl⟩
  · exact (hh.struct s).mono hK

/-- A new structure of a term. -/
theorem newData (hh : ρ.Heaps K h h') (x : String) (hts : ρ.Vals K ts ts') :
    ρ.Heaps (K.addData h.structs.size) (h.newStruct x ts .none).2 (h'.newStruct x ts' .none).2 where
  vars := hh.vars
  var v := (hh.var v).mono (K.le_addData _)
  structs := by simp [hh.structs]
  struct := hh.struct_newStruct (K.le_addData _) x x hts
  data s hs := by
    rw [Heap.structCell_newStruct, Heap.structCell_newStruct, hh.structs]
    -- The new structure has a data name on both sides.
    split
    · rfl
    · next hne => exact hh.data s (hs.resolve_left hne)
  goal s hs := by
    have hne : s ≠ h.structs.size := Nat.ne_of_lt (hh.exist s (.inr hs))
    rw [Heap.structCell_newStruct, Heap.structCell_newStruct, hh.structs, if_neg hne, if_neg hne]
    exact hh.goal s hs
  exist s hs := by
    rw [Heap.structs_size_newStruct]
    rcases hs with (rfl | hs) | hs
    · exact Nat.lt_succ_self _
    · exact Nat.lt_succ_of_lt (hh.exist s (.inl hs))
    · exact Nat.lt_succ_of_lt (hh.exist s (.inr hs))
  constants := hh.constants
  numbered := hh.numbered

/-- A new goal. -/
theorem newGoal (hh : ρ.Heaps K h h') (hx : ρ.Name x x') : ρ.Heaps (K.addGoal h.structs.size)
    (h.newStruct x [] .none).2 (h'.newStruct x' [] .none).2 where
  vars := hh.vars
  var v := (hh.var v).mono (K.le_addGoal _)
  structs := by simp [hh.structs]
  struct := hh.struct_newStruct (K.le_addGoal _) x x' .nil
  data s hs := by
    -- A data name belongs to an older structure.
    have hne : s ≠ h.structs.size := Nat.ne_of_lt (hh.exist s (.inl hs))
    rw [Heap.structCell_newStruct, Heap.structCell_newStruct, hh.structs, if_neg hne, if_neg hne]
    exact hh.data s hs
  goal s hs := by
    rw [Heap.structCell_newStruct, Heap.structCell_newStruct, hh.structs]
    split
    · exact hx
    · next hne => exact hh.goal s (hs.resolve_left hne)
  exist s hs := by
    rw [Heap.structs_size_newStruct]
    rcases hs with hs | rfl | hs
    · exact Nat.lt_succ_of_lt (hh.exist s (.inl hs))
    · exact Nat.lt_succ_self _
    · exact Nat.lt_succ_of_lt (hh.exist s (.inr hs))
  constants := hh.constants
  numbered := hh.numbered

/-! ## §5. Changes of cells. -/

/-- The cells after an argument is added. -/
theorem structCell_pushArg (h : Heap) (s x : StructId) (t : Value) :
    (h.pushArg s t).structCell x = if x = s ∧ s < h.structs.size then
      { h.structCell s with args := (h.structCell s).args ++ [t] } else h.structCell x := by
  by_cases hx : x = s
  · subst hx
    by_cases hlt : x < h.structs.size
    · rw [Heap.structCell_pushArg_self hlt, if_pos ⟨rfl, hlt⟩]
    · simp [Heap.pushArg, Heap.structCell, hlt]
  · rw [Heap.structCell_pushArg_of_ne hx, if_neg fun h => hx h.1]

/-- An argument changes no name. -/
theorem name_pushArg (h : Heap) (s x : StructId) (t : Value) :
    ((h.pushArg s t).structCell x).name = (h.structCell x).name := by
  rw [structCell_pushArg]
  split
  · next hx => rw [hx.1]
  · rfl

/-- Both structures get an argument. -/
theorem pushArg (hh : ρ.Heaps K h h') (ht : ρ.Val K t t') (s : StructId) :
    ρ.Heaps K (h.pushArg s t) (h'.pushArg s t') :=
  { hh with
    var := hh.var
    structs := by simp [hh.structs]
    struct := fun x => by
      rw [structCell_pushArg, structCell_pushArg, hh.structs]
      split
      · exact ⟨List.rel_append (hh.args s) (.cons ht .nil), (hh.struct s).attrs⟩
      · exact hh.struct x
    data := fun x hx => by rw [name_pushArg, name_pushArg, hh.data x hx]
    goal := fun x hx => by rw [name_pushArg, name_pushArg]; exact hh.goal x hx
    exist := fun x hx => by rw [Heap.structs_size_pushArg]; exact hh.exist x hx }

/-- The cells after a variable is bound. -/
theorem varCell_set (h : Heap) (v w : VarId) (t : Value) : (h.set v t).varCell w =
    if w = v ∧ v < h.vars.size then { h.varCell v with binding := some t } else h.varCell w := by
  by_cases hw : w = v
  · subst hw
    by_cases hlt : w < h.vars.size
    · simp [Heap.set, Heap.varCell, hlt, Array.getElem_modify]
    · simp [Heap.set, Heap.varCell, hlt]
  · simp [Heap.set, Heap.varCell, Array.getElem?_modify, hw, Ne.symm hw]

/-- The cells after a variable is unbound. -/
theorem varCell_reset (h : Heap) (v w : VarId) : (h.reset v).varCell w =
    if w = v then { h.varCell v with binding := none } else h.varCell w := by
  by_cases hw : w = v
  · subst hw
    by_cases hlt : w < h.vars.size
    · simp [Heap.reset, Heap.varCell, hlt, Array.getElem_modify]
    · simp [Heap.reset, Heap.varCell, hlt]
  · simp [Heap.reset, Heap.varCell, Array.getElem?_modify, hw, Ne.symm hw]

/-- Both variables are bound. -/
theorem set (hh : ρ.Heaps K h h') (ht : ρ.Val K t t') (v : VarId) :
    ρ.Heaps K (h.set v t) (h'.set v t') :=
  { hh with
    vars := by simp [hh.vars]
    var := fun w => by
      rw [varCell_set, varCell_set, hh.vars]
      split
      · exact ⟨(hh.var v).name, (hh.var v).id, .some ht⟩
      · exact hh.var w
    struct := hh.struct
    data := hh.data
    goal := hh.goal }

/-- Both variables are unbound. -/
theorem reset (hh : ρ.Heaps K h h') (v : VarId) : ρ.Heaps K (h.reset v) (h'.reset v) :=
  { hh with
    vars := by simp [hh.vars]
    var := fun w => by
      rw [varCell_reset, varCell_reset]
      split
      · exact ⟨(hh.var v).name, (hh.var v).id, .none⟩
      · exact hh.var w
    struct := hh.struct
    data := hh.data
    goal := hh.goal }

end Heaps

/-! ## §6. Unification. -/

/-- Unifications that have come equally far. -/
structure Unifiers (ρ : Renumbering) (K : Kinds) (u u' : Unifier) : Prop where
  /-- The cells. -/
  heap : ρ.Heaps K u.heap u'.heap
  /-- The same variables were bound. -/
  bound : u'.bound = u.bound
  /-- The same pairs are remembered. -/
  seen : u'.seen = u.seen

/-- Unifications with the same outcome. -/
def Unified (ρ : Renumbering) (K : Kinds) (r r' : Bool × Unifier) : Prop :=
  r'.1 = r.1 ∧ ρ.Unifiers K r.2 r'.2

theorem Unifiers.bind {u u' : Unifier} (hu : ρ.Unifiers K u u') (ht : ρ.Val K t t') (v : VarId) :
    ρ.Unified K (u.bind v t) (u'.bind v t') := by
  unfold Unifier.bind
  rw [hu.heap.isBound]
  split
  · exact ⟨rfl, hu⟩
  · exact ⟨rfl, hu.heap.set ht v, by rw [hu.bound], hu.seen⟩

/-- Both walks go through their arguments, up to the same pair. -/
theorem Unifiers.pairwise {f : Value → Value → Unifier → Bool × Unifier}
    (hf : ∀ {a a' b b' u u'}, ρ.Val K a a' → ρ.Val K b b' → ρ.Unifiers K u u' →
      ρ.Unified K (f a b u) (f a' b' u')) {as as' bs bs' : List Value} {u u' : Unifier}
    (has : ρ.Vals K as as') (hbs : ρ.Vals K bs bs') (hu : ρ.Unifiers K u u') :
    ρ.Unified K (Unifier.pairwise f as bs u) (Unifier.pairwise f as' bs' u') := by
  induction has generalizing bs bs' u u' with
  | nil => exact ⟨rfl, hu⟩
  | @cons a a' as as' ha _ ih =>
    cases hbs with
    | nil => exact ⟨rfl, hu⟩
    | @cons b b' bs bs' hb hbs =>
      -- The first pair, and then the rest in the heaps that it leaves.
      obtain ⟨hok, hrest⟩ := hf ha hb hu
      unfold Unifier.pairwise
      generalize f a b u = r at hok hrest
      generalize f a' b' u' = r' at hok hrest
      obtain ⟨ok, u₁⟩ := r
      obtain ⟨ok', u₁'⟩ := r'
      obtain rfl : ok' = ok := hok
      cases ok' with
      | true => exact ih hbs hrest
      | false => exact ⟨rfl, hrest⟩

/-- **Unification has one outcome in both heaps.** -/
theorem Unifiers.unify (n : Nat) : ∀ (depth : Nat) {t t' u u' : Value} {x x' : Unifier},
    ρ.Val K t t' → ρ.Val K u u' → ρ.Unifiers K x x' →
    ρ.Unified K (Unifier.unify n depth t u x) (Unifier.unify n depth t' u' x') := by
  induction n with
  | zero => exact fun _ _ _ _ _ _ _ _ _ hx => ⟨rfl, hx⟩
  | succ n ih =>
    intro depth t t' u u' x x' ht hu hx
    unfold Unifier.unify
    rw [ht.same hu]
    split
    · exact ⟨rfl, hx⟩
    have hd := hx.heap.deref ht
    have he := hx.heap.deref hu
    simp only
    rw [hd.same he]
    split
    · exact ⟨rfl, hx⟩
    -- Only what stands at the ends of the chains matters from here on.
    generalize x.heap.deref t = a at hd
    generalize x'.heap.deref t' = a' at hd
    generalize x.heap.deref u = b at he
    generalize x'.heap.deref u' = b' at he
    -- An atom and a structure without arguments are told apart by their names, which data has in common.
    have hatom : ∀ {c c' : Constant} {s : StructId}, ρ.Const c c' → s ∈ K.data →
        ((x'.heap.structCell s).args.isEmpty && c'.isAtom (x'.heap.structCell s).name) =
          ((x.heap.structCell s).args.isEmpty && c.isAtom (x.heap.structCell s).name) := by
      intro c c' s hc hs
      rw [hx.heap.isEmpty, hx.heap.data s hs, hc.isAtom]
    cases a with
    | var v =>
      rw [hd.of_var]
      exact hx.bind he v
    | const c =>
      obtain ⟨c', rfl, hc⟩ := hd.of_const
      cases b with
      | var v =>
        rw [he.of_var]
        exact hx.bind hd v
      | const d =>
        obtain ⟨d', rfl, hd'⟩ := he.of_const
        exact ⟨hc.equal hd', hx⟩
      | struct s =>
        obtain ⟨rfl, hs⟩ := he.of_struct
        exact ⟨hatom hc hs, hx⟩
      | absent =>
        rw [he.of_absent]
        exact ⟨rfl, hx⟩
    | struct s =>
      obtain ⟨rfl, hs⟩ := hd.of_struct
      cases b with
      | var v =>
        rw [he.of_var]
        exact hx.bind hd v
      | const d =>
        obtain ⟨d', rfl, hd'⟩ := he.of_const
        exact ⟨hatom hd' hs, hx⟩
      | struct y =>
        obtain ⟨rfl, hy⟩ := he.of_struct
        simp only
        -- Names, numbers of arguments and recorded pairs are the same, so both walks take the same way.
        rw [hx.heap.data s hs, hx.heap.data y hy, hx.heap.length, hx.heap.length, hx.seen]
        split
        · exact ⟨rfl, hx⟩
        split
        · exact ⟨rfl, hx⟩
        · exact Unifiers.pairwise (fun ha hb hu => ih (depth + 1) ha hb hu) (hx.heap.args s)
            (hx.heap.args y) ⟨hx.heap, hx.bound, rfl⟩
      | absent =>
        rw [he.of_absent]
        exact ⟨rfl, hx⟩
    | absent =>
      rw [hd.of_absent]
      cases b with
      | var v =>
        rw [he.of_var]
        exact hx.bind .absent v
      | const d =>
        obtain ⟨d', rfl, -⟩ := he.of_const
        exact ⟨rfl, hx⟩
      | struct s =>
        obtain ⟨rfl, -⟩ := he.of_struct
        exact ⟨rfl, hx⟩
      | absent =>
        rw [he.of_absent]
        exact ⟨rfl, hx⟩

namespace Heaps

variable {h h' : Heap}

/-- Both walks may be equally long. -/
theorem walkBound (hh : ρ.Heaps K h h') : h'.walkBound = h.walkBound := by
  rw [Heap.walkBound, Heap.walkBound, hh.structs]

/-- Both heaps unify the values, or neither does. -/
theorem unify (hh : ρ.Heaps K h h') (ht : ρ.Val K t t') (hu : ρ.Val K u u') :
    ρ.Unified K (h.unify t u) (h'.unify t' u') := by
  unfold Heap.unify
  rw [hh.walkBound]
  exact Unifiers.unify _ 0 ht hu ⟨hh, rfl, rfl⟩

/-- Values can be unified on both sides or on neither. -/
theorem unifiable (hh : ρ.Heaps K h h') (ht : ρ.Val K t t') (hu : ρ.Val K u u') :
    (h'.unifiable t' u').1 = (h.unifiable t u).1 := (hh.unify ht hu).1

/-! ## §7. Comparison. -/

/-- Both comparisons go through their arguments, up to the same pair. -/
theorem allPairs {f f' : Value → Value → SeenPairs → Bool × SeenPairs}
    (hf : ∀ {a a' b b'}, ρ.Val K a a' → ρ.Val K b b' → ∀ seen, f' a' b' seen = f a b seen)
    {as as' bs bs' : List Value} (has : ρ.Vals K as as') (hbs : ρ.Vals K bs bs')
    (seen : SeenPairs) :
    Heap.allPairs f' as' bs' seen = Heap.allPairs f as bs seen := by
  induction has generalizing bs bs' seen with
  | nil => rfl
  | cons ha _ ih =>
    cases hbs with
    | nil => rfl
    | cons hb hbs =>
      unfold Heap.allPairs
      rw [hf ha hb]
      split
      · exact ih hbs _
      · rfl

/-- **Comparison has one outcome in both heaps.** -/
theorem compare (hh : ρ.Heaps K h h') (n : Nat) : ∀ (depth : Nat) {t t' u u' : Value},
    ρ.Val K t t' → ρ.Val K u u' → ∀ seen,
      h'.compare n depth t' u' seen = h.compare n depth t u seen := by
  induction n with
  | zero => exact fun _ _ _ _ _ _ _ _ => rfl
  | succ n ih =>
    intro depth t t' u u' ht hu seen
    have hd := hh.deref ht
    have he := hh.deref hu
    unfold Heap.compare
    simp only
    rw [hd.same he]
    split
    · rfl
    generalize h.deref t = a at hd
    generalize h'.deref t' = a' at hd
    generalize h.deref u = b at he
    generalize h'.deref u' = b' at he
    -- Counterparts are of one kind, so few of the pairs of values are left.
    cases a <;> cases a' <;> first | exact hd.elim | skip
    all_goals cases b <;> cases b' <;> first | exact he.elim | rfl | skip
    · exact congrArg (·, seen) (Const.equal hd he)
    · obtain ⟨rfl, hs⟩ := hd
      obtain ⟨rfl, hy⟩ := he
      simp only
      rw [hh.data _ hs, hh.data _ hy, hh.length, hh.length]
      split
      · rfl
      split
      · rfl
      · exact allPairs (fun ha hb => ih (depth + 1) ha hb) (hh.args _) (hh.args _) _

/-- Values are identical on both sides or on neither. -/
theorem identical (hh : ρ.Heaps K h h') (ht : ρ.Val K t t') (hu : ρ.Val K u u') :
    h'.identical t' u' = h.identical t u := by
  unfold Heap.identical
  rw [hh.walkBound, hh.compare _ 0 ht hu]

/-! ## §8. Texts. -/

/-- **Paired values are written alike.** -/
theorem chars (hh : ρ.Heaps K h h') (n : Nat) : ∀ (opened : List StructId) {t t' : Value},
    ρ.Val K t t' → h'.chars n opened t' = h.chars n opened t ∧
      h'.tailChars n opened t' = h.tailChars n opened t := by
  induction n with
  | zero => exact fun _ _ _ _ => ⟨rfl, rfl⟩
  | succ n ih =>
    intro opened t t' ht
    have hd := hh.deref ht
    -- The arguments are written with the fuel that is left.
    have hargs : ∀ (opened : List StructId) {xs xs' : List Value}, ρ.Vals K xs xs' →
        xs'.flatMap (fun y => ',' :: h'.chars n opened y) =
          xs.flatMap (fun y => ',' :: h.chars n opened y) := by
      intro opened xs xs' hxs
      induction hxs with
      | nil => rfl
      | cons hx _ ihs => rw [List.flatMap_cons, List.flatMap_cons, ihs, (ih opened hx).1]
    simp only [Heap.chars, Heap.tailChars]
    generalize h.deref t = a at hd
    generalize h'.deref t' = a' at hd
    cases a with
    | var v =>
      rw [hd.of_var]
      simp only
      rw [(hh.var v).name, (hh.var v).id, (ih opened (.var v)).1]
      exact ⟨rfl, rfl⟩
    | const c =>
      obtain ⟨c', rfl, hc⟩ := hd.of_const
      have hrest := (ih opened (Val.const hc)).1
      obtain ⟨value, cell⟩ := c
      obtain ⟨value', cell'⟩ := c'
      obtain rfl : value' = value := hc.value
      refine ⟨rfl, ?_⟩
      cases value' with
      | nil => rfl
      | atom a => exact congrArg _ hrest
      | number x => exact congrArg _ hrest
    | absent =>
      rw [hd.of_absent]
      exact ⟨rfl, congrArg _ (ih opened .absent).1⟩
    | struct s =>
      obtain ⟨rfl, hs⟩ := hd.of_struct
      have hname := hh.data s hs
      have hxs := hh.args s
      have hopen := (ih opened (Val.struct hs)).1
      simp only
      generalize h.structCell s = c at hname hxs
      generalize h'.structCell s = c' at hname hxs
      obtain ⟨name, args, attrs⟩ := c
      obtain ⟨name', args', attrs'⟩ := c'
      obtain rfl : name' = name := hname
      simp only at hxs ⊢
      cases hxs with
      | nil => simp [hopen]
      | @cons x x' xs xs' hx hxs =>
        have hmore := hargs (s :: opened) hxs
        have hfirst := (ih (s :: opened) hx).1
        by_cases hcons : name' = "cons"
        · subst hcons
          cases hxs with
          | nil => simp [hfirst, hopen]
          | @cons y y' ys ys' hy hys =>
            cases hys with
            | nil => simp [hfirst, (ih (s :: opened) hy).2]
            | cons _ _ => simp [hfirst, hmore, hopen]
        · simp [hcons, hfirst, hmore, hopen]

theorem text (hh : ρ.Heaps K h h') (ht : ρ.Val K t t') : h'.text t' = h.text t := by
  unfold Heap.text Heap.writeBound
  rw [hh.structs, (hh.chars _ [] ht).1]

theorem bindFault? (hh : ρ.Heaps K h h') (v : VarId) (ht : ρ.Val K t t') :
    h'.bindFault? v t' = h.bindFault? v t := by
  have hb := hh.binding v
  unfold Heap.bindFault?
  cases hv : h.binding? v <;> cases hv' : h'.binding? v <;> rw [hv, hv'] at hb
  · cases t <;> cases t' <;> first | exact ht.elim | rfl | skip
    · obtain rfl : _ = _ := ht
      rw [(hh.var v).name]
    · rw [(hh.var v).name]
  · cases hb
  · cases hb
  · cases hb with
    | some hold =>
      simp only
      rw [(hh.var v).name, hh.text hold]

end Heaps

end Renumbering

end PrologMachine
