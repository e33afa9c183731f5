/-
  PrologMachine.Proofs.Head.Pattern ── **HEADS AS PATTERNS.**

  A head is a pattern: a term whose variables are known by name and whose constants are the cells
  of its code.  Under trees for the names a pattern describes trees.  Loaded on a heap, with a new
  variable for each name, it becomes a term that stands for the trees that it describes.

    * `Pattern.Describes` says which trees a pattern describes.
    * `Pattern.load` copies a pattern to a heap.
    * `Scope.Models`: trees for variables and names that fit the heap and the values of the names.
    * `Pattern.load_loads`: what a copy stands for is described, and what is described the copy can
      stand for.
-/
import PrologMachine.Proofs.Heap.Variants

namespace PrologMachine

/-! ## §1. Trees by their roots. -/

/-- The tree of a functor over trees. -/
def Tree.node (name : String) (ts : List Tree) : Tree where
  label
    | [] => some (.functor name ts.length)
    | i :: p => (ts[i]?).bind fun t => t.label p
  root := rfl
  nodes p i := by
    cases p with
    | nil =>
      by_cases hi : i < ts.length
      · have hroot : ((ts[i]).label []).isSome := (ts[i]).root
        simp [hi, hroot, Label.arity]
      · simp [hi, Label.arity]
    | cons j p =>
      show ((ts[j]?).bind fun t => t.label (p ++ [i])).isSome ↔
        ∃ l, ((ts[j]?).bind fun t => t.label p) = some l ∧ i < l.arity
      cases ts[j]? with
      | none => simp
      | some t => exact t.nodes p i

/-- A node determines its name and its subtrees. -/
theorem Tree.node_inj {f g : String} {ts us : List Tree} (heq : node f ts = node g us) :
    f = g ∧ ts = us := by
  have hlabel := fun p => congrFun (congrArg Tree.label heq) p
  obtain ⟨hname, hlength⟩ := Label.functor.inj (Option.some.inj (hlabel []))
  refine ⟨hname, List.ext_getElem hlength fun i hi hi' => Tree.ext (funext fun p => ?_)⟩
  have hat : (ts[i]?).bind (fun t => t.label p) = (us[i]?).bind fun t => t.label p := hlabel (i :: p)
  rwa [List.getElem?_eq_getElem hi, List.getElem?_eq_getElem hi'] at hat

namespace Heap

variable {h h' : Heap} {K : Set Constant} {ρ ρ' : Valuation} {s : StructId} {c d : Constant}
  {t : Value} {v : VarId}

/-- The tree of a constant. -/
def leaf (K : Set Constant) (c : Constant) : Tree where
  label p := if p = [] then some (leafOf K c) else none
  root := rfl
  nodes p i := by
    by_cases hp : p = [] <;> simp [hp, leafOf, Label.arity]

/-- The tree of a constant is a leaf. -/
theorem tree_const : h.tree K ρ (.const c) = leaf K c := by
  refine Tree.ext (funext fun p => ?_)
  show h.labelAt K ρ p (.const c) = if p = [] then _ else _
  cases p with
  | nil => rfl
  | cons i p => rfl

/-- The tree of a structure has the trees of its arguments below it. -/
theorem tree_struct : h.tree K ρ (.struct s) =
    .node (h.structCell s).name ((h.structCell s).args.map (h.tree K ρ)) := by
  refine Tree.ext (funext fun p => ?_)
  cases p with
  | nil =>
    show some (Label.functor _ _) = some (Label.functor _ _)
    rw [List.length_map]
  | cons i p =>
    show ((h.structCell s).args[i]?).bind (h.labelAt K ρ p) =
      (((h.structCell s).args.map (h.tree K ρ))[i]?).bind fun t => t.label p
    rw [List.getElem?_map]
    cases (h.structCell s).args[i]? <;> rfl

theorem leaf_ne_node {f : String} {ts : List Tree} : leaf K c ≠ .node f ts := by
  intro heq
  have hroot : some (leafOf K c) = some (Label.functor f ts.length) :=
    congrFun (congrArg Tree.label heq) []
  cases hroot

/-! ## §2. Heaps that grow. -/

/-- The second heap has the cells of the first one, and its bindings. -/
structure Later (h h' : Heap) : Prop where
  /-- Variables stay. -/
  vars : h.vars.size ≤ h'.vars.size
  /-- Structures stay. -/
  structs : h.structs.size ≤ h'.structs.size
  /-- They consist of what they consisted of. -/
  cells : ∀ s < h.structs.size, h'.structCell s = h.structCell s
  /-- Bindings stay. -/
  keeps : ∀ v t, h.binding? v = some t → h'.binding? v = some t

namespace Later

protected theorem refl (h : Heap) : h.Later h := ⟨Nat.le_refl _, Nat.le_refl _, fun _ _ => rfl,
  fun _ _ hv => hv⟩

protected theorem trans {h'' : Heap} (hl : h.Later h') (hl' : h'.Later h'') : h.Later h'' where
  vars := hl.vars.trans hl'.vars
  structs := hl.structs.trans hl'.structs
  cells s hs := (hl'.cells s (hs.trans_le hl.structs)).trans (hl.cells s hs)
  keeps v t hv := hl'.keeps v t (hl.keeps v t hv)

/-- What was in the heap is in it. -/
theorem holds (hl : h.Later h') (ht : h.Holds t) : h'.Holds t := ht.mono hl.vars hl.structs

/-- What was inside stays inside. -/
theorem inside {P : Value → Prop} (hl : h.Later h') (ht : h.Inside P t) : h'.Inside P t :=
  ⟨hl.holds ht.1, ht.2⟩

/-- Old values keep their trees, as far as old variables do. -/
theorem tree (hl : h.Later h') (hg : h.Good) (ht : h.Holds t)
    (hρ : ∀ v < h.vars.size, ρ' v = ρ v) : h'.tree K ρ' t = h.tree K ρ t := by
  -- Along every path the labels are the same, for a cell that is there keeps its arguments.
  have hlabel : ∀ (p : List Nat) {t : Value}, h.Holds t →
      h'.labelAt K ρ' p t = h.labelAt K ρ p t := by
    intro p
    induction p with
    | nil =>
      intro t ht
      cases t with
      | var v => rw [labelAt_var, labelAt_var, hρ v ht]
      | struct s => rw [labelAt_struct_nil, labelAt_struct_nil, hl.cells s ht]
      | const c => rfl
      | absent => rfl
    | cons i p ih =>
      intro t ht
      cases t with
      | var v => rw [labelAt_var, labelAt_var, hρ v ht]
      | struct s =>
        rw [labelAt_struct_cons, labelAt_struct_cons, hl.cells s ht]
        cases harg : (h.structCell s).args[i]? with
        | none => rfl
        | some a => exact ih (hg.args s a (List.mem_of_getElem? harg))
      | const c => rfl
      | absent => rfl
  exact Tree.ext (funext fun p => hlabel p ht)

/-- What respects the later heap respects the earlier one. -/
theorem respects (hl : h.Later h') (hg : h.Good) (hρ : h'.Respects K ρ) : h.Respects K ρ := by
  intro v t hv
  rw [hρ v t (hl.keeps v t hv), hl.tree hg (hg.bindings v t hv) fun _ _ => rfl]

/-- What respects the earlier heap respects the later one when nothing was bound. -/
theorem respects_of (hl : h.Later h') (hg : h.Good) (hsame : ∀ v, h'.binding? v = h.binding? v)
    (hagree : ∀ v < h.vars.size, ρ' v = ρ v) (hρ : h.Respects K ρ) : h'.Respects K ρ' := by
  intro v t hv
  rw [hsame] at hv
  rw [hagree v (lt_size_of_binding? hv), hρ v t hv, hl.tree hg (hg.bindings v t hv) hagree]

end Later

/-- A new variable makes the heap later. -/
theorem later_fresh (name : String) : h.Later (h.fresh name).2 :=
  ⟨by simp, by simp, fun _ _ => rfl, fun _ _ hv => by simpa using hv⟩

theorem later_newStruct (name : String) (args : List Value) :
    h.Later (h.newStruct name args .none).2 :=
  ⟨by simp, by simp, fun s hs => by rw [structCell_newStruct, if_neg (Nat.ne_of_lt hs)],
    fun _ _ hv => hv⟩

theorem Binds.later {vs : List VarId} (hb : h.Binds h' vs) : h.Later h' :=
  ⟨hb.size.ge, hb.structs ▸ Nat.le_refl _, fun s _ => hb.structCell s, fun _ _ hv => hb.keeps hv⟩

/-- A heap stays plain when a variable is made. -/
theorem PlainOn.fresh {P : Value → Prop} (hp : h.PlainOn K P) (name : String) :
    (h.fresh name).2.PlainOn K P where
  good := hp.good.fresh name
  constants := hp.constants
  bindings v t hv hb := hp.bindings v t hv (by simpa using hb)
  args := hp.args
  nonempty := hp.nonempty

/-- It stays plain when a structure with arguments is made. -/
theorem PlainOn.newStruct {P : Value → Prop} (hp : h.PlainOn K P) (name : String)
    {args : List Value} (hargs : ∀ t ∈ args, h.Inside P t) (hne : args ≠ []) :
    (h.newStruct name args .none).2.PlainOn K P where
  good := hp.good.newStruct name fun t ht => (hargs t ht).1
  constants := hp.constants
  bindings := hp.bindings
  args s hs t ht := by
    rw [structCell_newStruct] at ht
    split at ht
    · exact (hargs t ht).2
    · exact hp.args s hs t ht
  nonempty s hlt hs := by
    rw [structCell_newStruct]
    split
    · exact hne
    · next hold =>
      rw [structs_size_newStruct] at hlt
      exact hp.nonempty s (Nat.lt_of_le_of_ne (Nat.le_of_lt_succ hlt) hold) hs

end Heap

/-! ## §3. Patterns. -/

/-- A term whose variables are known by name. -/
inductive Pattern where
  /-- A variable. -/
  | var (name : String)
  /-- An anonymous variable. -/
  | void
  /-- A constant. -/
  | const (c : Constant)
  /-- A structure. -/
  | struct (name : String) (args : List Pattern)

/-- Trees for names. -/
abbrev Assignment := String → Tree

namespace Pattern

mutual

/-- The pattern describes the tree. -/
def Describes (K : Set Constant) (θ : Assignment) : Pattern → Tree → Prop
  | .var x, T => T = θ x
  | .void, _ => True
  | .const c, T => T = Heap.leaf K c
  | .struct f ps, T => ∃ Ts, T = .node f Ts ∧ DescribesAll K θ ps Ts

/-- The patterns describe the trees, one by one. -/
def DescribesAll (K : Set Constant) (θ : Assignment) : List Pattern → List Tree → Prop
  | [], Ts => Ts = []
  | p :: ps, Ts => ∃ T Us, Ts = T :: Us ∧ Describes K θ p T ∧ DescribesAll K θ ps Us

end

mutual

/-- The names in a pattern. -/
def names : Pattern → List String
  | .var x => [x]
  | .void => []
  | .const _ => []
  | .struct _ ps => namesAll ps

/-- The names in patterns. -/
def namesAll : List Pattern → List String
  | [] => []
  | p :: ps => p.names ++ namesAll ps

end

mutual

/-- The constants in a pattern. -/
def constants : Pattern → List Constant
  | .var _ => []
  | .void => []
  | .const c => [c]
  | .struct _ ps => constantsAll ps

/-- The constants in patterns. -/
def constantsAll : List Pattern → List Constant
  | [] => []
  | p :: ps => p.constants ++ constantsAll ps

end

mutual

/-- The constants of the pattern are among `K`, and its functors have arguments. -/
def Full (K : Set Constant) : Pattern → Prop
  | .var _ => True
  | .void => True
  | .const c => c ∈ K
  | .struct _ ps => ps ≠ [] ∧ FullAll K ps

/-- The constants of the patterns are among `K`, and their functors have arguments. -/
def FullAll (K : Set Constant) : List Pattern → Prop
  | [] => True
  | p :: ps => p.Full K ∧ FullAll K ps

end

end Pattern

/-! ## §4. Names on a heap. -/

/-- A heap, and names with values on it. -/
structure Scope where
  /-- The values of the names. -/
  env : String → Option Value
  /-- The heap. -/
  heap : Heap

namespace Scope

/-- Give a name a value. -/
def put (c : Scope) (x : String) (t : Value) : Scope :=
  { c with env := fun y => if y = x then some t else c.env y }

/-- Change the heap. -/
def withHeap (c : Scope) (h : Heap) : Scope := { c with heap := h }

end Scope

namespace Pattern

mutual

/-- Copy a pattern to the heap: a name without a value gets a new variable. -/
def load : Pattern → Scope → Value × Scope
  | .var x, c =>
    match c.env x with
    | some t => (t, c)
    | none => (.var c.heap.vars.size, (c.withHeap (c.heap.fresh x).2).put x (.var c.heap.vars.size))
  | .void, c => (.var c.heap.vars.size, c.withHeap (c.heap.fresh "_").2)
  | .const k, c => (.const k, c)
  | .struct f ps, c =>
    let (ts, c) := loadAll ps c
    (.struct c.heap.structs.size, c.withHeap (c.heap.newStruct f ts .none).2)

/-- Copy patterns to the heap, one after the other. -/
def loadAll : List Pattern → Scope → List Value × Scope
  | [], c => ([], c)
  | p :: ps, c =>
    let (t, c) := load p c
    let (ts, c) := loadAll ps c
    (t :: ts, c)

end

end Pattern

namespace Scope

variable {K : Set Constant} {P : Value → Prop} {c c' c'' : Scope} {ρ ρ' : Valuation}
  {θ : Assignment} {x : String} {t : Value}

/-- Trees for variables and names that fit the heap and the values of the names. -/
structure Models (K : Set Constant) (c : Scope) (ρ : Valuation) (θ : Assignment) : Prop where
  /-- Bound variables have the trees of their values. -/
  respects : c.heap.Respects K ρ
  /-- So have names. -/
  names : ∀ x t, c.env x = some t → c.heap.tree K ρ t = θ x

/-- Names have values in a plain part of the heap, to which all new cells and all constants among `K`
    belong. -/
structure Sound (K : Set Constant) (P : Value → Prop) (c : Scope) : Prop where
  /-- The part is plain. -/
  plain : c.heap.PlainOn K P
  /-- Values are in it. -/
  env : ∀ x t, c.env x = some t → c.heap.Inside P t
  /-- New variables are in it. -/
  vars : ∀ v, c.heap.vars.size ≤ v → P (.var v)
  /-- New structures are in it. -/
  structs : ∀ s, c.heap.structs.size ≤ s → P (.struct s)
  /-- The constants are in it. -/
  constants : ∀ k ∈ K, P (.const k)

/-- The heap grows, and names keep their values. -/
structure Grows (c c' : Scope) : Prop where
  /-- The heap. -/
  heap : c.heap.Later c'.heap
  /-- The names. -/
  env : ∀ x t, c.env x = some t → c'.env x = some t

protected theorem Grows.refl (c : Scope) : c.Grows c := ⟨.refl _, fun _ _ h => h⟩

protected theorem Grows.trans (h : c.Grows c') (h' : c'.Grows c'') : c.Grows c'' :=
  ⟨h.heap.trans h'.heap, fun x t hx => h'.env x t (h.env x t hx)⟩

/-- What fits later fits before. -/
theorem Grows.models (h : c.Grows c') (hs : c.Sound K P) (hm : c'.Models K ρ θ) :
    c.Models K ρ θ where
  respects := h.heap.respects hs.plain.good hm.respects
  names x t hx := by
    rw [← hm.names x t (h.env x t hx), h.heap.tree hs.plain.good (hs.env x t hx).1 fun _ _ => rfl]

/-- Names keep fitting when the heap grows and nothing is bound. -/
theorem Models.later {h' : Heap} (hm : c.Models K ρ θ) (hs : c.Sound K P) (hl : c.heap.Later h')
    (hsame : ∀ v, h'.binding? v = c.heap.binding? v) (hagree : ∀ v < c.heap.vars.size, ρ' v = ρ v) :
    (c.withHeap h').Models K ρ' θ where
  respects := hl.respects_of hs.plain.good hsame hagree hm.respects
  names x t hx := (hl.tree hs.plain.good (hs.env x t hx).1 hagree).trans (hm.names x t hx)

/-- A name keeps fitting that gets a value with its tree. -/
theorem Models.put (hm : c.Models K ρ θ) (ht : c.heap.tree K ρ t = θ x) :
    (c.put x t).Models K ρ θ where
  respects := hm.respects
  names y u hy := by
    simp only [Scope.put] at hy
    split at hy
    · next hyx => obtain rfl := Option.some.inj hy; rw [hyx]; exact ht
    · exact hm.names y u hy

/-- Naming a value that is inside keeps a scope sound. -/
theorem Sound.put (hs : c.Sound K P) (ht : c.heap.Inside P t) : (c.put x t).Sound K P where
  plain := hs.plain
  env y u hy := by
    simp only [Scope.put] at hy
    split at hy
    · obtain rfl := Option.some.inj hy; exact ht
    · exact hs.env y u hy
  vars := hs.vars
  structs := hs.structs
  constants := hs.constants

/-- The heap may grow within the part. -/
theorem Sound.later {h' : Heap} (hs : c.Sound K P) (hl : c.heap.Later h') (hp : h'.PlainOn K P) :
    (c.withHeap h').Sound K P where
  plain := hp
  env x t hx := hl.inside (hs.env x t hx)
  vars v hv := hs.vars v (hl.vars.trans hv)
  structs s hs' := hs.structs s (hl.structs.trans hs')
  constants := hs.constants

/-- A new name makes the scope grow. -/
theorem Grows.put (hx : c.env x = none) (t : Value) : c.Grows (c.put x t) where
  heap := .refl _
  env y u hy := by
    have hne : y ≠ x := by rintro rfl; rw [hx] at hy; cases hy
    simpa [Scope.put, hne] using hy

theorem Grows.later {h' : Heap} (hl : c.heap.Later h') : c.Grows (c.withHeap h') :=
  ⟨hl, fun _ _ h => h⟩

end Scope

/-! ## §5. Copies. -/

namespace Pattern

open Heap Scope

variable {K : Set Constant} {P : Value → Prop} {c c' c'' : Scope} {ρ ρ' : Valuation}
  {θ : Assignment} {x : String} {t : Value} {ts us : List Value} {ps qs : List Pattern} {p : Pattern}

/-- What copying patterns `ps` gives: values that stand for what the patterns describe. -/
structure Loads (K : Set Constant) (P : Value → Prop) (ps : List Pattern) (c : Scope)
    (ts : List Value) (c' : Scope) : Prop where
  /-- The heap grows, and names keep their values. -/
  grows : c.Grows c'
  /-- Nothing is bound. -/
  free : ∀ v, c'.heap.binding? v = c.heap.binding? v
  /-- All is in the part. -/
  sound : c'.Sound K P
  /-- So are the values. -/
  inside : ∀ t ∈ ts, c'.heap.Inside P t
  /-- The names of the patterns have values. -/
  names : ∀ x ∈ namesAll ps, (c'.env x).isSome
  /-- No other names get values. -/
  only : ∀ x, (c'.env x).isSome → (c.env x).isSome ∨ x ∈ namesAll ps
  /-- They stand for all trees that the patterns describe. -/
  keeps : ∀ ρ θ Ts, c.Models K ρ θ → DescribesAll K θ ps Ts → ∃ ρ' : Valuation,
    (∀ v < c.heap.vars.size, ρ' v = ρ v) ∧ c'.Models K ρ' θ ∧ ts.map (c'.heap.tree K ρ') = Ts
  /-- They stand for no others. -/
  describes : ∀ ρ θ, c'.Models K ρ θ → DescribesAll K θ ps (ts.map (c'.heap.tree K ρ))

/-- One value. -/
theorem describesAll_singleton {T : Tree} : DescribesAll K θ [p] [T] ↔ Describes K θ p T := by
  constructor
  · rintro ⟨U, Us, heq, hU, -⟩
    obtain ⟨rfl, -⟩ := List.cons.inj heq
    exact hU
  · exact fun hT => ⟨T, [], rfl, hT, rfl⟩

theorem Loads.nil (hs : c.Sound K P) : Loads K P [] c [] c where
  grows := .refl c
  free _ := rfl
  sound := hs
  inside := by simp
  names := by simp [namesAll]
  only _ hx := .inl hx
  keeps ρ θ Ts hm hTs := ⟨ρ, fun _ _ => rfl, hm, hTs.symm⟩
  describes ρ θ hm := rfl

/-- Copies side by side. -/
theorem Loads.cons (hp : Loads K P [p] c [t] c') (hps : Loads K P ps c' ts c'') :
    Loads K P (p :: ps) c (t :: ts) c'' where
  grows := hp.grows.trans hps.grows
  free v := (hps.free v).trans (hp.free v)
  sound := hps.sound
  inside u hu := by
    rcases List.mem_cons.1 hu with rfl | hu
    · exact hps.grows.heap.inside (hp.inside u (by simp))
    · exact hps.inside u hu
  names x hx := by
    rcases List.mem_append.1 hx with hx | hx
    · obtain ⟨u, hu⟩ := Option.isSome_iff_exists.1 (hp.names x (by simpa [namesAll] using hx))
      rw [hps.grows.env x u hu]
      rfl
    · exact hps.names x hx
  only x hx := by
    rcases hps.only x hx with hx | hx
    · refine (hp.only x hx).imp_right fun hmem => List.mem_append_left _ ?_
      simpa [namesAll] using hmem
    · exact .inr (List.mem_append_right _ hx)
  -- A solution is carried over the first pattern, and from there over the others.
  keeps ρ θ Ts hm hTs := by
    obtain ⟨T, Us, rfl, hT, hUs⟩ := hTs
    obtain ⟨ρ₁, hagree₁, hm₁, htree⟩ := hp.keeps ρ θ [T] hm (describesAll_singleton.2 hT)
    obtain ⟨ρ₂, hagree₂, hm₂, htrees⟩ := hps.keeps ρ₁ θ Us hm₁ hUs
    refine ⟨ρ₂, fun v hv => ?_, hm₂, ?_⟩
    · rw [hagree₂ v (hv.trans_le hp.grows.heap.vars), hagree₁ v hv]
    · rw [List.map_cons, htrees,
        hps.grows.heap.tree hp.sound.plain.good (hp.inside t (by simp)).1 hagree₂]
      simpa using htree
  describes ρ θ hm := by
    have hm₁ := hps.grows.models hp.sound hm
    refine ⟨_, _, rfl, ?_, hps.describes ρ θ hm⟩
    rw [hps.grows.heap.tree hp.sound.plain.good (hp.inside t (by simp)).1 fun _ _ => rfl]
    exact describesAll_singleton.1 (hp.describes ρ θ hm₁)

/-- A name with a value. -/
theorem Loads.known (hs : c.Sound K P) (hx : c.env x = some t) : Loads K P [.var x] c [t] c where
  grows := .refl c
  free _ := rfl
  sound := hs
  inside u hu := by obtain rfl := List.mem_singleton.1 hu; exact hs.env x u hx
  names y hy := by
    obtain rfl : y = x := by simpa [namesAll, Pattern.names] using hy
    rw [hx]
    rfl
  only _ hy := .inl hy
  keeps ρ θ Ts hm hTs := by
    obtain ⟨T, Us, rfl, rfl, rfl⟩ := hTs
    exact ⟨ρ, fun _ _ => rfl, hm, by simp [hm.names x t hx]⟩
  describes ρ θ hm := describesAll_singleton.2 (hm.names x t hx)

/-- Trees for the variables of a heap and for the next new one. -/
theorem exists_extended (ρ : Valuation) (n : Nat) (T : Tree) :
    ∃ ρ' : Valuation, (∀ v < n, ρ' v = ρ v) ∧ ρ' n = T :=
  ⟨fun v => if v = n then T else ρ v, fun _ hv => if_neg (Nat.ne_of_lt hv), if_pos rfl⟩

/-- A name without a value. -/
theorem Loads.unknown (hs : c.Sound K P) (hx : c.env x = none) :
    Loads K P [.var x] c [.var c.heap.vars.size]
      ((c.withHeap (c.heap.fresh x).2).put x (.var c.heap.vars.size)) := by
  have hl := later_fresh (h := c.heap) x
  have hs' : (c.withHeap (c.heap.fresh x).2).Sound K P := hs.later hl (hs.plain.fresh x)
  have hin : (c.heap.fresh x).2.Inside P (.var c.heap.vars.size) := ⟨by simp, hs.vars _ le_rfl⟩
  exact
    { grows := (Grows.later hl).trans (Grows.put (c := c.withHeap (c.heap.fresh x).2) hx _)
      free := fun v => binding?_fresh
      sound := hs'.put hin
      inside := fun u hu => by obtain rfl := List.mem_singleton.1 hu; exact hin
      names := fun y hy => by
        obtain rfl : y = x := by simpa [namesAll, Pattern.names] using hy
        simp [Scope.put]
      only := fun y hy => by
        by_cases hyx : y = x
        · exact .inr (by simp [hyx, namesAll, Pattern.names])
        · exact .inl (by simpa [Scope.put, withHeap, hyx] using hy)
      -- The new variable is given the tree that the name stands for.
      keeps := fun ρ θ Ts hm hTs => by
        obtain ⟨T, Us, rfl, rfl, rfl⟩ := hTs
        obtain ⟨ρ', hagree, hnew⟩ := exists_extended ρ c.heap.vars.size (θ x)
        have hm' := hm.later hs hl (fun v => binding?_fresh) hagree
        refine ⟨ρ', hagree, hm'.put ?_, ?_⟩
        · rw [tree_var, hnew]
        · simp [hnew]
      describes := fun ρ θ hm => describesAll_singleton.2 (hm.names x _ (by simp [Scope.put])) }

/-- An anonymous variable. -/
theorem Loads.void (hs : c.Sound K P) :
    Loads K P [.void] c [.var c.heap.vars.size] (c.withHeap (c.heap.fresh "_").2) := by
  have hl := later_fresh (h := c.heap) "_"
  exact
    { grows := .later hl
      free := fun v => binding?_fresh
      sound := hs.later hl (hs.plain.fresh _)
      inside := fun u hu => by
        obtain rfl := List.mem_singleton.1 hu
        exact ⟨by simp [withHeap], hs.vars _ le_rfl⟩
      names := by simp [namesAll, Pattern.names]
      only := fun _ hx => .inl hx
      keeps := fun ρ θ Ts hm hTs => by
        obtain ⟨T, Us, rfl, -, rfl⟩ := hTs
        obtain ⟨ρ', hagree, hnew⟩ := exists_extended ρ c.heap.vars.size T
        exact ⟨ρ', hagree, hm.later hs hl (fun v => binding?_fresh) hagree, by simp [hnew]⟩
      describes := fun ρ θ hm => describesAll_singleton.2 trivial }

/-- A constant is loaded as it is. -/
theorem Loads.const {k : Constant} (hs : c.Sound K P) (hk : k ∈ K) :
    Loads K P [.const k] c [.const k] c where
  grows := .refl c
  free _ := rfl
  sound := hs
  inside u hu := by obtain rfl := List.mem_singleton.1 hu; exact ⟨trivial, hs.constants k hk⟩
  names := by simp [namesAll, Pattern.names]
  only _ hx := .inl hx
  keeps ρ θ Ts hm hTs := by
    obtain ⟨T, Us, rfl, rfl, rfl⟩ := hTs
    exact ⟨ρ, fun _ _ => rfl, hm, by simp [tree_const]⟩
  describes ρ θ hm := describesAll_singleton.2 tree_const

/-- A structure over copies. -/
theorem Loads.struct {f : String} (hps : Loads K P ps c ts c') (hne : ts ≠ []) :
    Loads K P [.struct f ps] c [.struct c'.heap.structs.size]
      (c'.withHeap (c'.heap.newStruct f ts .none).2) := by
  have hl := later_newStruct (h := c'.heap) f ts
  have hp := hps.sound.plain
  have hcell : (c'.heap.newStruct f ts .none).2.structCell c'.heap.structs.size =
      ⟨f, ts, .none⟩ := by rw [structCell_newStruct, if_pos rfl]
  -- The tree of the structure has the trees of its parts, on the smaller heap too.
  have htree : ∀ ρ : Valuation, (c'.heap.newStruct f ts .none).2.tree K ρ
      (.struct c'.heap.structs.size) = .node f (ts.map (c'.heap.tree K ρ)) := by
    intro ρ
    rw [tree_struct, hcell]
    refine congrArg _ (List.map_congr_left fun t ht => ?_)
    exact hl.tree hp.good (hps.inside t ht).1 fun _ _ => rfl
  exact
    { grows := hps.grows.trans (.later hl)
      free := hps.free
      sound := hps.sound.later hl (hp.newStruct f hps.inside hne)
      inside := fun u hu => by
        obtain rfl := List.mem_singleton.1 hu
        exact ⟨by simp [withHeap], hps.sound.structs _ le_rfl⟩
      names := fun x hx => hps.names x (by simpa [namesAll, Pattern.names] using hx)
      only := fun x hx => (hps.only x hx).imp_right fun hmem => by
        simpa [namesAll, Pattern.names] using hmem
      keeps := fun ρ θ Us hm hUs => by
        obtain ⟨T, Us, rfl, ⟨Ts, rfl, hTs⟩, rfl⟩ := hUs
        obtain ⟨ρ', hagree, hm', htrees⟩ := hps.keeps ρ θ Ts hm hTs
        refine ⟨ρ', hagree, hm'.later hps.sound hl (fun _ => rfl) fun _ _ => rfl, ?_⟩
        simp [withHeap, htree, htrees]
      describes := fun ρ θ hm => by
        have hm' := (Grows.later (c := c') hl).models hps.sound hm
        exact describesAll_singleton.2 ⟨_, htree ρ, hps.describes ρ θ hm'⟩ }

/-- As many values are loaded as there are patterns. -/
theorem length_loadAll (ps : List Pattern) : ∀ c, (loadAll ps c).1.length = ps.length := by
  induction ps with
  | nil => exact fun _ => rfl
  | cons p ps ih => intro c; simp [loadAll, ih]

mutual

/-- **A copy of a pattern stands for the trees that the pattern describes.** -/
theorem load_loads : ∀ (p : Pattern) {c : Scope}, p.Full K → c.Sound K P →
    Loads K P [p] c [(p.load c).1] (p.load c).2
  | .var x, c, _, hs => by
    rw [load]
    cases hx : c.env x with
    | some t => exact .known hs hx
    | none => exact .unknown hs hx
  | .void, c, _, hs => .void hs
  | .const k, c, hk, hs => .const hs hk
  | .struct f ps, c, hfull, hs => by
    have hps := loadAll_loads ps hfull.2 hs
    refine .struct hps fun hnil => hfull.1 ?_
    rw [← List.length_eq_zero_iff, ← length_loadAll ps c, hnil, List.length_nil]

/-- Copies of patterns stand for the trees that the patterns describe. -/
theorem loadAll_loads : ∀ (ps : List Pattern) {c : Scope}, FullAll K ps → c.Sound K P →
    Loads K P ps c (loadAll ps c).1 (loadAll ps c).2
  | [], c, _, hs => .nil hs
  | p :: ps, c, hfull, hs => by
    have hp := load_loads p hfull.1 hs
    exact hp.cons (loadAll_loads ps hfull.2 hp.sound)

end

end Pattern

end PrologMachine
