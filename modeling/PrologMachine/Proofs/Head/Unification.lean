/-
  PrologMachine.Proofs.Head.Unification ── **HEAD CODE IS UNIFICATION.**

  The code of a head, run against a goal, and the unification of the goal with a copy of the head come
  to the same: the one runs through exactly when the other succeeds, and then the variables of the goal
  and of the head stand for the same terms.  Both leave the trees that the head describes and that the
  goal can stand for (`Scope.Answers`); terms with the same instances are the same up to a renaming.

    * `Heap.Around`: the part of the heap around a term.
    * `Scope.Alike`: names and variables with the same values up to one renaming.
    * `Machine.EntersHead`: the machine as a call leaves it that enters a clause.
    * `Machine.head_unifies` is the main statement.
-/
import PrologMachine.Proofs.Head.Decoding
import PrologMachine.Proofs.Heap.Widening

namespace PrologMachine

/-! ## §1. What a term consists of. -/

namespace Heap

variable {h h' : Heap} {K : Set Constant} {t u : Value} {v : VarId} {s : StructId}

/-- A part of what is inside is inside. -/
theorem Part.inside {P : Value → Prop} (hp : h.PlainOn K P) (ht : h.Inside P t) (hu : h.Part t u) :
    h.Inside P u := by
  induction hu with
  | whole => exact ht
  | bound _ hv ih => exact ⟨hp.good.bindings _ _ hv, hp.bindings _ _ ih.2 hv⟩
  | arg _ ha ih => exact hp.inside_args ih.2 _ ha

/-- A part of a term that is a structure at the root is on the way to the root or in an argument. -/
theorem Part.cases_root (hg : h.Good) (ht : h.deref t = .struct s) (hu : h.Part t u) :
    h.deref u = .struct s ∨ ∃ a ∈ (h.structCell s).args, h.Part a u := by
  induction hu with
  | whole => exact .inl ht
  | bound _ hv ih =>
    refine ih.imp (fun hd => ?_) fun ⟨a, ha, hv'⟩ => ⟨a, ha, hv'.bound hv⟩
    rwa [deref_bound hg hv] at hd
  | arg _ ha ih =>
    rcases ih with hd | ⟨a, ha', hs⟩
    · rw [deref_struct] at hd
      obtain rfl := Value.struct.inj hd
      exact .inr ⟨_, ha, .whole⟩
    · exact .inr ⟨a, ha', hs.arg ha⟩

/-- The values around a term: its parts, the constants `K`, and cells that do not exist yet. -/
def Around (h : Heap) (K : Set Constant) (t : Value) : Value → Prop
  | .var v => h.Part t (.var v) ∨ h.vars.size ≤ v
  | .struct s => h.Part t (.struct s) ∨ h.structs.size ≤ s
  | .const k => k ∈ K
  | .absent => False

/-- A part of a term is around it. -/
theorem Part.around (hg : h.Good) (ht : h.Holds t) (hK : ∀ k, h.Part t (.const k) → k ∈ K)
    (hu : h.Part t u) : h.Around K t u := by
  cases u with
  | var v => exact .inl hu
  | struct s => exact .inl hu
  | const k => exact hK k hu
  | absent => exact (hu.holds hg ht).elim

/-- A heap is plain around a term with arguments. -/
theorem plainOn_around (hg : h.Good) (ht : h.Holds t) (hK : ∀ k, h.Part t (.const k) → k ∈ K)
    (hfull : ∀ s, h.Part t (.struct s) → (h.structCell s).args ≠ []) :
    h.PlainOn K (h.Around K t) where
  good := hg
  constants _ hk := hk
  bindings v u hv hu := by
    rcases hv with hv | hv
    · exact (hv.bound hu).around hg ht hK
    · rw [binding?_eq_none hv] at hu
      cases hu
  args s hs u hu := by
    rcases hs with hs | hs
    · exact (hs.arg hu).around hg ht hK
    · simp [structCell, Array.getElem?_eq_none hs] at hu
  nonempty s hlt hs := by
    rcases hs with hs | hs
    · exact hfull s hs
    · exact absurd hlt (Nat.not_lt.2 hs)

/-- Values keep their nodes on a heap that grows without a binding. -/
theorem Later.nodeAt (hl : h.Later h') (hg : h.Good) (hg' : h'.Good)
    (hsame : ∀ v, h'.binding? v = h.binding? v) (p : List Nat) : ∀ {t : Value}, h.Holds t →
      h'.nodeAt p t = h.nodeAt p t := by
  -- Chains end where they did, and the structures at their ends have their old cells.
  have hderef := deref_of_same hg hg' hsame
  induction p with
  | nil =>
    intro t ht
    rw [Heap.nodeAt, Heap.nodeAt, hderef]
    have hd := hg.holds_deref ht
    cases hdt : h.deref t with
    | struct s =>
      rw [hdt] at hd
      simp only [node, hl.cells s hd]
    | _ => rfl
  | cons i p ih =>
    intro t ht
    rw [Heap.nodeAt, Heap.nodeAt, hderef]
    have hd := hg.holds_deref ht
    cases hdt : h.deref t with
    | struct s =>
      rw [hdt] at hd
      simp only [arguments, hl.cells s hd]
      cases harg : (h.structCell s).args[i]? with
      | none => rfl
      | some a => exact ih (hg.args s a (List.mem_of_getElem? harg))
    | _ => rfl

/-- So they stay the same terms. -/
theorem Later.variant (hl : h.Later h') (hg : h.Good) (hg' : h'.Good)
    (hsame : ∀ v, h'.binding? v = h.binding? v) (ht : h.Holds t) : Variant id h t h' t := by
  intro p
  rw [hl.nodeAt hg hg' hsame p ht]
  cases h.nodeAt p t with
  | none => exact .none
  | some n =>
    cases n with
    | functor f k => exact .some .functor
    | const c => exact .some (.const (by simp [Constant.equal, Constant.same]))
    | var v => exact .some .var

/-- A structure without arguments unifies with a new one of its name, and nothing is bound. -/
theorem unify_nullary {name : String} (hg : h.Good) (ht : h.Holds t) (hd : h.deref t = .struct s)
    (hname : (h.structCell s).name = name) (hargs : (h.structCell s).args = []) :
    (h.newStruct name [] .none).2.unify t (.struct h.structs.size) =
      (true, ⟨(h.newStruct name [] .none).2, [], []⟩) := by
  have hg' : (h.newStruct name [] .none).2.Good := hg.newStruct name (by simp)
  have hd' : (h.newStruct name [] .none).2.deref t = .struct s :=
    (deref_of_same hg hg' (fun _ => rfl) t).trans hd
  have hs : s < h.structs.size := by
    have hheld := hg.holds_deref ht
    rwa [hd] at hheld
  have hne : s ≠ h.structs.size := Nat.ne_of_lt hs
  have hsame : t.same (.struct h.structs.size) = false := by
    cases t with
    | struct r => exact beq_false_of_ne (Nat.ne_of_lt ht)
    | _ => rfl
  have hends : (Value.struct s).same (.struct h.structs.size) = false := beq_false_of_ne hne
  have hbound : (h.newStruct name [] .none).2.walkBound =
      cycleDepth + (h.newStruct name [] .none).2.structs.size *
        (h.newStruct name [] .none).2.structs.size + 1 + 1 := rfl
  -- The two structures are different cells with one name and no arguments, so unification ends at once.
  have hold : (h.newStruct name [] .none).2.structCell s = h.structCell s := by
    rw [structCell_newStruct, if_neg hne]
  have hnew : (h.newStruct name [] .none).2.structCell h.structs.size = ⟨name, [], .none⟩ := by
    rw [structCell_newStruct, if_pos rfl]
  have henter : SeenPairs.enter? [] 0 s h.structs.size = some [] := rfl
  simp [unify, hbound, Unifier.unify, hsame, hd', hends, hold, hnew, hname, hargs, henter,
    Unifier.pairwise]

end Heap

/-! ## §2. Scopes with the same terms. -/

namespace Scope

open Heap

variable {K : Set Constant} {P : Value → Prop} {c c' : Scope} {I : Set (VarId ⊕ String)}

/-- The value of a variable or a name. -/
def value (c : Scope) : VarId ⊕ String → Option Value
  | .inl v => some (.var v)
  | .inr x => c.env x

/-- The variables and names `I` have the same values in both scopes, up to one renaming of variables and
    up to equality of constants. -/
def Alike (I : Set (VarId ⊕ String)) (c c' : Scope) : Prop :=
  ∃ σ : VarId → VarId,
    (∀ i ∈ I, ∃ a b, c.value i = some a ∧ c'.value i = some b ∧
      Variant σ c.heap a c'.heap b) ∧
    ∀ i ∈ I, ∀ j ∈ I, ∀ a b p q v w, c.value i = some a → c.value j = some b →
      c.heap.nodeAt p a = some (.var v) → c.heap.nodeAt q b = some (.var w) → σ v = σ w → v = w

/-- Whatever fits the one scope fits the other, with the same trees for `I`. -/
def Covers (K : Set Constant) (I : Set (VarId ⊕ String)) (c c' : Scope) : Prop :=
  ∀ ρ θ, c.Models K ρ θ → ∃ ρ' θ', c'.Models K ρ' θ' ∧
    (∀ v, .inl v ∈ I → ρ' v = ρ v) ∧ ∀ x, .inr x ∈ I → θ' x = θ x

/-- The trees that some valuation gives the names. -/
theorem exists_models {ρ : Valuation} (hρ : c.heap.Respects K ρ) : ∃ θ, c.Models K ρ θ :=
  ⟨fun x => ((c.env x).map (c.heap.tree K ρ)).getD default, hρ, fun x t hx => by simp [hx]⟩

/-- The value that a member of `I` has. -/
private def termOf (c : Scope) (i : I) : Value := (c.value i.1).getD .absent

/-- The value under a name is the term there. -/
private theorem value_termOf (hI : ∀ i ∈ I, (c.value i).isSome) (i : I) :
    c.value i.1 = some (c.termOf i) := by
  obtain ⟨t, ht⟩ := Option.isSome_iff_exists.1 (hI i.1 i.2)
  rw [termOf, ht]
  rfl

/-- Trees that fit a scope are the trees of the values in it. -/
private theorem tree_termOf {ρ : Valuation} {θ : Assignment} (hI : ∀ i ∈ I, (c.value i).isSome)
    (hm : c.Models K ρ θ) (i : I) : c.heap.tree K ρ (c.termOf i) = i.1.elim ρ θ := by
  have hvalue := value_termOf hI i
  obtain ⟨i, hi⟩ := i
  cases i with
  | inl v =>
    rw [← Option.some.inj hvalue, tree_var]
    rfl
  | inr x => exact hm.names x _ hvalue

/-- A scope that covers another one has its instances. -/
private theorem Covers.instances (h : Covers K I c c') (hI : ∀ i ∈ I, (c.value i).isSome)
    (hI' : ∀ i ∈ I, (c'.value i).isSome) :
    InstancesOf K c.heap (c.termOf (I := I)) c'.heap (c'.termOf (I := I)) := by
  intro ρ hρ
  obtain ⟨θ, hm⟩ := exists_models hρ
  obtain ⟨ρ', θ', hm', hvars, hnames⟩ := h ρ θ hm
  refine ⟨ρ', hm'.respects, fun i => ?_⟩
  rw [tree_termOf hI hm i, tree_termOf hI' hm' i]
  obtain ⟨i, hi⟩ := i
  cases i with
  | inl v => exact hvars v hi
  | inr x => exact hnames x hi

/-- **Scopes that the same trees fit are alike.** -/
theorem alike_of_covers {P' : Value → Prop} (hK : EqualOn K) (hp : c.heap.PlainOn K P)
    (hp' : c'.heap.PlainOn K P') (hI : ∀ i ∈ I, ∃ t, c.value i = some t ∧ c.heap.Inside P t)
    (hI' : ∀ i ∈ I, ∃ t, c'.value i = some t ∧ c'.heap.Inside P' t)
    (hcovers : Covers K I c c') (hcovers' : Covers K I c' c) : Alike I c c' := by
  have hsome : ∀ i ∈ I, (c.value i).isSome := fun i hi => by
    obtain ⟨t, ht, -⟩ := hI i hi
    rw [ht]
    rfl
  have hsome' : ∀ i ∈ I, (c'.value i).isSome := fun i hi => by
    obtain ⟨t, ht, -⟩ := hI' i hi
    rw [ht]
    rfl
  have hinside : ∀ i : I, c.heap.Inside P (c.termOf i) := fun i => by
    obtain ⟨t, ht, hin⟩ := hI i.1 i.2
    rw [value_termOf hsome i] at ht
    rwa [Option.some.inj ht]
  have hinside' : ∀ i : I, c'.heap.Inside P' (c'.termOf i) := fun i => by
    obtain ⟨t, ht, hin⟩ := hI' i.1 i.2
    rw [value_termOf hsome' i] at ht
    rwa [Option.some.inj ht]
  -- Terms with the same instances differ by a renaming of their variables.
  obtain ⟨σ, hinj, hvariant⟩ := exists_renaming hK ⟨hp, hp', hinside, hinside'⟩
    (hcovers.instances hsome hsome') (hcovers'.instances hsome' hsome)
  refine ⟨σ, fun i hi => ?_, fun i hi j hj a b p q v w ha hb => ?_⟩
  · exact ⟨_, _, value_termOf hsome ⟨i, hi⟩, value_termOf hsome' ⟨i, hi⟩, hvariant ⟨i, hi⟩⟩
  · obtain rfl := Option.some.inj ((value_termOf hsome ⟨i, hi⟩).symm.trans ha)
    obtain rfl := Option.some.inj ((value_termOf hsome ⟨j, hj⟩).symm.trans hb)
    exact hinj ⟨i, hi⟩ p v ⟨j, hj⟩ q w

end Scope

/-! ## §3. Unifying a term with a copy of a pattern. -/

namespace Pattern

open Heap Scope

variable {K : Set Constant} {P : Value → Prop} {c d : Scope} {p : Pattern} {ρ : Valuation}
  {θ : Assignment} {t u : Value}

/-- **A term that the pattern describes unifies with a copy of the pattern.** -/
theorem Loads.unifies (hload : Loads K P [p] c [u] d) (hK : EqualOn K) (hs : c.Sound K P)
    (ht : c.heap.Inside P t) (hm : c.Models K ρ θ) (hp : p.Describes K θ (c.heap.tree K ρ t)) :
    (d.heap.unify t u).1 = true ∧ ∃ ρ' : Valuation, (∀ v < c.heap.vars.size, ρ' v = ρ v) ∧
      (d.withHeap (d.heap.unify t u).2.heap).Models K ρ' θ := by
  have hl := hload.grows.heap
  have ht' : d.heap.Inside P t := hl.inside ht
  have hu : d.heap.Inside P u := hload.inside u (List.mem_singleton_self u)
  obtain ⟨ρ', hagree, hm', htree⟩ := hload.keeps ρ θ [c.heap.tree K ρ t] hm
    (describesAll_singleton.2 hp)
  have heq : d.heap.tree K ρ' t = d.heap.tree K ρ' u := by
    rw [hl.tree hs.plain.good ht.1 hagree]
    exact (List.cons.inj htree).1.symm
  obtain ⟨hok, hrespects⟩ := hload.sound.plain.unify_keeps hK ht' hu hm'.respects heq
  refine ⟨hok, ρ', hagree, hrespects, fun x a hx => ?_⟩
  rw [← hm'.names x a hx]
  exact (unify_binds hload.sound.plain.good ht'.1 hu.1).later.tree hload.sound.plain.good
    (hload.sound.env x a hx).1 fun _ _ => rfl

/-- **A term that was unified with a copy of the pattern is described by it.** -/
theorem Loads.unified (hload : Loads K P [p] c [u] d) (hK : EqualOn K) (hs : c.Sound K P)
    (ht : c.heap.Inside P t) (hok : (d.heap.unify t u).1 = true)
    (hm : (d.withHeap (d.heap.unify t u).2.heap).Models K ρ θ) :
    c.Models K ρ θ ∧ p.Describes K θ (c.heap.tree K ρ t) := by
  have hl := hload.grows.heap
  have ht' : d.heap.Inside P t := hl.inside ht
  have hu : d.heap.Inside P u := hload.inside u (List.mem_singleton_self u)
  have hgrows : d.Grows (d.withHeap (d.heap.unify t u).2.heap) :=
    .later (unify_binds hload.sound.plain.good ht'.1 hu.1).later
  have hm' : d.Models K ρ θ := hgrows.models hload.sound hm
  have heq := hload.sound.plain.unify_solves hK ht' hu hok hm.respects
  refine ⟨hload.grows.models hs hm', ?_⟩
  rw [← hl.tree hs.plain.good ht.1 fun _ _ => rfl, heq]
  exact describesAll_singleton.1 (hload.describes ρ θ hm')

end Pattern

/-! ## §4. Mismatches. -/

namespace Exec

variable {α β : Type}

/-- A machine on which something has failed has it failed behind the action. -/
private def KeepsFailure (x : Exec α) : Prop :=
  ∀ m : Machine, m.success = false → (eval x m).2.success = false

private theorem KeepsFailure.bind {x : Exec α} {k : α → Exec β} (hx : KeepsFailure x)
    (hk : ∀ a, KeepsFailure (k a)) : KeepsFailure (x >>= k) := by
  intro m hm
  have hm' := hx m hm
  rw [eval_bind]
  rcases heval : eval x m with ⟨_ | a, m'⟩ <;> rw [heval] at hm'
  · exact hm'
  · exact hk a m' hm'

/-- A pure value keeps the outcome. -/
private theorem keepsFailure_pure (a : α) : KeepsFailure (pure a) := fun _ hm => hm

private theorem keepsFailure_pop : KeepsFailure pop := by
  intro m hm
  simp only [pop, eval_bind, eval_get]
  split
  · exact hm
  · cases m.top? with
    | none => exact hm
    | some f =>
      simp only [eval_bind, eval_set]
      split <;> exact hm

private theorem keepsFailure_popMany (n : Nat) : KeepsFailure (popMany n) := by
  induction n with
  | zero => exact fun _ hm => hm
  | succ n ih => exact keepsFailure_pop.bind fun _ => ih

private theorem keepsFailure_resume (f : FrameId) : KeepsFailure (resume f) := by
  intro m hm
  simp only [resume, eval_bind, eval_get]
  cases (m.frame f).returnPoint with
  | none => exact hm
  | some r => rfl

private theorem keepsFailure_backtrack : KeepsFailure backtrack := by
  intro m hm
  simp only [backtrack, eval_bind, eval_get]
  cases m.top? with
  | none => exact hm
  | some f =>
    simp only [eval_ite]
    split
    · exact hm
    -- Without a mark the frame on top is resumed, and with one the frames above it go first.
    cases (m.frame f).cutTo with
    | none => exact ((keepsFailure_resume f).bind fun _ => keepsFailure_pure true) m hm
    | some cut =>
      refine (keepsFailure_popMany _).bind (fun _ m hm => ?_) m hm
      simp only [eval_bind, eval_get]
      cases m.top? with
      | none => exact hm
      | some f =>
        simp only [eval_ite]
        split
        · exact hm
        · exact ((keepsFailure_resume f).bind fun _ => keepsFailure_pure true) _ hm

/-- Behind a mismatch something has failed. -/
theorem success_headFail (m : Machine) : (m.perform headFail).success = false := by
  have hkeeps : KeepsFailure backtrackOrEnd :=
    keepsFailure_backtrack.bind fun ok m hm => by cases ok <;> exact hm
  have hfailed : (eval headFail m).2.success = false := by
    simp only [headFail, eval_bind, eval_modify]
    exact hkeeps _ rfl
  rw [perform_eq]
  rcases heval : eval headFail m with ⟨_ | _, m'⟩ <;> rw [heval] at hfailed
  · simp only [Machine.fault]
    split <;> exact hfailed
  · exact hfailed

end Exec

namespace Machine

open Exec Pattern Scope

variable {w : World} {c : Clause} {f : FrameId} {i n : Nat} {m m' : Machine} {t u : Value}
  {s : StructId} {K : Set Constant} {P : Value → Prop} {e : Emitter} {name : String}
  {args : List Term} {hasBody : Bool} {p : Pattern} {d : Scope} {qs : List Equation}
  {out : Code × Emitter} {keys' : Set String} {ρ : Valuation} {θ : Assignment}

/-- Head code that ends in a mismatch does not run through. -/
theorem FailsHead.not_runs (h : FailsHead w c f i n m) : ¬ RunsHead w c f i n m := by
  obtain ⟨k, hk, -, m₁, -, heq⟩ := h
  intro hruns
  have hsuccess := (hruns (k + 1) hk).success
  rw [heq, success_headFail] at hsuccess
  cases hsuccess

/-! ## §5. Entering a clause. -/

/-- A call has entered the clause `c` in the frame `f`, which is on top, for the goal `t`. -/
structure EntersHead (c : Clause) (f : FrameId) (t : Value) (m : Machine) : Prop where
  /-- The head comes next. -/
  head : InHead c f 0 m
  /-- The frame has the goal and nothing else. -/
  vars : (m.frame f).vars = [("$x0", t)]
  /-- No register is being decoded. -/
  register : m.register = ""

/-- A call that enters a clause leaves the machine so. -/
theorem entersHead_called (ht : m.top? = some f) (hf : f < m.frames.size) (count : Nat) :
    EntersHead c f t ((m.called f t count).entered f c) where
  head := ⟨rfl, rfl, rfl, rfl, ht, by rw [entered, called, frames_size_changeFrame]; exact hf, rfl⟩
  vars := congrArg Frame.vars (frame_changeFrame_self hf)
  register := rfl

namespace EntersHead

/-- Only the register of the goal has a value when a clause is entered. -/
theorem env (h : EntersHead c f t m) (x : String) :
    m.scope.env x = if x = structRegister 0 then some t else none := by
  show ((m.frame m.current).vars).lookup x = _
  rw [h.head.current, h.vars, structRegister_zero]
  by_cases hx : x = "$x0"
  · simp [List.lookup, hx]
  · simp [List.lookup, beq_false_of_ne hx, hx]

/-- What has a value is that register. -/
theorem env_some (h : EntersHead c f t m) {x : String} (hx : m.scope.env x = some u) :
    x = structRegister 0 ∧ u = t := by
  rw [h.env] at hx
  split at hx
  · next hroot => exact ⟨hroot, (Option.some.inj hx).symm⟩
  · cases hx

/-- It is the one name that is known. -/
theorem known (h : EntersHead c f t m) : Known {structRegister 0} m := by
  intro x
  rw [h.env, Set.mem_singleton_iff]
  split <;> simp_all

/-- The scope at the entry is sound. -/
theorem sound (h : EntersHead c f t m) (hgood : m.heap.Good) (ht : m.heap.Holds t)
    (hK : ∀ k, m.heap.Part t (.const k) → k ∈ K)
    (hfull : ∀ s, m.heap.Part t (.struct s) → (m.heap.structCell s).args ≠ []) :
    m.scope.Sound K (m.heap.Around K t) where
  plain := Heap.plainOn_around hgood ht hK hfull
  env x u hx := by
    obtain ⟨-, rfl⟩ := h.env_some hx
    exact ⟨ht, Heap.Part.whole.around hgood ht hK⟩
  vars v hv := .inr hv
  structs s hs := .inr hs
  constants k hk := hk

end EntersHead

/-- Nothing has a name yet. -/
def unnamed (h : Heap) : Scope := ⟨fun _ => none, h⟩

/-- A scope without names is sound. -/
theorem sound_unnamed (hs : m.scope.Sound K P) : (unnamed m.heap).Sound K P :=
  ⟨hs.plain, nofun, hs.vars, hs.structs, hs.constants⟩

/-! ## §6. Heads. -/

/-- The variables of a goal and the names of a head. -/
def matched (h : Heap) (t : Value) (p : Pattern) : Set (VarId ⊕ String)
  | .inl v => h.Part t (.var v)
  | .inr x => x ∈ p.names

/-- The first `n` instructions of the head of `c`, run by `m`, do what unifying the goal `t` with the
    copy `u` does, where `d` has the names and the heap of the copy. -/
structure UnifiesHead (w : World) (c : Clause) (f : FrameId) (n : Nat) (m : Machine) (t : Value)
    (p : Pattern) (u : Value) (d : Scope) : Prop where
  /-- They run through exactly when the unification succeeds. -/
  runs : RunsHead w c f 0 n m ↔ (d.heap.unify t u).1 = true
  /-- Otherwise they end in a mismatch. -/
  fails : (d.heap.unify t u).1 = false → FailsHead w c f 0 n m
  /-- The variables of the goal and those of the head get the same values. -/
  alike : (d.heap.unify t u).1 = true →
    Scope.Alike (matched m.heap t p) ((advance w)^[n] m).scope (d.withHeap (d.heap.unify t u).2.heap)
  /-- The bindings are recorded. -/
  trailed : (d.heap.unify t u).1 = true → Trailed f m ((advance w)^[n] m)

/-- Equations of the code of a head hold under trees that make the head describe the goal. -/
theorem EntersHead.solves (h : EntersHead c f t m)
    (hdeep : DecodesDeep K {structRegister 0} [(p, 0)] { e with registers := 0 } out qs keys')
    (hnames : ∀ x ∈ p.names, isRegister x = false) (hm : (unnamed m.heap).Models K ρ θ)
    (hp : p.Describes K θ (m.heap.tree K ρ t)) :
    ∃ θ' : Assignment, (∀ x ∈ p.names, θ' x = θ x) ∧ m.scope.Models K ρ θ' ∧
      ∀ q ∈ qs, q.Holds K θ' := by
  -- The goal's register holds the tree of the goal, and the other names keep theirs.
  let θ₁ : Assignment := fun x => if x = structRegister 0 then m.heap.tree K ρ t else θ x
  have hne : ∀ x ∈ p.names, ∀ r, x ≠ structRegister r := fun x hx =>
    ne_structRegister (isStructRegister_of_not_isRegister (hnames x hx))
  have hagree₁ : ∀ x ∈ p.names, θ₁ x = θ x := fun x hx => if_neg (hne x hx 0)
  have hroot₁ : θ₁ (structRegister 0) = m.heap.tree K ρ t := if_pos rfl
  -- The equations give trees to the other registers.
  obtain ⟨θ₂, hagree₂, hqs⟩ := hdeep.solves θ₁ fun q hq => by
    obtain rfl := List.mem_singleton.1 hq
    rw [hroot₁]
    exact (describes_congr p hagree₁).2 hp
  refine ⟨θ₂, fun x hx => ?_, ⟨hm.respects, fun x a hx => ?_⟩, hqs⟩
  · rw [hagree₂ x fun r _ _ => hne x hx r, hagree₁ x hx]
  · obtain ⟨rfl, rfl⟩ := h.env_some hx
    refine hroot₁.symm.trans (hagree₂ _ fun r hr _ heq => ?_).symm
    rw [structRegister_inj] at heq
    exact absurd hr (heq ▸ Nat.lt_irrefl 0)

/-- **The code of a head with arguments does what unification with a copy of the head does.** -/
theorem EntersHead.unifies (h : EntersHead c f t m) (hK : Heap.EqualOn K)
    (hs : m.scope.Sound K P) (ht : m.heap.Inside P t)
    (hdeep : DecodesDeep K {structRegister 0} [(p, 0)] { e with registers := 0 } out qs keys')
    (hfull : p.Full K) (hnames : ∀ x ∈ p.names, isRegister x = false)
    (hblock : c.block? headLabel = some (out.1 ++ [headEnd hasBody]))
    (hroom : Room w out.1.length m) :
    UnifiesHead w c f out.1.length m t p (p.load (unnamed m.heap)).1 (p.load (unnamed m.heap)).2 := by
  have hs₀ := sound_unnamed hs
  have hload := load_loads p hfull hs₀
  generalize (p.load (unnamed m.heap)).1 = u, (p.load (unnamed m.heap)).2 = d at hload ⊢
  have hl := hload.grows.heap
  have hbinds := Heap.unify_binds hload.sound.plain.good (hl.inside ht).1
    (hload.inside u (List.mem_singleton_self u)).1
  have hsound : (d.withHeap (d.heap.unify t u).2.heap).Sound K P :=
    hload.sound.later hbinds.later
      (hload.sound.plain.unify (hl.inside ht) (hload.inside u (List.mem_singleton_self u)))
  -- A solution behind the head is a solution of the equations, so the head describes the goal.
  have hforward : ∀ ρ θ, m.scope.Models K ρ θ → (∀ q ∈ qs, q.Holds K θ) →
      (d.heap.unify t u).1 = true ∧ ∃ ρ' : Valuation, (∀ v < m.heap.vars.size, ρ' v = ρ v) ∧
        (d.withHeap (d.heap.unify t u).2.heap).Models K ρ' θ := by
    intro ρ θ hm hqs
    refine hload.unifies hK hs₀ ht ⟨hm.respects, nofun⟩ ?_
    have hroot : m.heap.tree K ρ t = θ (structRegister 0) :=
      hm.names _ t (by rw [h.env, if_pos rfl])
    rw [show (unnamed m.heap).heap = m.heap from rfl, hroot]
    exact hdeep.describes θ hqs _ (List.mem_singleton_self _)
  -- A solution of the unification makes the head describe the goal, so it solves the equations.
  have hbackward : (d.heap.unify t u).1 = true → ∀ ρ θ,
      (d.withHeap (d.heap.unify t u).2.heap).Models K ρ θ →
      ∃ θ' : Assignment, (∀ x ∈ p.names, θ' x = θ x) ∧ m.scope.Models K ρ θ' ∧
        ∀ q ∈ qs, q.Holds K θ' := by
    intro hok ρ θ hm
    obtain ⟨hm₀, hp⟩ := hload.unified hK hs₀ ht hok hm
    exact h.solves hdeep hnames hm₀ hp
  have hdecides := equations_decide hK hblock hdeep.code h.head hs h.known
    (fun q _ heq => by
      rw [h.register] at heq
      exact absurd (congrArg String.toList heq) (by simp [structRegister]))
    hdeep.nodup (hdeep.full fun q hq => by obtain rfl := List.mem_singleton.1 hq; exact hfull)
    ⟨[headEnd hasBody], rfl⟩ hroom
  cases hdecides with
  | fails hfails hrefutes =>
    have hok : (d.heap.unify t u).1 = false := by
      by_contra hne
      obtain ⟨ρ, hρ, -⟩ := Heap.exists_respects (K := K) hsound.plain.good default
      obtain ⟨θ, hm⟩ := exists_models (c := d.withHeap (d.heap.unify t u).2.heap) hρ
      obtain ⟨θ', -, hm', hqs⟩ := hbackward (Bool.not_eq_false _ ▸ hne) ρ θ hm
      exact hrefutes ρ θ' hm' hqs
    refine ⟨⟨fun hruns => (hfails.fails.not_runs hruns).elim, fun htrue => ?_⟩, fun _ => hfails.fails,
      fun htrue => ?_, fun htrue => ?_⟩ <;> rw [hok] at htrue <;> cases htrue
  | runs hruns hanswers htrailed _ hknown =>
    set m' := (advance w)^[out.1.length] m
    have hcovers : ∀ ρ θ, m'.scope.Models K ρ θ → (d.heap.unify t u).1 = true ∧
        ∃ ρ' : Valuation, (∀ v < m.heap.vars.size, ρ' v = ρ v) ∧
          (d.withHeap (d.heap.unify t u).2.heap).Models K ρ' θ := fun ρ θ hm =>
      hforward ρ θ (hanswers.grows.models hs hm) (hanswers.solves ρ θ hm)
    have hok : (d.heap.unify t u).1 = true := by
      obtain ⟨ρ, hρ, -⟩ := Heap.exists_respects (K := K) hanswers.sound.plain.good default
      obtain ⟨θ, hm⟩ := exists_models (c := m'.scope) hρ
      exact (hcovers ρ θ hm).1
    refine ⟨⟨fun _ => hok, fun _ => hruns.runs⟩, fun hfalse => ?_, fun _ => ?_, fun _ => htrailed⟩
    · rw [hok] at hfalse
      cases hfalse
    have hgoal : ∀ v, m.heap.Part t (.var v) → m.heap.Inside P (.var v) := fun v hv =>
      hv.inside hs.plain ht
    refine alike_of_covers hK hanswers.sound.plain hsound.plain (fun i hi => ?_) (fun i hi => ?_)
      (fun ρ θ hm => ?_) fun ρ θ hm => ?_
    · cases i with
      | inl v => exact ⟨_, rfl, hanswers.grows.heap.inside (hgoal v hi)⟩
      | inr x =>
        obtain ⟨a, ha⟩ := Option.isSome_iff_exists.1
          ((hknown x).2 (hdeep.names _ (List.mem_singleton_self _) x hi))
        exact ⟨a, ha, hanswers.sound.env x a ha⟩
    · cases i with
      | inl v => exact ⟨_, rfl, hbinds.later.inside (hl.inside (hgoal v hi))⟩
      | inr x =>
        obtain ⟨a, ha⟩ := Option.isSome_iff_exists.1
          (hload.names x (List.mem_append_left _ hi))
        exact ⟨a, ha, hsound.env x a ha⟩
    · obtain ⟨-, ρ', hagree, hm'⟩ := hcovers ρ θ hm
      exact ⟨ρ', θ, hm', fun v hv => hagree v (hgoal v hv).1, fun _ _ => rfl⟩
    · obtain ⟨θ', hagreeθ, hm', hqs⟩ := hbackward hok ρ θ hm
      obtain ⟨ρ', hagree, hm''⟩ := hanswers.keeps ρ θ' hm' hqs
      exact ⟨ρ', θ', hm'', fun v hv => hagree v (hgoal v hv).1, hagreeθ⟩

/-! ## §7. Heads without arguments. -/

/-- A head without arguments looks at the name of the goal, and nothing changes. -/
theorem EntersHead.treads_nil (h : EntersHead c f t m) (hgoal : m.heap.deref t = .struct s)
    (hname : (m.heap.structCell s).name = name) (harity : (m.heap.structCell s).args = [])
    (hblock : c.block? headLabel = some [getStruct name 0 0, headEnd hasBody]) (hroom : Room w 1 m) :
    TreadsHead w c f 0 1 m ∧ ((advance w)^[1] m).scope = m.scope ∧
      Trailed f m ((advance w)^[1] m) := by
  let m₀ := m.counted w (getStruct name 0 0)
  have hcounted : InHead c f 1 m₀ := h.head.counted
  have hget : (m₀.frame m₀.current).get? (getStruct name 0 0).register = some t := by
    show m.scope.env (structRegister 0) = some t
    rw [h.env, if_pos rfl]
  have hother : m₀.decoding = none ∨ m₀.register ≠ (getStruct name 0 0).register := by
    refine .inr fun heq => ?_
    rw [show m₀.register = "" from h.register] at heq
    exact absurd (congrArg String.toList heq) (by simp [getStruct, structRegister])
  have hstep := h.head.advance_eq hblock (List.getElem?_cons_zero (a := getStruct name 0 0)) hroom
  rw [perform_eq, show execute w (getStruct name 0 0) = Exec.getStruct (getStruct name 0 0) from rfl,
    eval_getStruct_read (m := m₀) hother hget hgoal rfl, if_neg] at hstep
  -- A goal of that name without arguments is read, and nothing is bound.
  · have hstays : Stays m₀ (m.advance w) := by
      rw [hstep]
      exact .of_frames ⟨rfl, rfl, rfl, rfl, rfl, rfl, rfl⟩ rfl ⟨rfl, rfl, rfl, rfl⟩ rfl
    refine ⟨.one h.head (hcounted.stays hstays) (confined_counted.trans hstays.confined), ?_, ?_⟩
    · show (m.advance w).scope = _
      rw [hstep]
      rfl
    · show Trailed f m (m.advance w)
      rw [hstep]
      exact .of_same rfl fun _ => rfl
  · rw [not_or, not_not, not_not]
    exact ⟨hname, by rw [show (m₀.heap.structCell s).args = [] from harity]; rfl⟩

/-- The code of a head without arguments does what unification with a copy of the head does. -/
theorem EntersHead.unifies_nil (h : EntersHead c f t m) (hgood : m.heap.Good) (ht : m.heap.Holds t)
    (hgoal : m.heap.deref t = .struct s) (hname : (m.heap.structCell s).name = name)
    (harity : (m.heap.structCell s).args = [])
    (hblock : c.block? headLabel = some [getStruct name 0 0, headEnd hasBody]) (hroom : Room w 1 m) :
    UnifiesHead w c f 1 m t (.struct name []) ((Pattern.struct name []).load (unnamed m.heap)).1
      ((Pattern.struct name []).load (unnamed m.heap)).2 := by
  have hcopy : (Pattern.struct name []).load (unnamed m.heap) = (.struct m.heap.structs.size,
      (unnamed m.heap).withHeap (m.heap.newStruct name [] .none).2) := by
    simp [load, loadAll, unnamed]
  have hl := Heap.later_newStruct (h := m.heap) name []
  have hgood' : (m.heap.newStruct name [] .none).2.Good := hgood.newStruct name (by simp)
  -- The goal and the copy are structures without arguments, so nothing is bound.
  have hunify : (m.heap.newStruct name [] .none).2.unify t (.struct m.heap.structs.size) =
      (true, ⟨(m.heap.newStruct name [] .none).2, [], []⟩) :=
    Heap.unify_nullary hgood ht hgoal hname harity
  obtain ⟨hruns, hscope, htrailed⟩ := h.treads_nil hgoal hname harity hblock hroom
  rw [hcopy]
  show UnifiesHead w c f 1 m t _ (.struct m.heap.structs.size)
    ((unnamed m.heap).withHeap (m.heap.newStruct name [] .none).2)
  have hok : (((unnamed m.heap).withHeap (m.heap.newStruct name [] .none).2).heap.unify t
      (.struct m.heap.structs.size)) = (true, ⟨(m.heap.newStruct name [] .none).2, [], []⟩) := hunify
  refine ⟨?_, ?_, ?_, fun _ => htrailed⟩ <;> rw [hok]
  · exact ⟨fun _ => rfl, fun _ => hruns.runs⟩
  · intro hfalse
    cases hfalse
  · intro _
    rw [hscope]
    refine ⟨id, fun i hi => ?_, fun _ _ _ _ _ _ _ _ _ _ _ _ _ _ hvw => hvw⟩
    cases i with
    | inl v =>
      have hv : m.heap.Holds (.var v) := Heap.Part.holds hgood ht hi
      exact ⟨_, _, rfl, rfl, hl.variant hgood hgood' (fun _ => rfl) hv⟩
    | inr x => cases hi

/-! ## §8. All heads. -/

/-- **Head code is unification.**  A call has entered a clause with the head `name(args)` for a goal of
    the same name and arity, whose parts are no structures without arguments.  The instructions of the
    head run through, up to the last one, exactly when the goal unifies with a copy of the head, and
    else end in a mismatch.  In the first case the variables of the goal and of the head stand for the
    same terms as after the unification, and every binding is on the trail of the callee. -/
theorem head_unifies (hargs : Term.AllNamed args) (hseen : e.seen = [])
    (hblock : c.block? headLabel = some ((decodeHead name args hasBody).eval e).1)
    (h : EntersHead c f t m) (hgood : m.heap.Good) (ht : m.heap.Holds t)
    (hgoal : m.heap.deref t = .struct s) (hname : (m.heap.structCell s).name = name)
    (harity : (m.heap.structCell s).args.length = args.length)
    (hfull : ∀ a ∈ (m.heap.structCell s).args, ∀ r, m.heap.Part a (.struct r) →
      (m.heap.structCell r).args ≠ [])
    (hK : Heap.EqualOn {k | m.heap.Part t (.const k) ∨ k ∈ (headPattern name args e).constants})
    (hroom : Room w (((decodeHead name args hasBody).eval e).1.length - 1) m) :
    UnifiesHead w c f (((decodeHead name args hasBody).eval e).1.length - 1) m t
      (headPattern name args e) ((headPattern name args e).load (unnamed m.heap)).1
      ((headPattern name args e).load (unnamed m.heap)).2 := by
  by_cases hne : args = []
  · subst hne
    rw [decodeHead_nil] at hblock hroom ⊢
    have hpattern : headPattern name [] e = .struct name [] := by simp [headPattern, Term.patterns]
    rw [hpattern]
    exact h.unifies_nil hgood ht hgoal hname (List.length_eq_zero_iff.1 harity) hblock hroom
  · obtain ⟨out, qs, keys', hcode, hdeep⟩ := decodeHead_equations
      {k | m.heap.Part t (.const k) ∨ k ∈ (headPattern name args e).constants} name hasBody hargs hne
      hseen
    have hlength : ((decodeHead name args hasBody).eval e).1.length - 1 = out.1.length := by
      rw [hcode, List.length_append, List.length_singleton, Nat.add_sub_cancel]
    rw [hlength] at hroom ⊢
    rw [hcode] at hblock
    have hne' : (m.heap.structCell s).args ≠ [] := fun hnil => hne (by
      rw [← List.length_eq_zero_iff, ← harity, hnil, List.length_nil])
    -- Around the goal every structure has arguments: the goal itself has, and its parts do by
    -- assumption.
    refine h.unifies hK (h.sound hgood ht (fun k hk => .inl hk) fun r hr => ?_)
      ⟨ht, Heap.Part.whole.around hgood ht fun k hk => .inl hk⟩ hdeep
      (headPattern_full name hargs hne fun k hk => .inr hk) (headPattern_names name hargs) hblock hroom
    rcases hr.cases_root hgood hgoal with hroot | ⟨a, ha, hr⟩
    · obtain rfl := Value.struct.inj hroot
      exact hne'
    · exact hfull a ha r hr

/-- The fact `p(f(X), X)`. -/
def crossed : Clause :=
  ⟨⟨"p", 2⟩, [("head", [
    { op := .getStruct, functor := "p", arity := 2, register := "$x0" },
    { op := .getVar, name := "$x1" }, { op := .getVar, name := "X" },
    { op := .getStruct, functor := "f", arity := 1, register := "$x1" },
    { op := .unifValue, name := "X" }, { op := .proceed }])], false, []⟩

/-- The goal `p(A, f(A))` on a heap. -/
def crossedGoal : Heap where
  vars := #[⟨"A", 1, none⟩]
  structs := #[⟨"p", [.var 0, .struct 1], .none⟩, ⟨"f", [.var 0], .none⟩]
  constants := 0
  numbered := 1

/-- The machine that has entered the fact for the goal. -/
def crossedEntry : Machine where
  heap := crossedGoal
  code := some crossed
  label := "head"
  success := true
  frames := #[{ position := 0 }, { position := 1, vars := [("$x0", .struct 0)] }]
  stack := #[0, 1]
  current := 1

/-- The heap of the example is good. -/
theorem crossedGoal_good : crossedGoal.Good where
  bindings v t hv := by rcases v with _ | v <;> simp [Heap.binding?, Heap.varCell, crossedGoal] at hv
  args s t ht := by
    rcases s with _ | _ | s <;> simp [Heap.structCell, crossedGoal] at ht
    · rcases ht with rfl | rfl <;> simp [crossedGoal]
    · subst ht
      simp [crossedGoal]
  acyclic := ⟨fun _ => 0, fun v w hv => by
    rcases v with _ | v <;> simp [Heap.binding?, Heap.varCell, crossedGoal] at hv⟩

/-- No part of the goal is a constant. -/
theorem crossedGoal_part {u : Value} (hu : crossedGoal.Part (.struct 0) u) (k : Constant) :
    u ≠ .const k := by
  induction hu with
  | whole => nofun
  | @bound v _ _ hv _ => rcases v with _ | v <;> simp [Heap.binding?, Heap.varCell, crossedGoal] at hv
  | @arg s _ _ ha _ =>
    rcases s with _ | _ | s <;> simp [Heap.structCell, crossedGoal] at ha
    · rcases ha with rfl | rfl <;> simp
    · subst ha
      simp

/-- Called with `p(A, f(A))`, the fact binds `A` to `f(X)` and `X` to `f(A)`: the terms are inside each
    other. -/
theorem head_unifies_crossed :
    let p : Pattern := .struct "p" [.struct "f" [.var "X"], .var "X"]
    let u := (p.load (unnamed crossedGoal)).1
    let d := (p.load (unnamed crossedGoal)).2
    (d.heap.unify (.struct 0) u).1 = true ∧ ((advance {})^[5] crossedEntry).heap.isBound 0 = true ∧
      UnifiesHead {} crossed 1 5 crossedEntry (.struct 0) p u d := by
  intro p u d
  -- What the head's code and the pattern of the clause are is computed.
  let e : Emitter := { compiler := 0, constants := 0 }
  let args : List Term := [.app "f" [.var "X" 0] .none 0, .var "X" 0]
  have hcode : crossed.block? headLabel = some ((decodeHead "p" args false).eval e).1 := by cbv
  have hlength : ((decodeHead "p" args false).eval e).1.length - 1 = 5 := by cbv
  have hpattern : headPattern "p" args e = p := by
    have hX : isAnonymous "X" = false := by decide
    simp [p, args, headPattern, Term.patterns, hX]
  have hnone : {k | crossedGoal.Part (.struct 0) (.const k) ∨ k ∈ p.constants} = ∅ := by
    refine Set.eq_empty_of_forall_notMem fun k hk => ?_
    rcases hk with hk | hk
    · exact crossedGoal_part hk k rfl
    · simp [p, constants, constantsAll] at hk
  have hnamed : Term.AllNamed args := by
    have hX : isRegister "X" = false := by decide
    simp [Term.AllNamed, Term.Named, args, hX]
  -- Both structures of the goal have arguments.
  have hfull : ∀ a ∈ (crossedGoal.structCell 0).args, ∀ r, crossedGoal.Part a (.struct r) →
      (crossedGoal.structCell r).args ≠ [] := by
    intro a ha r hr
    have hr' : r < 2 := hr.holds crossedGoal_good (crossedGoal_good.args 0 a ha)
    rcases r with _ | _ | r
    · exact List.cons_ne_nil _ _
    · exact List.cons_ne_nil _ _
    · exact absurd hr' (Nat.not_lt.2 (Nat.le_add_left 2 r))
  have hK : Heap.EqualOn {k | crossedGoal.Part (.struct 0) (.const k) ∨
      k ∈ (headPattern "p" args e).constants} := by
    rw [hpattern, hnone]
    exact ⟨fun k hk => absurd hk (Set.notMem_empty k), fun k _ _ hk => absurd hk (Set.notMem_empty k)⟩
  have henters : EntersHead crossed 1 (.struct 0) crossedEntry :=
    ⟨⟨rfl, rfl, rfl, rfl, rfl, by decide, rfl⟩, rfl, rfl⟩
  have hroom : Room {} (((decodeHead "p" args false).eval e).1.length - 1) crossedEntry :=
    fun hpos => absurd hpos (by decide)
  have hunifies := head_unifies (w := {}) hnamed rfl hcode henters crossedGoal_good
    (by simp [crossedEntry, crossedGoal]) rfl rfl rfl hfull hK hroom
  rw [hlength, hpattern] at hunifies
  exact ⟨by decide +kernel, by decide +kernel, hunifies⟩

end Machine

end PrologMachine
