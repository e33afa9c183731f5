/-
  PrologMachine.Proofs.Renumbering.Native ── **WHAT NATIVE PREDICATES DEPEND ON.**

  What a native predicate does may depend on the terms that its arguments stand for, but not on the
  numbers that a compiler has given to constants, on the goals of calls, or on what was written and
  logged before.

    * `Builtin.DependsOnArguments` says so, and that whatever is bound is reported.
    * `Natives`: requests that are the same up to renumbering; `Natives.run` carries them out.
    * `coreBuiltins_dependsOnArguments`: the standard native predicates.
-/
import PrologMachine.Proofs.Native
import PrologMachine.Proofs.Renumbering.Heap

namespace PrologMachine

namespace Renumbering

/-! ## §1. Scenes. -/

/-- Scenes with the same cells up to renumbering, wherever the transcripts stand. -/
structure Scenes (ρ : Renumbering) (K : Kinds) (s s' : Scene) : Prop where
  /-- The cells. -/
  heap : ρ.Heaps K s.heap s'.heap
  /-- The same variables were bound. -/
  bound : s'.bound = s.bound
  /-- The output complains alike. -/
  complaint : s'.complaint = s.complaint

end Renumbering

open Renumbering

/-- **The native predicate depends on its arguments only.** -/
structure Builtin.DependsOnArguments (b : Builtin) : Prop where
  /-- Among the same cells and for the same arguments it comes out, makes cells and binds alike. -/
  same : ∀ {ρ : Renumbering} {K : Kinds} {args args' : List Value} {s s' : Scene},
    ρ.Scenes K s s' → ρ.Vals K args args' →
      (b.call args' s').1 = (b.call args s).1 ∧
        ∃ K', K ≤ K' ∧ ρ.Scenes K' (b.call args s).2 (b.call args' s').2
  /-- It binds variables that exist and reports them. -/
  grows : ∀ {args : List Value} {s : Scene}, s.heap.Good → (∀ t ∈ args, s.heap.Holds t) →
    s.Grows (b.call args s).2

namespace Renumbering

variable {ρ : Renumbering} {K : Kinds} {h h' : Heap} {t t' : Value} {args args' : List Value}

/-! ## §2. Requests. -/

/-- The same requests up to renumbering, when the structures of terms are `K`. -/
inductive Natives (ρ : Renumbering) : Kinds → Native → Native → Prop where
  /-- Both succeed or both fail. -/
  | done {K : Kinds} (ok : Bool) : Natives ρ K (.done ok) (.done ok)
  /-- Both give up. -/
  | raise {K : Kinds} (text : String) : Natives ρ K (.raise text) (.raise text)
  /-- Both unify. -/
  | unify {K : Kinds} {a a' b b' : Value} {next next' : Bool → Native} (ha : ρ.Val K a a')
    (hb : ρ.Val K b b') (hnext : ∀ ok, Natives ρ K (next ok) (next' ok)) :
    Natives ρ K (.unify a b next) (.unify a' b' next')
  /-- Both look at the heap. -/
  | look {K : Kinds} {next next' : Heap → Native}
    (hnext : ∀ h h', ρ.Heaps K h h' → Natives ρ K (next h) (next' h')) :
    Natives ρ K (.look next) (.look next')
  /-- Both make a constant. -/
  | constant {K : Kinds} {value : Atomic} {next next' : Constant → Native}
    (hnext : ∀ c c', ρ.Const c c' → Natives ρ K (next c) (next' c')) :
    Natives ρ K (.constant value next) (.constant value next')
  /-- Both make a variable. -/
  | newVar {K : Kinds} {name : String} {id : Int} {next next' : VarId → Native}
    (hnext : ∀ v, Natives ρ K (next v) (next' v)) :
    Natives ρ K (.newVar name id next) (.newVar name id next')
  /-- Both make a structure, which belongs to terms from then on. -/
  | newStruct {K : Kinds} {name : String} {args args' : List Value} {next next' : StructId → Native}
    (hargs : ρ.Vals K args args') (hnext : ∀ s, Natives ρ (K.addData s) (next s) (next' s)) :
    Natives ρ K (.newStruct name args next) (.newStruct name args' next')
  /-- Both write. -/
  | write {K : Kinds} {text : String} {next next' : Option String → Native}
    (hnext : ∀ e, Natives ρ K (next e) (next' e)) :
    Natives ρ K (.write text next) (.write text next')
  /-- Both log. -/
  | log {K : Kinds} {entry : LogEntry} {next next' : Native} (hnext : Natives ρ K next next') :
    Natives ρ K (.log entry next) (.log entry next')

/-- **The same requests have one outcome.** -/
theorem Natives.run {n n' : Native} (hn : ρ.Natives K n n') : ∀ {s s' : Scene}, ρ.Scenes K s s' →
    (n'.run s').1 = (n.run s).1 ∧ ∃ K', K ≤ K' ∧ ρ.Scenes K' (n.run s).2 (n'.run s').2 := by
  -- By the requests of the native: what it makes gets one number on both sides, and what it reads is the
  -- same.
  induction hn with
  | done ok => exact fun hs => ⟨rfl, _, le_rfl, hs⟩
  | raise text => exact fun hs => ⟨rfl, _, le_rfl, hs⟩
  | @unify K a a' b b' next next' ha hb _ ih =>
    intro s s' hs
    obtain ⟨hok, hu⟩ := hs.heap.unify ha hb
    rw [Native.run, Native.run]
    generalize s.heap.unify a b = r at hok hu
    generalize s'.heap.unify a' b' = r' at hok hu
    obtain ⟨ok, u⟩ := r
    obtain ⟨ok', u'⟩ := r'
    obtain rfl : ok' = ok := hok
    exact ih ok' ⟨hu.heap, by rw [hu.bound, hs.bound], hs.complaint⟩
  | look _ ih => exact fun hs => ih _ _ hs.heap hs
  | @constant K value next next' _ ih =>
    exact fun hs => ih _ _ (hs.heap.newConst_const value)
      ⟨hs.heap.newConst value, hs.bound, hs.complaint⟩
  | @newVar K name id next next' _ ih =>
    intro s s' hs
    have hscenes : ρ.Scenes K { s with heap := (s.heap.newVar name id).2 }
        { s' with heap := (s'.heap.newVar name id).2 } :=
      ⟨hs.heap.newVar name id, hs.bound, hs.complaint⟩
    have hrun : (Native.newVar name id next').run s' = (next' s.heap.vars.size).run
        { s' with heap := (s'.heap.newVar name id).2 } := by
      rw [← hs.heap.vars]
      rfl
    rw [hrun]
    exact ih s.heap.vars.size hscenes
  | @newStruct K name args args' next next' hargs _ ih =>
    intro s s' hs
    have hscenes : ρ.Scenes (K.addData s.heap.structs.size)
        { s with heap := (s.heap.newStruct name args .none).2 }
        { s' with heap := (s'.heap.newStruct name args' .none).2 } :=
      -- A structure that is made by a native is data, so its name is kept by every renumbering.
      ⟨hs.heap.newData name hargs, hs.bound, hs.complaint⟩
    have hrun : (Native.newStruct name args' next').run s' = (next' s.heap.structs.size).run
        { s' with heap := (s'.heap.newStruct name args' .none).2 } := by
      rw [← hs.heap.structs]
      rfl
    rw [hrun]
    obtain ⟨hout, K', hK, hlast⟩ := ih s.heap.structs.size hscenes
    exact ⟨hout, K', (K.le_addData _).trans hK, hlast⟩
  | @write K text next next' _ ih =>
    intro s s' hs
    rw [Native.run, Native.run, hs.complaint]
    split
    · exact ih _ hs
    · exact ih _ ⟨hs.heap, hs.bound, rfl⟩
  | log _ ih => exact fun hs => ih ⟨hs.heap, hs.bound, hs.complaint⟩

/-- A native predicate whose requests are the same for the same arguments. -/
theorem call_same {b : Builtin} {fn : List Value → Native} (hfn : b.function = some fn)
    (hsame : ∀ {args args' : List Value}, ρ.Vals K args args' → ρ.Natives K (fn args) (fn args'))
    {s s' : Scene} (hs : ρ.Scenes K s s') (hargs : ρ.Vals K args args') :
    (b.call args' s').1 = (b.call args s).1 ∧
      ∃ K', K ≤ K' ∧ ρ.Scenes K' (b.call args s).2 (b.call args' s').2 := by
  unfold Builtin.call
  rw [hargs.length_eq]
  split
  · exact ⟨rfl, K, le_rfl, hs⟩
  rw [hfn]
  simp only
  obtain ⟨hout, hscenes⟩ := (hsame hargs).run hs
  rcases hrun : (fn args).run s with ⟨_ | ok, s₁⟩ <;>
    rcases hrun' : (fn args').run s' with ⟨_ | ok', s₁'⟩ <;> rw [hrun, hrun'] at hout hscenes <;>
    first | cases hout; exact ⟨rfl, hscenes⟩ | cases hout

/-- Requests that make a structure around a new variable and unify it. -/
example {t t' : Value} (ht : ρ.Val K t t') : ρ.Natives K
    (.newVar "_#" 0 fun v => .newStruct "box" [.var v] fun s => .unify t (.struct s) .done)
    (.newVar "_#" 0 fun v => .newStruct "box" [.var v] fun s => .unify t' (.struct s) .done) :=
  .newVar fun _ => .newStruct (.cons rfl .nil) fun s =>
    .unify (ht.mono (K.le_addData s)) ⟨rfl, Set.mem_insert s K.data⟩ .done

/-! ## §3. The standard native predicates. -/

theorem Heaps.isAtom (hh : ρ.Heaps K h h') (ht : ρ.Val K t t') : h'.isAtom t' = h.isAtom t := by
  cases t <;> cases t' <;> first | exact ht.elim | rfl | skip
  next c c' =>
    obtain ⟨value, cell⟩ := c
    obtain ⟨value', cell'⟩ := c'
    obtain rfl : value' = value := ht.value
    cases value' <;> rfl
  next s s' =>
    obtain ⟨rfl, -⟩ := ht
    exact hh.isEmpty _

/-- A number stays a number. -/
theorem Val.isNumber (ht : ρ.Val K t t') : t'.isNumber = t.isNumber := by
  cases t <;> cases t' <;> first | exact ht.elim | rfl | skip
  next c c' =>
    obtain ⟨value, cell⟩ := c
    obtain ⟨value', cell'⟩ := c'
    obtain rfl : value' = value := ht.value
    cases value' <;> rfl

/-- A variable stays a variable. -/
theorem Val.isVar (ht : ρ.Val K t t') : t'.isVar = t.isVar := by
  cases t <;> cases t' <;> first | exact ht.elim | rfl

/-- A compound term stays one. -/
theorem Heaps.isCompound (hh : ρ.Heaps K h h') (ht : ρ.Val K t t') :
    h'.isCompound t' = h.isCompound t := by
  cases t <;> cases t' <;> first | exact ht.elim | rfl | skip
  obtain ⟨rfl, -⟩ := ht
  exact congrArg (!·) (hh.isEmpty _)

/-- The text of a value stays. -/
theorem Heaps.plainText (hh : ρ.Heaps K h h') (ht : ρ.Val K t t') :
    h'.plainText t' = h.plainText t := by
  have hd := hh.deref ht
  have htext := hh.text ht
  unfold Heap.plainText
  cases hr : h.deref t <;> cases hr' : h'.deref t' <;> rw [hr, hr'] at hd <;>
    first | exact hd.elim | exact htext | skip
  next c c' =>
    obtain ⟨value, cell⟩ := c
    obtain ⟨value', cell'⟩ := c'
    obtain rfl : value' = value := hd.value
    cases value' <;> first | rfl | exact htext

/-- A type test has one outcome. -/
theorem typeTest_same {p : Heap → Value → Bool}
    (hp : ∀ {h h' t t'}, ρ.Heaps K h h' → ρ.Val K t t' → p h' t' = p h t)
    (hargs : ρ.Vals K args args') : ρ.Natives K (typeTest p args) (typeTest p args') := by
  rcases hargs with _ | ⟨ht, _ | ⟨-, -⟩⟩
  · exact .done false
  · refine .look fun h h' hh => ?_
    rw [hp hh (hh.deref ht)]
    exact .done _
  · exact .done false

/-- A native predicate for two arguments. -/
theorem pair_same {fn : List Value → Native}
    (hother : ∀ args : List Value, args.length ≠ 2 → fn args = .done false)
    (hpair : ∀ {a a' b b'}, ρ.Val K a a' → ρ.Val K b b' → ρ.Natives K (fn [a, b]) (fn [a', b']))
    (hargs : ρ.Vals K args args') : ρ.Natives K (fn args) (fn args') := by
  by_cases hlen : args.length = 2
  · rcases hargs with _ | ⟨ha, _ | ⟨hb, _ | ⟨-, -⟩⟩⟩
    · cases hlen
    · cases hlen
    · exact hpair ha hb
    · cases hlen
  · rw [hother args hlen, hother args' (hargs.length_eq ▸ hlen)]
    exact .done false

theorem unifyNative_same (hargs : ρ.Vals K args args') :
    ρ.Natives K (unifyNative args) (unifyNative args') := by
  refine pair_same (fun args h => ?_) (fun ha hb => .unify ha hb fun ok => .done ok) hargs
  unfold unifyNative
  split
  · exact absurd rfl h
  · rfl

theorem notUnifiableNative_same (hargs : ρ.Vals K args args') :
    ρ.Natives K (notUnifiableNative args) (notUnifiableNative args') := by
  refine pair_same (fun args h => ?_) (fun ha hb => .look fun h h' hh => ?_) hargs
  · unfold notUnifiableNative
    split
    · exact absurd rfl h
    · rfl
  · rw [hh.unifiable ha hb]
    exact .done _

theorem identicalNative_same (hargs : ρ.Vals K args args') :
    ρ.Natives K (identicalNative args) (identicalNative args') := by
  refine pair_same (fun args h => ?_) (fun ha hb => .look fun h h' hh => ?_) hargs
  · unfold identicalNative
    split
    · exact absurd rfl h
    · rfl
  · rw [hh.identical ha hb]
    exact .done _

/-- Comparing natively for difference. -/
theorem notIdenticalNative_same (hargs : ρ.Vals K args args') :
    ρ.Natives K (notIdenticalNative args) (notIdenticalNative args') := by
  refine pair_same (fun args h => ?_) (fun ha hb => .look fun h h' hh => ?_) hargs
  · unfold notIdenticalNative
    split
    · exact absurd rfl h
    · rfl
  · rw [hh.identical ha hb]
    exact .done _

theorem writeText_same (text : String) : ρ.Natives K (writeText text) (writeText text) := by
  refine .write fun e => ?_
  cases e with
  | none => exact .done true
  | some complaint => exact .raise complaint

theorem writeNative_same (hargs : ρ.Vals K args args') :
    ρ.Natives K (writeNative args) (writeNative args') := by
  rcases hargs with _ | ⟨ht, _ | ⟨-, -⟩⟩
  · exact .done false
  · refine .look fun h h' hh => ?_
    rw [hh.plainText ht]
    exact writeText_same _
  · exact .done false

theorem newlineNative_same (hargs : ρ.Vals K args args') :
    ρ.Natives K (newlineNative args) (newlineNative args') := by
  rcases hargs with _ | ⟨-, -⟩
  · exact writeText_same _
  · exact .done false

/-- Every standard native predicate makes the same requests for the same arguments. -/
theorem coreBuiltins_same {b : Builtin} (hb : b ∈ coreBuiltins) :
    ∃ fn, b.function = some fn ∧ ∀ {ρ : Renumbering} {K : Kinds} {args args' : List Value},
      ρ.Vals K args args' → ρ.Natives K (fn args) (fn args') := by
  simp only [coreBuiltins, List.mem_cons, List.not_mem_nil, or_false] at hb
  rcases hb with rfl | rfl | rfl | rfl | rfl | rfl | rfl | rfl | rfl | rfl | rfl | rfl
  · exact ⟨_, rfl, unifyNative_same⟩
  · exact ⟨_, rfl, notUnifiableNative_same⟩
  · exact ⟨_, rfl, identicalNative_same⟩
  · exact ⟨_, rfl, notIdenticalNative_same⟩
  · exact ⟨_, rfl, typeTest_same fun _ ht => ht.isVar⟩
  · exact ⟨_, rfl, typeTest_same fun _ ht => by rw [ht.isVar]⟩
  · exact ⟨_, rfl, typeTest_same fun hh ht => hh.isAtom ht⟩
  · exact ⟨_, rfl, typeTest_same fun _ ht => ht.isNumber⟩
  · exact ⟨_, rfl, typeTest_same fun hh ht => by rw [hh.isAtom ht, ht.isNumber]⟩
  · exact ⟨_, rfl, typeTest_same fun hh ht => hh.isCompound ht⟩
  · exact ⟨_, rfl, writeNative_same⟩
  · exact ⟨_, rfl, newlineNative_same⟩

end Renumbering

/-- **The standard native predicates depend on their arguments only.** -/
theorem coreBuiltins_dependsOnArguments {b : Builtin} (hb : b ∈ coreBuiltins) :
    b.DependsOnArguments := by
  obtain ⟨fn, hfn, hsame⟩ := coreBuiltins_same hb
  exact ⟨call_same hfn hsame, Registry.sober_core.grows (show b ∈ Registry.core.builtins from hb)⟩

end PrologMachine
