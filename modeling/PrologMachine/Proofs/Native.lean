/-
  PrologMachine.Proofs.Native ── **WHAT NATIVE PREDICATES LEAVE BEHIND.**

  A native predicate makes cells of its own and binds through unification only.  One that works with
  nothing but values that exist leaves a heap in good shape, with exactly the variables bound that it
  reports.

    * `Native.Tidy`, `Native.Sober`: what the native predicate works with is among given values or
      its own, or exists by then.
    * `Native.Sober.run_grows`: what is newly reported is what is newly bound.
    * `Builtin.call_core`: the standard native predicates are tidy and complain through their
      handlers only.
-/
import PrologMachine.Native.Core
import PrologMachine.Proofs.Heap.Binds

namespace PrologMachine

/-! ## §1. Tidy effects. -/

/-- Whatever its surroundings answer, the native predicate unifies, and puts into structures, only
    values that satisfy `holds` or that it has made itself. -/
inductive Native.Tidy : (Value → Prop) → Native → Prop where
  /-- It succeeds or fails. -/
  | done {holds : Value → Prop} (ok : Bool) : Tidy holds (.done ok)
  /-- It gives up. -/
  | raise {holds : Value → Prop} (text : String) : Tidy holds (.raise text)
  /-- It unifies. -/
  | unify {holds : Value → Prop} {a b : Value} {next : Bool → Native} (ha : holds a) (hb : holds b)
    (hnext : ∀ ok, Tidy holds (next ok)) : Tidy holds (.unify a b next)
  /-- It looks at the heap. -/
  | look {holds : Value → Prop} {next : Heap → Native} (hnext : ∀ h, Tidy holds (next h)) :
    Tidy holds (.look next)
  /-- It makes a constant. -/
  | constant {holds : Value → Prop} {value : Atomic} {next : Constant → Native}
    (hnext : ∀ c, Tidy holds (next c)) : Tidy holds (.constant value next)
  /-- It makes a variable. -/
  | newVar {holds : Value → Prop} {name : String} {id : Int} {next : VarId → Native}
    (hnext : ∀ v, Tidy (fun t => holds t ∨ t = .var v) (next v)) :
    Tidy holds (.newVar name id next)
  /-- It makes a structure. -/
  | newStruct {holds : Value → Prop} {name : String} {args : List Value} {next : StructId → Native}
    (hargs : ∀ t ∈ args, holds t)
    (hnext : ∀ s, Tidy (fun t => holds t ∨ t = .struct s) (next s)) :
    Tidy holds (.newStruct name args next)
  /-- It writes. -/
  | write {holds : Value → Prop} {text : String} {next : Option String → Native}
    (hnext : ∀ e, Tidy holds (next e)) : Tidy holds (.write text next)
  /-- It logs. -/
  | log {holds : Value → Prop} {entry : LogEntry} {next : Native} (hnext : Tidy holds next) :
    Tidy holds (.log entry next)

/-- From one scene to a later one, the heap gains the bindings that are newly reported and stays in
    good shape. -/
structure Scene.Grows (s s' : Scene) : Prop where
  /-- The heap is in good shape. -/
  good : s'.heap.Good
  /-- What is newly reported is what is newly bound. -/
  binds : ∃ vs, s'.bound = vs ++ s.bound ∧ s.heap.Gains s'.heap vs

protected theorem Scene.Grows.refl {s : Scene} (hg : s.heap.Good) : s.Grows s :=
  ⟨hg, [], rfl, .refl _⟩

/-- New cells and new bindings come before what follows. -/
theorem Scene.Grows.after {s s₁ s' : Scene} {vs : List VarId} (hgrows : s₁.Grows s')
    (hg : s.heap.Gains s₁.heap vs) (hbound : s₁.bound = vs ++ s.bound) : s.Grows s' := by
  obtain ⟨hgood, ws, hws, hgains⟩ := hgrows
  exact ⟨hgood, ws ++ vs, by rw [hws, hbound, List.append_assoc], hg.trans hgains⟩

/-- Carried out in the scene, the native predicate works with nothing but values that exist by then. -/
def Native.Sober : Native → Scene → Prop
  | .done _, _ => True
  | .raise _, _ => True
  | .unify a b next, s => s.heap.Holds a ∧ s.heap.Holds b ∧ (next (s.heap.unify a b).1).Sober
      { s with heap := (s.heap.unify a b).2.heap, bound := (s.heap.unify a b).2.bound ++ s.bound }
  | .look next, s => (next s.heap).Sober s
  | .constant value next, s =>
    (next (s.heap.newConst value).1).Sober { s with heap := (s.heap.newConst value).2 }
  | .newVar name id next, s =>
    (next (s.heap.newVar name id).1).Sober { s with heap := (s.heap.newVar name id).2 }
  | .newStruct name args next, s => (∀ t ∈ args, s.heap.Holds t) ∧
    (next (s.heap.newStruct name args .none).1).Sober
      { s with heap := (s.heap.newStruct name args .none).2 }
  | .write text next, s =>
    match s.complaint with
    | some c => (next (some c)).Sober s
    | none => (next none).Sober { s with transcript := s.transcript.write text }
  | .log entry next, s => next.Sober { s with transcript := s.transcript.log entry }

/-- **A sober native predicate binds exactly the variables it reports.** -/
theorem Native.Sober.run_grows {n : Native} :
    ∀ {s : Scene}, n.Sober s → s.heap.Good → s.Grows (n.run s).2 := by
  -- Each request is answered from a good heap and leaves one, so the next one is answered likewise.
  induction n with
  | done ok => intro s _ hg; exact .refl hg
  | raise text => intro s _ hg; exact .refl hg
  | unify a b next ih =>
    intro s ⟨ha, hb, hnext⟩ hg
    exact (ih _ hnext (Heap.good_unify hg ha hb)).after (Heap.unify_binds hg ha hb).gains rfl
  | look next ih => intro s hnext hg; exact ih s.heap hnext hg
  | constant value next ih =>
    intro s hnext hg
    exact (ih _ hnext (hg.newConst value)).after (.newConst s.heap value) rfl
  | newVar name id next ih =>
    intro s hnext hg
    exact (ih _ hnext (hg.newVar name id)).after (.newVar s.heap name id) rfl
  | newStruct name args next ih =>
    intro s ⟨hargs, hnext⟩ hg
    exact (ih _ hnext (hg.newStruct name hargs)).after (.newStruct s.heap name args) rfl
  | write text next ih =>
    intro s hnext hg
    cases hcomplaint : s.complaint with
    | some c =>
      simp only [Native.run, Native.Sober, hcomplaint] at hnext ⊢
      exact ih (some c) hnext hg
    | none =>
      simp only [Native.run, Native.Sober, hcomplaint] at hnext ⊢
      exact (ih none hnext hg).after (.refl s.heap) rfl
  | log entry next ih =>
    intro s hnext hg
    exact (ih hnext hg).after (.refl s.heap) rfl

/-- A tidy native predicate is sober wherever its values exist. -/
theorem Native.Tidy.sober {holds : Value → Prop} {n : Native} (hn : n.Tidy holds) :
    ∀ {s : Scene}, s.heap.Good → (∀ t, holds t → s.heap.Holds t) → n.Sober s := by
  induction hn with
  | done ok => intro s _ _; trivial
  -- What a native has made it may use as well, so the values that it holds grow with the heap.
  | raise text => intro s _ _; trivial
  | unify ha hb _ ih =>
    intro s hg hs
    have hunify := Heap.unify_binds hg (hs _ ha) (hs _ hb)
    exact ⟨hs _ ha, hs _ hb, ih _ (Heap.good_unify hg (hs _ ha) (hs _ hb))
      fun t ht => hunify.holds_iff.2 (hs t ht)⟩
  | look _ ih => intro s hg hs; exact ih s.heap hg hs
  | @constant holds value _ _ ih =>
    intro s hg hs
    exact ih _ (hg.newConst value) fun t ht => (Heap.Gains.newConst s.heap value).holds (hs t ht)
  | @newVar holds name id _ _ ih =>
    intro s hg hs
    refine ih _ (hg.newVar name id) fun t ht => ?_
    rcases ht with ht | rfl
    · exact (Heap.Gains.newVar s.heap name id).holds (hs t ht)
    · simp [Heap.newVar]
  | @newStruct holds name args _ hargs _ ih =>
    intro s hg hs
    have hold : ∀ t ∈ args, s.heap.Holds t := fun t ht => hs t (hargs t ht)
    refine ⟨hold, ih _ (hg.newStruct name hold) fun t ht => ?_⟩
    rcases ht with ht | rfl
    · exact (Heap.Gains.newStruct s.heap name args).holds (hs t ht)
    · simp [Heap.newStruct]
  | write _ ih =>
    intro s hg hs
    rw [Native.Sober]
    split
    · exact ih _ hg hs
    · exact ih _ hg hs
  | log _ ih => intro s hg hs; exact ih hg hs

/-- Called with values that exist, every native predicate of the registry unifies nothing else. -/
def Registry.Sober (r : Registry) : Prop :=
  ∀ b ∈ r.builtins, ∀ fn, b.function = some fn → ∀ args (s : Scene), s.heap.Good →
    (∀ t ∈ args, s.heap.Holds t) → (fn args).Sober s

/-- A native predicate that answers with a new structure around a new variable. -/
example : Registry.Sober ⟨[⟨"boxed", 1, some fun args =>
    .newVar "_#" 0 fun v => .newStruct "box" [.var v] fun s =>
      .unify (args.headD (.struct s)) (.struct s) .done⟩]⟩ := by
  intro b hb fn hfn args s hg hargs
  obtain rfl := List.mem_singleton.1 hb
  obtain rfl := Option.some.inj hfn
  refine Native.Tidy.sober (.newVar fun v => .newStruct (by simp) fun s =>
    .unify ?_ (.inr rfl) .done) hg hargs
  cases args with
  | nil => exact .inr rfl
  | cons t ts => exact .inl (.inl (List.mem_cons_self ..))

/-- **A call binds what it reports**, also when it gives up. -/
theorem Registry.Sober.grows {r : Registry} (h : r.Sober) {b : Builtin} (hb : b ∈ r.builtins)
    {args : List Value} {s : Scene} (hg : s.heap.Good) (hargs : ∀ t ∈ args, s.heap.Holds t) :
    s.Grows (b.call args s).2 := by
  unfold Builtin.call
  split
  · exact .refl hg
  split
  · exact .refl hg
  next fn hfn =>
  have hgrows := (h b hb fn hfn args s hg hargs).run_grows hg
  rcases hrun : (fn args).run s with ⟨_ | ok, s'⟩ <;> rw [hrun] at hgrows <;> exact hgrows

/-! ## §2. The standard native predicates. -/

variable {holds : Value → Prop}

theorem typeTest_tidy (p : Heap → Value → Bool) (args : List Value) :
    (typeTest p args).Tidy holds := by
  unfold typeTest
  split
  · exact .look fun h => .done _
  · exact .done false

theorem writeText_tidy (text : String) : (writeText text).Tidy holds := by
  refine .write fun e => ?_
  cases e with
  | none => exact .done true
  | some complaint => exact .raise complaint

theorem unifyNative_tidy {args : List Value} (hargs : ∀ t ∈ args, holds t) :
    (unifyNative args).Tidy holds := by
  unfold unifyNative
  split
  · exact .unify (hargs _ (by simp)) (hargs _ (by simp)) fun ok => .done ok
  · exact .done false

theorem notUnifiableNative_tidy (args : List Value) : (notUnifiableNative args).Tidy holds := by
  unfold notUnifiableNative
  split
  · exact .look fun h => .done _
  · exact .done false

theorem identicalNative_tidy (args : List Value) : (identicalNative args).Tidy holds := by
  unfold identicalNative
  split
  · exact .look fun h => .done _
  · exact .done false

theorem notIdenticalNative_tidy (args : List Value) : (notIdenticalNative args).Tidy holds := by
  unfold notIdenticalNative
  split
  · exact .look fun h => .done _
  · exact .done false

theorem writeNative_tidy (args : List Value) : (writeNative args).Tidy holds := by
  unfold writeNative
  split
  · exact .look fun h => writeText_tidy _
  · exact .done false

theorem newlineNative_tidy (args : List Value) : (newlineNative args).Tidy holds := by
  unfold newlineNative
  split
  · exact writeText_tidy _
  · exact .done false

/-- Every standard native predicate is tidy. -/
theorem coreBuiltins_tidy {b : Builtin} (hb : b ∈ coreBuiltins) :
    ∃ fn, b.function = some fn ∧ ∀ args, (∀ t ∈ args, holds t) → (fn args).Tidy holds := by
  simp only [coreBuiltins, List.mem_cons, List.not_mem_nil, or_false] at hb
  rcases hb with rfl | rfl | rfl | rfl | rfl | rfl | rfl | rfl | rfl | rfl | rfl | rfl
  · exact ⟨_, rfl, fun args h => unifyNative_tidy h⟩
  · exact ⟨_, rfl, fun args _ => notUnifiableNative_tidy args⟩
  · exact ⟨_, rfl, fun args _ => identicalNative_tidy args⟩
  · exact ⟨_, rfl, fun args _ => notIdenticalNative_tidy args⟩
  · exact ⟨_, rfl, fun args _ => typeTest_tidy _ args⟩
  · exact ⟨_, rfl, fun args _ => typeTest_tidy _ args⟩
  · exact ⟨_, rfl, fun args _ => typeTest_tidy _ args⟩
  · exact ⟨_, rfl, fun args _ => typeTest_tidy _ args⟩
  · exact ⟨_, rfl, fun args _ => typeTest_tidy _ args⟩
  · exact ⟨_, rfl, fun args _ => typeTest_tidy _ args⟩
  · exact ⟨_, rfl, fun args _ => writeNative_tidy args⟩
  · exact ⟨_, rfl, fun args _ => newlineNative_tidy args⟩

/-- The standard natives are sober. -/
theorem Registry.sober_core : Registry.core.Sober := by
  intro b hb fn hfn args s hg hargs
  obtain ⟨fn', hfn', htidy⟩ := coreBuiltins_tidy (show b ∈ coreBuiltins from hb)
  obtain rfl := Option.some.inj (hfn.symm.trans hfn')
  exact (htidy args hargs).sober hg fun _ h => h

/-- What is found among them is one of them. -/
theorem Registry.lookup?_core {g : Signature} {b : Builtin} (hb : core.lookup? g = some b) :
    b ∈ coreBuiltins ∧ b.signature = g :=
  ⟨List.mem_of_find?_eq_some hb, by simpa using List.find?_some hb⟩

/-- **A call of a standard native predicate binds what it reports, and can only give up through its
    handler.** -/
theorem Builtin.call_core {g : Signature} {b : Builtin} (hb : Registry.core.lookup? g = some b)
    {args : List Value} (hlen : (args.length : Int) = g.arity) (s : Scene) (hg : s.heap.Good)
    (hargs : ∀ t ∈ args, s.heap.Holds t) :
    s.Grows (b.call args s).2 ∧ ∀ e, (b.call args s).1 = .error e →
      ∃ text, e = .within ("builtin " ++ g.text) (.external text) := by
  obtain ⟨hmem, rfl⟩ := Registry.lookup?_core hb
  have htidy := @coreBuiltins_tidy (fun _ => True)
  obtain ⟨fn, hfn, -⟩ := htidy hmem
  refine ⟨Registry.sober_core.grows hmem hg hargs, ?_⟩
  have hlen' : ¬ ((args.length : Int) ≠ b.arity) := not_not.2 hlen
  rw [call, if_neg hlen', hfn]
  simp only
  rcases (fn args).run s with ⟨_ | ok, s'⟩
  · exact fun e he => ⟨_, (Except.error.inj he).symm⟩
  · exact fun e he => by cases he

end PrologMachine
