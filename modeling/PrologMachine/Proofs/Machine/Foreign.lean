/-
  PrologMachine.Proofs.Machine.Foreign ── **ANY NATIVE PREDICATES.**

  A machine stays orderly also where a session was opened with native predicates of its own, as long
  as these bind variables that exist and report what they bind.  For the shape of the stack a native
  clause is as good as a compiled one: it is entered and returns at once.

    * `KnowledgeBase.compiled`: a knowledge base with a compiled clause in the place of each native
      one.  A machine is orderly if it is so beside this one.
    * `Furnished`: such knowledge bases, in any order of insertion.
    * `Orderly.advance_hosted`: one step is a move to an orderly machine, or an error.
    * `Clause.At.exists_goal`: the goal of a call was built by the code in front of it.
-/
import PrologMachine.Proofs.Machine.Safety

namespace PrologMachine

open Emit Exec

variable {admits : Signature → Bool}

/-! ## §1. The goal of a call. -/

/-- The goal under construction, with its register, or the goal that is ready to be called. -/
def Phase.goal? : Phase → Option (String × Signature)
  | .build _ begun _ => begun
  | .ready g => some ("$x0", g)
  | _ => none

/-- The structure that an instruction names. -/
def Instruction.structure (i : Instruction) : String × Signature :=
  (i.register, ⟨i.functor, i.arity⟩)

/-- A goal is begun by an instruction that names it. -/
theorem Phase.goal?_next {p p' : Phase} {i : Instruction} {y : String × Signature}
    (h : p.next admits i = some p') (hy : p'.goal? = some y) :
    p.goal? = some y ∨ i.structure = y := by
  -- Only a phase that builds has a goal, and only the start of a structure gives it another one.
  cases p with
  | build regs begun left =>
    simp only [next, nextBuild, passed] at h
    repeat' split at h
    all_goals
      cases h
      first
        | exact .inr (Option.some.inj hy)
        | exact .inl hy
        | skip
    next x g hcond =>
      obtain rfl := Option.some.inj hy
      exact .inl (congrArg some (Prod.ext hcond.2.1 rfl))
  | head pending last left =>
    simp only [next, nextHead, decoded] at h
    repeat' split at h
    all_goals cases h
    all_goals cases hy
  | body =>
    simp only [next, nextBody] at h
    split at h
    all_goals cases h
    all_goals cases hy
  | failed =>
    simp only [next, nextBody] at h
    split at h
    all_goals cases h
    all_goals cases hy
  | operands n =>
    simp only [next, nextOperands] at h
    repeat' split at h
    all_goals cases h
    all_goals cases hy
  | ready g =>
    simp only [next] at h
    split at h
    all_goals cases h
    all_goals cases hy
  | returned g =>
    simp only [next] at h
    split at h
    all_goals cases h
    all_goals cases hy
  | retried =>
    simp only [next] at h
    split at h
    all_goals cases h
    all_goals cases hy
  | outcome =>
    simp only [next] at h
    repeat' split at h
    all_goals cases h
    all_goals cases hy
  | closed => cases h

/-- Over a piece of code the goal is the one from before or one that was started in it. -/
theorem Phase.goal?_run {code : Code} {p p' : Phase} {y : String × Signature}
    (h : p.run admits code = some p') (hy : p'.goal? = some y) :
    p.goal? = some y ∨ ∃ i ∈ code, i.structure = y := by
  induction code generalizing p with
  | nil =>
    obtain rfl := Option.some.inj h
    exact .inl hy
  | cons i code ih =>
    rw [run_cons] at h
    obtain ⟨p₁, h₁, hrest⟩ := Option.bind_eq_some_iff.1 h
    rcases ih hrest with hp | ⟨j, hj, hy'⟩
    · rcases goal?_next h₁ hp with hp | hi
      · exact .inl hp
      · exact .inr ⟨i, List.mem_cons_self, hi⟩
    · exact .inr ⟨j, List.mem_cons_of_mem i hj, hy'⟩

/-- **The goal of a call was built by the code in front of it.** -/
theorem Clause.At.exists_goal {c : Clause} {label : String} {index : Nat} {g : Signature}
    (h : c.At admits label index (.ready g)) : ∃ code, c.block? label = some code ∧
      ∃ i ∈ code, i.register = "$x0" ∧ (⟨i.functor, i.arity⟩ : Signature) = g := by
  obtain ⟨code, hcode, -, hrun⟩ := h
  rcases Phase.goal?_run hrun rfl with hstart | ⟨i, hi, hgoal⟩
  · unfold startPhase at hstart
    split at hstart <;> cases hstart
  · obtain ⟨hregister, hsig⟩ := Prod.mk.inj hgoal
    exact ⟨code, hcode, i, List.mem_of_mem_take hi, hregister, hsig⟩

/-! ## §2. Compiled clauses in the places of native ones. -/

/-- A fact without arguments. -/
def fact : Clause := ((clauseOf "" [] none).eval { compiler := 0, constants := 0 }).1

/-- The fact that stands in for a native clause is compiled. -/
theorem fact_compiled : fact.Compiled admits :=
  (clauseOf_compiled "" (show Term.AllProper [] from trivial) none _ rfl
    (by simp [Emitter.Healthy, Clause.descendantsOf]) (by simp)).1

/-- A compiled clause in the place of a native one. -/
def Clause.standIn (c : Clause) : Clause := if c.native then fact else c

/-- A clause that is no native one stands for itself. -/
theorem Clause.standIn_compiled {c : Clause} (hc : c.native = false) : c.standIn = c := by
  simp [standIn, hc]

/-- The store with compiled clauses in the places of native ones. -/
def ClauseStore.compiled (db : ClauseStore) : ClauseStore :=
  ⟨db.entries.map (Prod.map id (Prod.map id (List.map Clause.standIn)))⟩

/-- The knowledge base with compiled clauses in the places of native ones. -/
def KnowledgeBase.compiled (kb : KnowledgeBase) : KnowledgeBase :=
  ⟨kb.user.compiled, kb.builtin.compiled⟩

/-- The clauses of a compiled store. -/
theorem ClauseStore.clauses_compiled (db : ClauseStore) (s : Signature) :
    db.compiled.clauses s = (db.clauses s).map Clause.standIn := by
  obtain ⟨entries⟩ := db
  simp only [clauses, compiled]
  induction entries with
  | nil => rfl
  | cons e es ih =>
    obtain ⟨key, s', cs⟩ := e
    simp only [List.map_cons, Prod.map_apply, id, List.lookup]
    cases s.text == key with
    | true => rfl
    | false => exact ih

/-- The user's clauses come before the library's. -/
theorem KnowledgeBase.get_eq (kb : KnowledgeBase) (s : Signature) : kb.get s =
    if kb.user.clauses s ≠ [] then .ok (kb.user.clauses s)
    else if kb.builtin.clauses s ≠ [] then .ok (kb.builtin.clauses s)
    else .error (.unknownPredicate s) := by
  unfold get ClauseStore.get
  cases kb.user.clauses s with
  | nil => cases kb.builtin.clauses s <;> rfl
  | cons c cs => rfl

/-- The clauses of a compiled base. -/
theorem KnowledgeBase.get_compiled (kb : KnowledgeBase) (s : Signature) :
    kb.compiled.get s = (kb.get s).map (List.map Clause.standIn) := by
  rw [get_eq, get_eq]
  simp only [compiled, ClauseStore.clauses_compiled, ne_eq, List.map_eq_nil_iff]
  split
  · rfl
  split <;> rfl

/-- Every clause that a call can find is native or compiled. -/
def ClauseStore.Hosts (admits : Signature → Bool) (db : ClauseStore) : Prop :=
  db.Holds fun _ c => c.native = true ∨ c.Compiled admits

/-- A store that hosts its clauses is sound when it is compiled. -/
theorem ClauseStore.Hosts.sound {db : ClauseStore} (h : db.Hosts admits) :
    db.compiled.Sound admits := by
  intro s hs c' hc'
  rw [clauses_compiled] at hc'
  obtain ⟨c, hc, heq⟩ := List.mem_map.1 hc'
  refine .inr ?_
  rw [← heq]
  unfold Clause.standIn
  split
  · exact fact_compiled
  · next hn => exact (h s hs c hc).resolve_left hn

/-- Every clause that a call can find in one of the stores is native or compiled. -/
structure KnowledgeBase.Hosts (admits : Signature → Bool) (kb : KnowledgeBase) : Prop where
  /-- Those of the user. -/
  user : kb.user.Hosts admits
  /-- The builtin ones. -/
  builtin : kb.builtin.Hosts admits

theorem KnowledgeBase.Hosts.compiled {kb : KnowledgeBase} (h : kb.Hosts admits) {s : Signature}
    (hs : s ≠ querySignature) {cs : List Clause} (hcs : kb.get s = .ok cs) {c : Clause}
    (hc : c ∈ cs) (hn : c.native = false) : c.Compiled admits := by
  rw [get_eq] at hcs
  split at hcs
  · obtain rfl := Except.ok.inj hcs
    exact (h.user s hs c hc).resolve_left (by simp [hn])
  split at hcs
  · obtain rfl := Except.ok.inj hcs
    exact (h.builtin s hs c hc).resolve_left (by simp [hn])
  · cases hcs

/-- A question put to a knowledge base of native and compiled clauses. -/
theorem KnowledgeBase.Hosts.setting {kb : KnowledgeBase} {q : Clause} (h : kb.Hosts admits)
    (hq : q.Sound admits) (hstart : bodyLabel ∈ q.code.map Prod.fst)
    (hhead : headLabel ∉ q.code.map Prod.fst) (hn : q.native = false)
    (hget : kb.get querySignature = .ok [q]) : Setting admits kb.compiled q where
  base := ⟨h.user.sound, h.builtin.sound⟩
  question := hq
  start := hstart
  headless := hhead
  native := hn
  query := by
    rw [get_compiled, hget]
    show Except.ok [q.standIn] = _
    rw [Clause.standIn_compiled hn]

/-- The knowledge base holds native predicates of some registries, compiled clauses and a question, in
    any order of insertion. -/
inductive Furnished (allowed : List Signature → Prop) : KnowledgeBase → Prop where
  /-- Nothing yet. -/
  | empty : Furnished allowed {}
  /-- Native predicates were installed. -/
  | natives {kb : KnowledgeBase} (r : Registry) :
    Furnished allowed kb → Furnished allowed (kb.installNatives r).1
  /-- A clause of the user was inserted. -/
  | user {kb : KnowledgeBase} {c : Clause} : Furnished allowed kb → CompiledFrom allowed c →
    Furnished allowed (kb.insertUser c.signature (some c)).base
  /-- A clause of a library was inserted. -/
  | builtin {kb : KnowledgeBase} {c : Clause} : Furnished allowed kb → CompiledFrom allowed c →
    Furnished allowed (kb.insertBuiltin c.signature (some c)).base
  /-- A question was asked. -/
  | query {kb : KnowledgeBase} {q : Clause} : Furnished allowed kb → Question allowed q →
    Furnished allowed (kb.setQuery (some q)).2

/-- A stocked knowledge base is furnished with the standard native predicates. -/
theorem Stocked.furnished {allowed : List Signature → Prop} {kb : KnowledgeBase}
    (h : Stocked allowed kb) : Furnished allowed kb := by
  induction h with
  | empty => exact .empty
  | natives _ ih => exact .natives Registry.core ih
  | user _ hc ih => exact .user ih hc
  | builtin _ hc ih => exact .builtin ih hc
  | query _ hq ih => exact .query ih hq

section

variable {allowed : List Signature → Prop}
  (hadmits : ∀ goals, allowed goals → Admissible admits goals)

include hadmits

/-- **Every clause that a call can find in a furnished knowledge base is native or compiled.** -/
theorem Furnished.hosts {kb : KnowledgeBase} (h : Furnished allowed kb) : kb.Hosts admits := by
  let P : Signature → Clause → Prop := fun _ c => c.native = true ∨ c.Compiled admits
  have hP : ∀ s c, c.Compiled admits → P s c := fun _ _ => .inr
  suffices hholds : kb.Holds P from ⟨hholds.user, hholds.builtin⟩
  induction h with
  | empty => exact .empty
  | natives r _ ih => exact ih.installNatives fun b _ c hn => .inl hn
  | user _ hc ih =>
    refine ih.insertUser fun c' hc' => ?_
    obtain rfl := Option.some.inj hc'
    exact hc.holds hadmits hP
  | builtin _ hc ih =>
    refine ih.insertBuiltin fun c' hc' => ?_
    obtain rfl := Option.some.inj hc'
    exact hc.holds hadmits hP
  | query _ hq ih => exact ih.setQuery (hq.holds hadmits hP)

/-- **A question put to a furnished knowledge base.** -/
theorem Furnished.setting {kb : KnowledgeBase} {q : Clause} (h : Furnished allowed kb)
    (hq : Question allowed q) (hset : (kb.setQuery (some q)).1 = none) :
    Setting admits (kb.setQuery (some q)).2.compiled q := by
  obtain ⟨⟨hsound, hnative, hhead, hstart⟩, haux⟩ := hq.compiled hadmits
  exact ((h.query hq).hosts hadmits).setting hsound hstart hhead hnative
    (KnowledgeBase.get_setQuery hset fun d hd => (haux d hd).2)

end

/-! ## §3. One step. -/

/-- The world without native predicates other than the standard ones. -/
def World.compiled (w : World) : World :=
  { w with base := w.base.compiled, natives := Registry.core }

namespace Machine

variable {kb : KnowledgeBase} {q : Clause} {w : World} {m m₁ : Machine} {c : Clause}
  {i : Instruction} {j : Nat} {g : Signature} {f : FrameId} {r : ReturnPoint} {s : StructId}

/-- What a run works with: clauses that are native or compiled, and native predicates that report
    what they bind. -/
structure Hosted (admits : Signature → Bool) (w : World) : Prop where
  /-- The clauses. -/
  base : w.base.Hosts admits
  /-- The native predicates. -/
  grows : ∀ b ∈ w.natives.builtins, ∀ {args : List Value} {s : Scene}, s.heap.Good →
    (∀ t ∈ args, s.heap.Holds t) → s.Grows (b.call args s).2

/-- The standard native predicates bind by unification only, and so does every sober one. -/
theorem Hosted.of_sober (hbase : w.base.Hosts admits) (hnatives : w.natives.Sober) :
    Hosted admits w :=
  ⟨hbase, fun _ hb {_ _} => hnatives.grows hb⟩

/-- What carrying out an instruction comes to, whatever native predicates complain about. -/
inductive Goes (admits : Signature → Bool) (kb : KnowledgeBase) (q : Clause)
    (Move : Machine → Machine → Prop) (m : Machine) : Except Error Unit × Machine → Prop where
  /-- A move to an orderly machine. -/
  | moves {m' : Machine} (hmove : Move m m') (horderly : Orderly admits kb q m') :
    Goes admits kb q Move m (.ok (), m')
  /-- An error. -/
  | stops {e : Error} {m' : Machine} (hgood : m'.heap.Good) : Goes admits kb q Move m (.error e, m')

/-- What is done is allowed for hosts. -/
theorem Does.goes {Move : Machine → Machine → Prop} {out : Except Error Unit × Machine}
    (h : Does admits kb q Move m out) : Goes admits kb q Move m out := by
  cases h with
  | moves hmove horderly => exact .moves hmove horderly
  | stops _ _ hgood => exact .stops hgood

/-- The machine has stopped with an error; its heap is in good shape. -/
def Halted (m : Machine) : Prop := m.error.isSome = true ∧ m.heap.Good

/-- A machine with a fault has halted. -/
theorem halted_fault (hgood : m.heap.Good) (e : Error) : (m.fault e).Halted := by
  unfold fault Halted
  split
  · next he => exact ⟨by rw [he]; rfl, hgood⟩
  · exact ⟨rfl, hgood⟩

/-- An action that is allowed has moved or halted. -/
theorem Goes.perform {Move : Machine → Machine → Prop} {action : Exec Unit}
    (h : Goes admits kb q Move m (eval action m)) :
    (Move m (m.perform action) ∧ Orderly admits kb q (m.perform action)) ∨
      (m.perform action).Halted := by
  rw [perform_eq]
  generalize eval action m = out at h
  cases h with
  | moves hmove horderly => exact .inl ⟨hmove, horderly⟩
  | stops hgood => exact .inr (halted_fault hgood _)

/-- Only calls look at clauses and native predicates. -/
theorem execute_compiled (hcalls : ¬ i.calls) : execute w i = execute w.compiled i := by
  cases hop : i.op
  case call => exact (hcalls (.inl hop)).elim
  case bcall => exact (hcalls (.inr hop)).elim
  all_goals simp only [execute, hop]

/-- A native clause returns, or its predicate gives up. -/
theorem callNative_hosted (hw : Hosted admits w) (h : Callee admits kb q m f g r s)
    (hactive : m.Active) (hbehind : m.ReturnsBehind j r) (htarget : m.target = some f)
    (hg : g ≠ querySignature) (count : Nat) :
    Goes admits kb q (Invokes w.compiled) m
      (eval (callNative w f g (m.heap.structCell s).args) (m.called f (.struct s) count)) := by
  cases hb : w.natives.lookup? g with
  | none =>
    simp only [callNative, hb]
    exact .stops h.memory.good
  | some b =>
    have hgrows := hw.grows b (List.mem_of_find?_eq_some hb)
      (s := ⟨m.heap, [], m.transcript, w.complaint⟩) h.memory.good (h.memory.good.args s)
    rcases h.answers hactive hbehind htarget hg hb count rfl hgrows with
      ⟨m', heval, hinvokes, horderly⟩ | ⟨e, m', heval, -, -, hgood⟩
    · rw [heval]
      exact .moves (hinvokes _) horderly
    · rw [heval]
      exact .stops hgood

/-- Where the query is found under its own name, it is not a native one. -/
theorem native_of_standIn (hset : Setting admits w.base.compiled q) (hc : c.standIn = q) :
    c.native = false := by
  cases hn : c.native with
  | false => rfl
  | true =>
    have hfact : q = fact := by rw [← hc, Clause.standIn, if_pos hn]
    have hhead := hset.headless
    rw [hfact] at hhead
    exact absurd (show headLabel ∈ fact.code.map Prod.fst from by decide) hhead

/-- **A call enters a clause, returns, or stops with an error.** -/
theorem call_hosted (hset : Setting admits w.base.compiled q) (hw : Hosted admits w) (op : Opcode)
    (hf : Fetched admits w.base.compiled q m c j (.ready g) i (.returned g)) :
    Goes admits w.base.compiled q (Invokes w.compiled) m (eval (call w op) m) := by
  obtain ⟨hc, f, r, htarget, ht, hp, hbehind, hcut, hcommitted⟩ := hf.fits
  obtain ⟨s, hx, hgoal⟩ := goal?_eq_some hp.goal
  have hcallee : Callee admits w.base.compiled q m f g r s :=
    ⟨hf.memory, hc, ht, hp, hx, hcut, hcommitted⟩
  have hcompiled := KnowledgeBase.get_compiled w.base g
  have hget : w.base.get ⟨(m.heap.structCell s).name, (m.heap.structCell s).args.length⟩ =
      w.base.get g := by rw [hgoal]
  cases hcs : w.base.get g with
  | error e =>
    rw [hcs] at hcompiled hget
    have hg : g ≠ querySignature := by
      rintro rfl
      rw [hset.query] at hcompiled
      cases hcompiled
    cases hunknown : w.unknownFails with
    | true =>
      rw [eval_call_unknown htarget hx rfl hget hunknown hp.returns]
      have htame : Tame m.depth (m.called f (.struct s) 1) (m.called f (.struct s) 1) :=
        .fields (hcallee.memory_called 1) _ ⟨rfl, rfl, rfl⟩
      exact .moves (.responds htarget ht hcut hcommitted hp.returns htame)
        (hcallee.responded hf.active hbehind htarget hg
          (fun cs h => by rw [hcompiled] at h; cases h) (fun _ _ => Nat.le_refl 1) false htame)
    | false =>
      rw [eval_call_error htarget hx rfl hget hunknown]
      exact .stops hf.memory.good
  | ok cs =>
    rw [hcs] at hcompiled hget
    have hlt := (hp.clause _ hcompiled).1
    rw [List.length_map] at hlt
    obtain ⟨c', hc'⟩ : ∃ c', cs[(m.frame f).clause]? = some c' := ⟨_, List.getElem?_eq_getElem hlt⟩
    -- Entering a clause is the same among the compiled clauses.
    have henters : c'.native = false →
        Invokes w.compiled m ((m.called f (.struct s) cs.length).entered f c') := by
      intro hn
      have henters := Invokes.enters (w := w.compiled) htarget ht hcut hcommitted hx
        (by rw [hgoal]; exact hcompiled)
        (by rw [List.getElem?_map, hc', Option.map_some, Clause.standIn_compiled hn]) hn
      rwa [List.length_map] at henters
    by_cases hg : g = querySignature
    · subst hg
      have hquery : [q] = cs.map Clause.standIn := Except.ok.inj (hset.query.symm.trans hcompiled)
      obtain ⟨c₀, rfl, hc₀⟩ := List.map_eq_singleton_iff.1 hquery.symm
      obtain rfl := List.mem_singleton.1 (List.mem_of_getElem? hc')
      have hn := native_of_standIn hset hc₀
      obtain rfl := (Clause.standIn_compiled hn).symm.trans hc₀
      rw [eval_call_enter htarget hx rfl hget hc' hn]
      exact .moves (henters hn) (.headless hf.before.admits_of_ready hf.active hf.memory.good rfl rfl
        hset.headless rfl)
    cases hn : c'.native with
    | true =>
      rw [eval_call_native htarget hx rfl hget hc' hn, hgoal]
      exact callNative_hosted hw hcallee hf.active hbehind htarget hg cs.length
    | false =>
      rw [eval_call_enter htarget hx rfl hget hc' hn]
      have hentered := hcallee.entered hf.active hg hcompiled
        (by rw [List.getElem?_map, hc', Option.map_some, Clause.standIn_compiled hn])
        (hw.base.compiled hg hcs (List.mem_of_getElem? hc') hn)
      rw [List.length_map] at hentered
      exact .moves (henters hn) hentered

/-- **One step of an orderly machine**: a move to an orderly machine, or an error. -/
theorem Orderly.advance_hosted (h : Orderly admits w.base.compiled q m)
    (hset : Setting admits w.base.compiled q) (hw : Hosted admits w) (hactive : m.Active) :
    (∃ i, m.fetch = .ok i ∧ Moves w.compiled i (m.counted w i) (m.advance w) ∧
      (i.calls → Invokes w.compiled (m.counted w i) (m.advance w)) ∧
        Orderly admits w.base.compiled q (m.advance w)) ∨ (m.advance w).Halted := by
  cases h with
  | running _ hm hcode hat hfit =>
    obtain ⟨i, p', hi, hfetched⟩ := exists_fetched hset hactive hm hcode hat hfit
    rw [advance_eq hi]
    split
    · exact .inr (halted_fault (m := { m with index := m.index + 1, steps := m.steps + 1 }) hm.good _)
    -- A call is looked at by itself, since only calls meet a host's natives.
    by_cases hcalls : i.calls
    · obtain ⟨g, hp, hp'⟩ := Phase.ready_of_calls (hfetched w).next hcalls
      subst hp hp'
      have hgoes : Goes admits w.base.compiled q (Invokes w.compiled) (m.counted w i)
          (eval (execute w i) (m.counted w i)) := by
        rcases hcalls with hop | hop <;> simp only [execute, hop] <;>
          exact call_hosted hset hw _ (hfetched w)
      rcases hgoes.perform with ⟨hinvokes, horderly⟩ | hhalted
      · exact .inl ⟨i, hi, .invokes hinvokes, fun _ => hinvokes, horderly⟩
      · exact .inr hhalted
    · rw [execute_compiled hcalls]
      have hdoes := execute_does (w := w.compiled) hset ⟨rfl, rfl⟩ (hfetched w)
      rcases hdoes.goes.perform with ⟨hmove, horderly⟩ | hhalted
      · exact .inl ⟨i, hi, hmove, fun h => (hcalls h).elim, horderly⟩
      · exact .inr hhalted
  | @headless c _ _ hgood hcode hlabel hhead =>
    have hblock := block?_headless hlabel hhead
    have hfetch : m.fetch = .error (.noLabel c.signature m.label) := by
      simp only [fetch, hcode, hblock]
    simp only [Machine.advance, hfetch]
    exact .inr (halted_fault hgood _)
  | answered _ _ hended => rw [hactive.2.2.1] at hended; cases hended
  | exhausted _ _ hended => rw [hactive.2.2.1] at hended; cases hended

end Machine

end PrologMachine
