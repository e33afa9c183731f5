/-
  PrologMachine.Proofs.Stock ── **WHAT A KNOWLEDGE BASE HOLDS.**

  A knowledge base is stocked with the standard native predicates and with clauses that were read
  from text and compiled.  Whatever was inserted, in whatever order and with whatever refusals, all
  that a call can find there is a native predicate with a handler or a sound clause.

    * `Term.Written`: a clause of some text.
    * `Stocked`, `Question`: how knowledge bases and queries come about.
    * `Stocked.sound`: every clause that a call can find is callable.
-/
import PrologMachine.Machine.Run
import PrologMachine.Native.Core
import PrologMachine.Proofs.Code.Compilation
import PrologMachine.Proofs.KnowledgeBase
import PrologMachine.Proofs.Reading

namespace PrologMachine

variable {admits : Signature → Bool}

/-! ## §1. Callable clauses. -/

/-- A clause that a call of `s` can enter: a native one whose predicate has a handler, or compiled
    code. -/
def Clause.Callable (admits : Signature → Bool) (s : Signature) (c : Clause) : Prop :=
  (c.native = true ∧ (Registry.core.lookup? s).isSome) ∨ c.Compiled admits

/-- All clauses of a store but the query are as `P` says for their predicate. -/
def ClauseStore.Holds (P : Signature → Clause → Prop) (db : ClauseStore) : Prop :=
  ∀ s, s ≠ querySignature → ∀ c ∈ db.clauses s, P s c

namespace ClauseStore.Holds

variable {P : Signature → Clause → Prop} {db db' : ClauseStore} {s : Signature}

/-- An empty store holds no clause. -/
theorem empty : ClauseStore.Holds P {} := fun s _ c hc => by simp [clauses] at hc

/-- Clauses of one predicate may be put into a store. -/
theorem put {cs : List Clause} (h : db.Holds P)
    (hcs : s ≠ querySignature → ∀ c ∈ cs, P s c) : (db.put s cs).Holds P := by
  intro s' hs' c hc
  rw [clauses_put] at hc
  split at hc
  · next heq => subst heq; exact hcs hs' c hc
  · exact h s' hs' c hc

/-- One more clause. -/
theorem insert {clause : Option Clause} (h : db.Holds P)
    (hc : s ≠ querySignature → ∀ c ∈ clause, P s c)
    (hins : db.insert s clause = .ok db') : db'.Holds P := by
  unfold ClauseStore.insert at hins
  split at hins
  · cases hins
  next c =>
  split at hins
  · cases hins
  split at hins
  · cases hins
  obtain rfl := Except.ok.inj hins
  refine h.put fun hs c' hc' => ?_
  rcases List.mem_append.1 hc' with hc' | hc'
  · exact h s hs c' hc'
  · obtain rfl := List.mem_singleton.1 hc'
    exact hc hs c' rfl

/-- Clauses that take the places of others. -/
theorem replaceAll (cs : List Clause) : ∀ {db : ClauseStore}, db.Holds P →
    (∀ c ∈ cs, P c.signature c) → (db.replaceAll cs).2.Holds P := by
  induction cs with
  | nil => intro db h _; exact h
  | cons c cs ih =>
    intro db h hcs
    rw [ClauseStore.replaceAll]
    split
    · exact h
    · next db' hrep =>
      refine ih ?_ (fun d hd => hcs d (by simp [hd]))
      simp only [ClauseStore.replace] at hrep
      split at hrep
      · cases hrep
      · obtain rfl := Except.ok.inj hrep
        refine h.put fun _ d hd => ?_
        obtain rfl := List.mem_singleton.1 hd
        exact hcs d (by simp)

end ClauseStore.Holds

/-- All clauses of a store are callable; the query is not called. -/
def ClauseStore.Sound (admits : Signature → Bool) (db : ClauseStore) : Prop :=
  db.Holds fun s c => c.Callable admits s

/-- All clauses of a knowledge base but the query are as `P` says for their predicate. -/
structure KnowledgeBase.Holds (P : Signature → Clause → Prop) (kb : KnowledgeBase) : Prop where
  /-- Those of the user. -/
  user : kb.user.Holds P
  /-- The builtin ones. -/
  builtin : kb.builtin.Holds P

/-- All clauses of a knowledge base are callable. -/
structure KnowledgeBase.Sound (admits : Signature → Bool) (kb : KnowledgeBase) : Prop where
  /-- Those of the user. -/
  user : kb.user.Sound admits
  /-- The builtin ones. -/
  builtin : kb.builtin.Sound admits

namespace KnowledgeBase

variable {kb : KnowledgeBase} {s : Signature} {cs : List Clause}

/-- Where clauses are found, there is at least one. -/
theorem get_ne_nil (hget : kb.get s = .ok cs) : cs ≠ [] := by
  have hstore : ∀ {db : ClauseStore}, db.get s = .ok cs → cs ≠ [] := by
    intro db hok
    unfold ClauseStore.get at hok
    split at hok
    · cases hok
    · next hne => obtain rfl := Except.ok.inj hok; exact hne
  unfold KnowledgeBase.get at hget
  split at hget
  · next hok => obtain rfl := Except.ok.inj hget; exact hstore hok
  · exact hstore hget

namespace Holds

variable {P : Signature → Clause → Prop}

/-- An empty base holds no clause. -/
theorem empty : KnowledgeBase.Holds P {} := ⟨.empty, .empty⟩

/-- A clause with its auxiliary clauses may be inserted for the user. -/
theorem insertUser {clause : Option Clause} (h : kb.Holds P)
    (hc : ∀ c ∈ clause, P s c ∧ ∀ d ∈ c.descendants, P d.signature d) :
    (kb.insertUser s clause).base.Holds P := by
  unfold KnowledgeBase.insertUser
  split
  · exact h
  split
  · exact h
  next db hins =>
  refine ⟨?_, h.builtin⟩
  refine (h.user.insert (fun _ c hmem => (hc c hmem).1) hins).replaceAll _ fun d hd => ?_
  cases clause with
  | none => simp at hd
  | some c => exact (hc c rfl).2 d hd

theorem insertBuiltin {clause : Option Clause} (h : kb.Holds P)
    (hc : ∀ c ∈ clause, P s c ∧ ∀ d ∈ c.descendants, P d.signature d) :
    (kb.insertBuiltin s clause).base.Holds P := by
  unfold KnowledgeBase.insertBuiltin
  split
  · exact h
  next db hins =>
  refine ⟨h.user, ?_⟩
  refine (h.builtin.insert (fun _ c hmem => (hc c hmem).1) hins).replaceAll _ fun d hd => ?_
  cases clause with
  | none => simp at hd
  | some c => exact (hc c rfl).2 d hd

theorem setQuery {q : Clause} (h : kb.Holds P) (hq : ∀ d ∈ q.descendants, P d.signature d) :
    (kb.setQuery (some q)).2.Holds P := by
  unfold KnowledgeBase.setQuery
  simp only
  split
  · exact h
  · exact ⟨(h.user.put fun hs => (hs rfl).elim).replaceAll _ hq, h.builtin⟩

/-- Installing native predicates. -/
theorem installNatives {r : Registry} (h : kb.Holds P)
    (hr : ∀ b ∈ r.builtins, ∀ c : Clause, c.native = true → P b.signature c) :
    (kb.installNatives r).1.Holds P := by
  refine List.foldlRecOn (motive := fun acc : KnowledgeBase × List LogEntry => acc.1.Holds P)
    _ _ h fun acc hacc b hb => ?_
  obtain ⟨kb', log⟩ := acc
  -- Every predicate installed is one of the registry, so its clause is a native one.
  have hmem : b ∈ r.builtins := by simpa [Registry.sorted] using hb
  simp only
  split
  · exact hacc
  · refine hacc.insertBuiltin fun c hc => ?_
    obtain rfl := Option.some.inj hc
    refine ⟨hr b hmem _ rfl, fun d hd => ?_⟩
    simp [Clause.descendants_mk, Clause.descendantsOf] at hd

end Holds

namespace Sound

/-- A call finds callable clauses. -/
theorem callable (h : kb.Sound admits) (hs : s ≠ querySignature) (hget : kb.get s = .ok cs) :
    ∀ c ∈ cs, c.Callable admits s := by
  have hstore : ∀ {db : ClauseStore}, db.Sound admits → db.get s = .ok cs →
      ∀ c ∈ cs, c.Callable admits s := by
    intro db hdb hok c hc
    apply hdb s hs
    unfold ClauseStore.get at hok
    split at hok
    · cases hok
    · obtain rfl := Except.ok.inj hok
      exact hc
  unfold KnowledgeBase.get at hget
  split at hget
  · next hok => obtain rfl := Except.ok.inj hget; exact hstore h.user hok
  · exact hstore h.builtin hget

/-- A sound base holds callable clauses. -/
theorem holds (h : kb.Sound admits) : kb.Holds fun s c => c.Callable admits s :=
  ⟨h.user, h.builtin⟩

/-- A base that holds callable clauses is sound. -/
theorem of_holds (h : kb.Holds fun s c => c.Callable admits s) : kb.Sound admits :=
  ⟨h.user, h.builtin⟩

end Sound

/-- Replacing other predicates leaves the query alone. -/
theorem clauses_replaceAll (cs : List Clause) : ∀ {db : ClauseStore},
    (∀ c ∈ cs, c.signature ≠ s) → (db.replaceAll cs).2.clauses s = db.clauses s := by
  induction cs with
  | nil => intro db _; rfl
  | cons c cs ih =>
    intro db hcs
    rw [ClauseStore.replaceAll]
    split
    · rfl
    · next db' hrep =>
      simp only [ClauseStore.replace] at hrep
      split at hrep
      · cases hrep
      · obtain rfl := Except.ok.inj hrep
        rw [ih fun d hd => hcs d (by simp [hd]), ClauseStore.clauses_put,
          if_neg (hcs c (by simp)).symm]

/-- The query is found under its own signature. -/
theorem get_setQuery {q : Clause} (h : (kb.setQuery (some q)).1 = none)
    (hq : ∀ d ∈ q.descendants, d.signature ≠ querySignature) :
    (kb.setQuery (some q)).2.get querySignature = .ok [q] := by
  have hclauses : (kb.setQuery (some q)).2.user.clauses querySignature = [q] := by
    unfold KnowledgeBase.setQuery at h ⊢
    simp only at h ⊢
    split at h
    · cases h
    · next hquery =>
      rw [if_neg hquery]
      show (ClauseStore.replaceAll _ _).2.clauses _ = _
      rw [clauses_replaceAll _ hq, ClauseStore.clauses_put, if_pos rfl]
  unfold KnowledgeBase.get ClauseStore.get
  rw [hclauses]

/-- What is not found is unknown. -/
theorem get_error {e : StoreError} (h : kb.get s = .error e) : e = .unknownPredicate s := by
  have hstore : ∀ {db : ClauseStore}, db.get s = .error e → e = .unknownPredicate s := by
    intro db herr
    unfold ClauseStore.get at herr
    split at herr
    · exact (Except.error.inj herr).symm
    · cases herr
  unfold KnowledgeBase.get at h
  split at h
  · cases h
  · exact hstore h

end KnowledgeBase

/-! ## §2. Stocked knowledge bases. -/

/-- The term is a clause of some text. -/
def Term.Written (t : Term) : Prop :=
  (∃ g source anonymous, readClause g source anonymous = .ok t) ∨
    ∃ g source anonymous ts, readProgram g source anonymous = .ok ts ∧ t ∈ ts

/-- A term that was written is proper. -/
theorem Term.Written.proper {t : Term} (h : t.Written) : t.Proper := by
  rcases h with ⟨g, source, n, h⟩ | ⟨g, source, n, ts, h, ht⟩
  · exact readClause_proper h
  · exact readProgram_proper h t ht

/-- The clause was compiled from a written clause whose goals are allowed. -/
def CompiledFrom (allowed : List Signature → Prop) (c : Clause) : Prop :=
  ∃ (compiler : Compiler) (t : Term),
    t.Written ∧ allowed t.clauseGoals ∧ (compiler.clause t).1 = .ok c

/-- The clause was compiled from a written question whose goals are allowed. -/
def Question (allowed : List Signature → Prop) (q : Clause) : Prop :=
  ∃ (compiler : Compiler) (t : Term),
    t.Written ∧ allowed t.queryGoals ∧ (compiler.query t).1 = .ok q

/-- The knowledge base holds the standard native predicates, compiled clauses and a question, in
    any order of insertion. -/
inductive Stocked (allowed : List Signature → Prop) : KnowledgeBase → Prop where
  /-- Nothing yet. -/
  | empty : Stocked allowed {}
  /-- The standard native predicates were installed. -/
  | natives {kb : KnowledgeBase} :
    Stocked allowed kb → Stocked allowed (kb.installNatives Registry.core).1
  /-- A clause of the user was inserted. -/
  | user {kb : KnowledgeBase} {c : Clause} : Stocked allowed kb → CompiledFrom allowed c →
    Stocked allowed (kb.insertUser c.signature (some c)).base
  /-- A clause of a library was inserted. -/
  | builtin {kb : KnowledgeBase} {c : Clause} : Stocked allowed kb → CompiledFrom allowed c →
    Stocked allowed (kb.insertBuiltin c.signature (some c)).base
  /-- A question was asked. -/
  | query {kb : KnowledgeBase} {q : Clause} : Stocked allowed kb → Question allowed q →
    Stocked allowed (kb.setQuery (some q)).2

section

variable {allowed : List Signature → Prop}
  (hadmits : ∀ goals, allowed goals → Admissible admits goals)

include hadmits

/-- A clause that was compiled is in order with its auxiliary clauses. -/
theorem CompiledFrom.compiled {c : Clause} (h : CompiledFrom allowed c) :
    c.Compiled admits ∧ ∀ d ∈ c.descendants, d.Auxiliary admits := by
  obtain ⟨compiler, t, ht, hgoals, hc⟩ := h
  exact Compiler.clause_compiled ht.proper (hadmits _ hgoals) hc

theorem Question.compiled {q : Clause} (h : Question allowed q) :
    (q.Sound admits ∧ q.native = false ∧ headLabel ∉ q.code.map Prod.fst ∧
      bodyLabel ∈ q.code.map Prod.fst) ∧ ∀ d ∈ q.descendants, d.Auxiliary admits := by
  obtain ⟨compiler, t, ht, hgoals, hq⟩ := h
  exact Compiler.query_compiled ht.proper (hadmits _ hgoals) hq

/-- What holds of compiled code holds of a clause that was compiled and of those it consists of. -/
theorem CompiledFrom.holds {P : Signature → Clause → Prop}
    (hP : ∀ s c, c.Compiled admits → P s c) {c : Clause} (h : CompiledFrom allowed c) :
    P c.signature c ∧ ∀ d ∈ c.descendants, P d.signature d :=
  ⟨hP _ c (h.compiled hadmits).1, fun d hd => hP _ d ((h.compiled hadmits).2 d hd).1⟩

/-- What compiled clauses have in common the auxiliary clauses of a question have. -/
theorem Question.holds {P : Signature → Clause → Prop}
    (hP : ∀ s c, c.Compiled admits → P s c) {q : Clause} (h : Question allowed q) :
    ∀ d ∈ q.descendants, P d.signature d := fun d hd =>
  hP _ d ((h.compiled hadmits).2 d hd).1

/-- **Every clause that a call can find in a stocked knowledge base is callable.** -/
theorem Stocked.sound {kb : KnowledgeBase} (h : Stocked allowed kb) : kb.Sound admits := by
  refine .of_holds ?_
  induction h with
  | empty => exact .empty
  | natives _ ih =>
    refine ih.installNatives fun b hb c hn => .inl ⟨hn, ?_⟩
    rw [Registry.lookup?, List.find?_isSome]
    exact ⟨b, hb, by simp⟩
  | user _ hc ih =>
    refine ih.insertUser fun c' hc' => ?_
    obtain rfl := Option.some.inj hc'
    exact hc.holds hadmits fun _ _ => .inr
  | builtin _ hc ih =>
    refine ih.insertBuiltin fun c' hc' => ?_
    obtain rfl := Option.some.inj hc'
    exact hc.holds hadmits fun _ _ => .inr
  | query _ hq ih => exact ih.setQuery (hq.holds hadmits fun _ _ => .inr)

end

/-! ## §3. Knowledge bases with a question. -/

/-- What a run needs of the knowledge base and the question. -/
structure Setting (admits : Signature → Bool) (kb : KnowledgeBase) (q : Clause) : Prop where
  /-- Clauses are callable. -/
  base : kb.Sound admits
  /-- The question is sound. -/
  question : q.Sound admits
  /-- It starts at its body. -/
  start : bodyLabel ∈ q.code.map Prod.fst
  /-- It has no head. -/
  headless : headLabel ∉ q.code.map Prod.fst
  /-- It has code. -/
  native : q.native = false
  /-- It is found under its own signature. -/
  query : kb.get querySignature = .ok [q]

/-- **A question put to a stocked knowledge base.** -/
theorem Stocked.setting {allowed : List Signature → Prop} {kb : KnowledgeBase} {q : Clause}
    (hadmits : ∀ goals, allowed goals → Admissible admits goals) (h : Stocked allowed kb)
    (hq : Question allowed q) (hset : (kb.setQuery (some q)).1 = none) :
    Setting admits (kb.setQuery (some q)).2 q := by
  obtain ⟨⟨hsound, hnative, hhead, hstart⟩, haux⟩ := hq.compiled hadmits
  have hkb := (h.sound hadmits).holds.setQuery (hq.holds hadmits fun _ _ => .inr)
  exact ⟨.of_holds hkb, hsound, hstart, hhead, hnative,
    KnowledgeBase.get_setQuery hset fun d hd => (haux d hd).2⟩

end PrologMachine
