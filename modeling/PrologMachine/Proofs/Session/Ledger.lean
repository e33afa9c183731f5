/-
  PrologMachine.Proofs.Session.Ledger ── **WHAT THE COMPILER OF A SESSION HAS NUMBERED.**

  The compiler of a session never uses a number twice.  So the auxiliary predicates and constants of
  one question are those of that question alone, wherever its code is kept: in the knowledge base,
  in the cache or in a machine that has come to a pause.

    * `Compiler.Made`: what a compiler makes, between its numbers before and after.
    * `Issue`: the compilation of a question; `Issue.made`.
    * `Session.InOrder`: every clause of the session is native, or keeps to its own numbers and
      leaves those of the issued questions to them.
    * `InOrder.posed`, `InOrder.inserted`: asking a question and inserting a clause keep this order.
-/
import PrologMachine.Proofs.Machine.Foreign
import PrologMachine.Proofs.Renumbering.Compiler
import PrologMachine.Proofs.Renumbering.Native
import PrologMachine.Session.Basic

namespace PrologMachine

/-! ## §1. Reserved predicates. -/

/-- The query and the predicates whose names start like those of auxiliary clauses are left to the
    system. -/
def Reserved (g : Signature) : Prop := g = querySignature ∨ isAuxiliary g.name = true

/-- No goal is left to the system. -/
def Ordinary (goals : List Signature) : Prop := ∀ g ∈ goals, ¬ Reserved g

/-- Goals that are ordinary are not reserved. -/
theorem Ordinary.unreserved {goals : List Signature} (h : Ordinary goals) : Unreserved goals :=
  fun g hg => by simpa using fun hr => h g hg (.inr hr)

/-- Every predicate but the query may be called. -/
def notQuery (g : Signature) : Bool := decide (g ≠ querySignature)

/-- Goals that are ordinary may stand in any clause. -/
theorem Ordinary.admissible {goals : List Signature} (h : Ordinary goals) :
    Admissible notQuery goals :=
  ⟨fun g hg => by simpa [notQuery] using hg, fun hq => (h _ hq (.inl rfl)).elim⟩

/-- An auxiliary clause has a name. -/
theorem auxiliaryName_ne_empty (n : Nat) : auxiliaryName n ≠ "" := by
  intro h
  simpa [auxiliaryName, auxiliaryLead] using congrArg String.toList h

/-! ## §2. Numbers of a compiler. -/

/-- A compiler that has used up more numbers. -/
instance : Preorder Compiler where
  le c c' := c.auxiliaries ≤ c'.auxiliaries ∧ c.constants ≤ c'.constants
  le_refl _ := ⟨Nat.le_refl _, Nat.le_refl _⟩
  le_trans _ _ _ h h' := ⟨Nat.le_trans h.1 h'.1, Nat.le_trans h.2 h'.2⟩

/-- A compiler's numbers only go up. -/
theorem Compiler.le_after (c : Compiler) (n k : Nat) : c ≤ c.after n k :=
  ⟨Nat.le_add_right _ _, Nat.le_add_right _ _⟩

theorem Compiler.Akin.trans {a b c : Compiler} (h : a.Akin b) (h' : b.Akin c) : a.Akin c :=
  ⟨h'.id.trans h.id, h'.natives.trans h.natives, h.unreserved⟩

theorem Compiler.Akin.symm {b c : Compiler} (h : b.Akin c) : c.Akin b :=
  ⟨h.id.symm, h.natives.symm, h.natives ▸ h.unreserved⟩

/-- A compiler that goes on stays akin. -/
theorem Compiler.Akin.after {b c : Compiler} (h : b.Akin c) (n k : Nat) : b.Akin (c.after n k) :=
  ⟨h.id, h.natives, h.unreserved⟩

section

variable {c c' a : Compiler} {q : Clause} {r r' : Except CompileError Clause × Compiler}

/-- What the other compiler makes of a term that one accepts. -/
theorem CompileAlike.of_ok (h : CompileAlike c c' r r') (hr : r = (.ok q, a)) :
    ∃ as k q', a = c.after as.length k ∧ r' = (.ok q', c'.after as.length k) ∧
      Counterparts c c' as k q q' := by
  cases h with
  | @compiled p p' as k h =>
    obtain ⟨hp, rfl⟩ := Prod.mk.inj hr
    obtain rfl := Except.ok.inj hp
    exact ⟨as, k, p', rfl, rfl, h⟩
  | refused e n => cases hr

/-- And of a term that it objects to. -/
theorem CompileAlike.of_error {e : CompileError} (h : CompileAlike c c' r r')
    (hr : r = (.error e, a)) : ∃ n, a = c.after n 0 ∧ r' = (.error e, c'.after n 0) := by
  cases h with
  | compiled h => cases hr
  | refused e' n =>
    obtain ⟨he, rfl⟩ := Prod.mk.inj hr
    obtain rfl := Except.error.inj he
    exact ⟨n, rfl, rfl⟩

/-- The numbers that a refused term has used up. -/
theorem CompileAlike.le_of_error {e : CompileError} (h : CompileAlike c c' r r') (hc : c.Akin c)
    (hr : r = (.error e, a)) : c ≤ a ∧ c.Akin a := by
  obtain ⟨n, rfl, -⟩ := h.of_error hr
  exact ⟨c.le_after _ _, hc.after _ _⟩

end

/-- The clause names only auxiliary predicates and constants that were numbered between `b` and
    `a`: a renumbering that leaves these alone leaves the clause alone. -/
def Clause.Between (c : Clause) (b a : Compiler) : Prop :=
  ∀ ρ : Renumbering,
    (∀ g n, g.name = auxiliaryName n → b.auxiliaries < n → n ≤ a.auxiliaries → ρ.goals g g) →
    (∀ n, b.constants ≤ n → n < a.constants → ρ.cells n n) → ρ.Clause c c

namespace Compiler

variable {b a c : Compiler} {q : Clause} {as : List Nat} {k : Nat} {t : Term}

/-- **What a compiler makes of a term** with the numbers between `b` and `a`. -/
structure Made (b : Compiler) (q : Clause) (a : Compiler) : Prop where
  /-- Numbers are used up. -/
  le : b ≤ a
  /-- The clause keeps to them. -/
  between : q.Between b a
  /-- Its auxiliary clauses keep to them, are compiled and follow no other number. -/
  parts : ∀ d ∈ q.descendants, d.Between b a ∧ d.Auxiliary notQuery ∧ 0 ≤ d.signature.arity ∧
    ∃ n, d.signature.name = auxiliaryName n ∧ b.auxiliaries < n ∧ n ≤ a.auxiliaries
  /-- Each of them has a predicate of its own. -/
  nodup : (q.descendants.map Clause.signature).Nodup

/-- Auxiliary predicates have a number of arguments. -/
theorem arity_auxiliaryPredicates {n : Nat} {g : Signature} (h : g ∈ auxiliaryPredicates n as) :
    0 ≤ g.arity := by
  induction as generalizing n with
  | nil => cases h
  | cons x as ih =>
    rcases List.mem_cons.1 h with rfl | h
    · exact Int.natCast_nonneg x
    · exact ih h

/-- A renumbering that leaves the numbers of a clause alone leaves the clause alone. -/
theorem between_of_counterparts (h : Counterparts c c as k q q) :
    q.Between c (c.after as.length k) ∧ ∀ d ∈ q.descendants, d.Between c (c.after as.length k) := by
  have hclauses : ∀ ρ : Renumbering,
      (∀ g n, g.name = auxiliaryName n → c.auxiliaries < n → n ≤ (c.after as.length k).auxiliaries →
        ρ.goals g g) →
      (∀ n, c.constants ≤ n → n < (c.after as.length k).constants → ρ.cells n n) →
      ρ.Clause q q ∧ ∀ d ∈ q.descendants, ρ.Clause d d := by
    intro ρ hgoals hcells
    have hle : ρ.reach c.constants c.constants k ≤ ρ := by
      refine ⟨fun _ _ hg => hg, fun n n' hn => ?_⟩
      obtain ⟨j, hj, rfl, rfl⟩ := hn
      exact hcells _ (Nat.le_add_right _ _) (Nat.add_lt_add_left hj _)
    have hpairs : ρ.Pairs c.auxiliaries c.auxiliaries as := by
      intro g g' hg
      obtain ⟨j, x, hj, rfl, rfl⟩ := mem_zip_auxiliaryPredicates hg
      refine hgoals _ _ rfl (by omega) ?_
      show _ ≤ c.auxiliaries + as.length
      omega
    obtain ⟨hq, hkin⟩ := h.clauses ρ hpairs
    exact ⟨hq.mono hle, fun d hd => (List.forall₂_same.1 (hkin.mono hle) d hd).1⟩
  exact ⟨fun ρ hg hc => (hclauses ρ hg hc).1, fun d hd ρ hg hc => (hclauses ρ hg hc).2 d hd⟩

/-- A clause that is its own counterpart is made by its compiler. -/
theorem made_of_counterparts (h : Counterparts c c as k q q)
    (hparts : ∀ d ∈ q.descendants, d.Auxiliary notQuery) : Made c q (c.after as.length k) := by
  obtain ⟨hq, hd⟩ := between_of_counterparts h
  refine ⟨c.le_after _ _, hq, fun d hmem => ⟨hd d hmem, hparts d hmem, ?_⟩, ?_⟩
  · have hsig : d.signature ∈ auxiliaryPredicates c.auxiliaries as :=
      h.left ▸ List.mem_map_of_mem hmem
    obtain ⟨j, hj, hname⟩ := mem_auxiliaryPredicates hsig
    refine ⟨arity_auxiliaryPredicates hsig, _, hname, by omega, ?_⟩
    show _ ≤ c.auxiliaries + as.length
    omega
  · rw [h.left]
    exact nodup_auxiliaryPredicates _ _

/-- A question belongs to the query. -/
theorem query_signature (h : (c.query t).1 = .ok q) : q.signature = querySignature := by
  obtain ⟨b, -, rfl⟩ := query_eq_ok h
  rfl

/-- What one compiler objects to, the other does. -/
theorem query_error_of_akin {c' : Compiler} {e : CompileError} (hc : c.Akin c') (ht : t.Proper)
    (hgoals : Ordinary t.queryGoals) (h : (c.query t).1 = .error e) :
    (c'.query t).1 = .error e := by
  obtain ⟨n, -, hr⟩ := (query_alike hc ht hgoals.unreserved).of_error (Prod.ext h rfl)
  rw [hr]

/-- A clause belongs to the predicate of its head. -/
theorem clause_signature (h : (c.clause t).1 = .ok q) : ∃ head rule name args,
    splitClause t = .ok (head, rule) ∧ headOf head = .ok (name, args) ∧
      q.signature = ⟨name, args.length⟩ := by
  obtain ⟨head, rule, name, args, hsplit, hname, hclause⟩ := clause_eq_ok h
  refine ⟨head, rule, name, args, hsplit, hname, ?_⟩
  obtain ⟨-, rfl⟩ | ⟨body, b, -, -, rfl⟩ := hclause
  · rfl
  · rfl

end Compiler

/-! ## §3. Compiled questions. -/

/-- The compilation of a question that names no reserved predicate. -/
structure Issue where
  /-- The compiler before. -/
  before : Compiler
  /-- The question. -/
  term : Term
  /-- Its code. -/
  clause : Clause
  /-- The compiler afterwards. -/
  after : Compiler
  /-- The compiler has accepted the question. -/
  compiled : before.query term = (.ok clause, after)
  /-- The question was read from a text. -/
  proper : term.Proper
  /-- It names no reserved predicate. -/
  ordinary : Ordinary term.queryGoals
  /-- Nor does any native predicate. -/
  unreserved : Unreserved before.natives

namespace Issue

variable {e e' : Issue}

/-- The question is compiled. -/
theorem fst_query (e : Issue) : (e.before.query e.term).1 = .ok e.clause :=
  congrArg Prod.fst e.compiled

/-- A compiler is akin to itself. -/
theorem akin_self (e : Issue) : e.before.Akin e.before := ⟨rfl, rfl, e.unreserved⟩

/-- The code is sound and starts at its body. -/
theorem sound (e : Issue) : (e.clause.Sound notQuery ∧ e.clause.native = false ∧
    headLabel ∉ e.clause.code.map Prod.fst ∧ bodyLabel ∈ e.clause.code.map Prod.fst) ∧
      ∀ d ∈ e.clause.descendants, d.Auxiliary notQuery :=
  Compiler.query_compiled e.proper e.ordinary.admissible e.fst_query

/-- Two issues of a question: how many numbers each has used up, and how their code differs. -/
structure Twins (e e' : Issue) (as : List Nat) (k : Nat) : Prop where
  /-- The numbers of the first. -/
  left : e.after = e.before.after as.length k
  /-- Those of the second. -/
  right : e'.after = e'.before.after as.length k
  /-- There is no other difference. -/
  counterparts : Counterparts e.before e'.before as k e.clause e'.clause

/-- **Issues of one question have the same code up to renumbering.** -/
theorem exists_twins (h : e.before.Akin e'.before) (ht : e'.term = e.term) :
    ∃ as k, e.Twins e' as k := by
  have halike := Compiler.query_alike h e.proper e.ordinary.unreserved
  obtain ⟨as, k, q', ha, hr, hc⟩ := halike.of_ok e.compiled
  rw [← ht, e'.compiled] at hr
  obtain ⟨hq, ha'⟩ := Prod.mk.inj hr
  obtain rfl := Except.ok.inj hq
  exact ⟨as, k, ha, ha', hc⟩

/-- What the compiler has made of the question. -/
theorem made (e : Issue) : Compiler.Made e.before e.clause e.after := by
  obtain ⟨as, k, htwins⟩ := exists_twins e.akin_self rfl
  exact htwins.left ▸ Compiler.made_of_counterparts htwins.counterparts e.sound.2

/-- It is akin to what it has become. -/
theorem akin_after (e : Issue) : e.before.Akin e.after := by
  obtain ⟨as, k, htwins⟩ := exists_twins e.akin_self rfl
  exact htwins.left ▸ e.akin_self.after _ _

/-- Its clause is that of a question. -/
theorem isQuery (e : Issue) : e.clause.isQuery = true := by
  have hhead : e.clause.block? headLabel = none := by
    rw [Clause.block?, List.lookup_eq_none_iff]
    intro b hb
    simpa using fun heq : headLabel = b.1 => e.sound.1.2.2.1 (heq ▸ List.mem_map_of_mem hb)
  simp [Clause.isQuery, hhead, Compiler.query_signature e.fst_query, querySignature]

end Issue

/-! ## §4. Clauses put into a store. -/

namespace ClauseStore

variable {db : ClauseStore} {s g : Signature} {c : Clause} {cs ds : List Clause}

/-- The store with other clauses of a predicate, and each of `ds` as the only one of its own. -/
def install (db : ClauseStore) (s : Signature) (cs ds : List Clause) : ClauseStore :=
  ((db.put s cs).replaceAll ds).2

/-- The clauses can be stored. -/
def Storable (ds : List Clause) : Prop := ∀ d ∈ ds, d.signature.name ≠ "" ∧ 0 ≤ d.signature.arity

/-- A clause of a proper signature replaces the others of its signature. -/
theorem replace_eq (hc : c.signature.name ≠ "" ∧ 0 ≤ c.signature.arity) :
    db.replace c.signature (some c) = .ok (db.put c.signature [c]) := by
  have harity : ¬ c.signature.arity < 0 := by omega
  simp [replace, hc.1, harity]

/-- Auxiliary clauses that can be stored are stored. -/
theorem replaceAll_accepted (h : Storable ds) : (db.replaceAll ds).1 = none := by
  induction ds generalizing db with
  | nil => rfl
  | cons d ds ih =>
    rw [replaceAll, replace_eq (h d List.mem_cons_self)]
    exact ih fun d' hd' => h d' (List.mem_cons_of_mem d hd')

/-- What is there afterwards was there before or is one of the auxiliary clauses. -/
theorem mem_replaceAll (h : c ∈ (db.replaceAll ds).2.clauses g) :
    c ∈ db.clauses g ∨ c ∈ ds ∧ c.signature = g := by
  induction ds generalizing db with
  | nil => exact .inl h
  | cons d ds ih =>
    rw [replaceAll] at h
    split at h
    · exact .inl h
    next db' hrep =>
    rcases ih h with hmem | ⟨hmem, hsig⟩
    · simp only [replace] at hrep
      split at hrep
      · cases hrep
      obtain rfl := Except.ok.inj hrep
      rw [clauses_put] at hmem
      split at hmem
      · next heq =>
        obtain rfl := List.mem_singleton.1 hmem
        exact .inr ⟨List.mem_cons_self, heq.symm⟩
      · exact .inl hmem
    · exact .inr ⟨List.mem_cons_of_mem d hmem, hsig⟩

/-- Each clause is then the only one of its predicate. -/
theorem clauses_replaceAll_self (h : Storable ds) (hnodup : (ds.map Clause.signature).Nodup)
    (hc : c ∈ ds) : (db.replaceAll ds).2.clauses c.signature = [c] := by
  induction ds generalizing db with
  | nil => cases hc
  | cons d ds ih =>
    rw [replaceAll, replace_eq (h d List.mem_cons_self)]
    obtain ⟨hd, hds⟩ := List.nodup_cons.1 hnodup
    rcases List.mem_cons.1 hc with rfl | hc
    · refine (KnowledgeBase.clauses_replaceAll ds fun c' hc' heq => hd ?_).trans ?_
      · rw [← heq]
        exact List.mem_map_of_mem hc'
      · rw [clauses_put, if_pos rfl]
    · exact ih (fun d' hd' => h d' (List.mem_cons_of_mem d hd')) hds hc

/-- What is there after a question was there before, or comes from it. -/
theorem mem_install (h : c ∈ (db.install s cs ds).clauses g) :
    g = s ∧ c ∈ cs ∨ c ∈ db.clauses g ∨ c ∈ ds ∧ c.signature = g := by
  rcases mem_replaceAll h with h | h
  · rw [clauses_put] at h
    split at h
    · next heq => exact .inl ⟨heq, h⟩
    · exact .inr (.inl h)
  · exact .inr (.inr h)

/-- The other predicates keep their clauses. -/
theorem clauses_install_of_ne (hs : g ≠ s) (hds : ∀ d ∈ ds, d.signature ≠ g) :
    (db.install s cs ds).clauses g = db.clauses g := by
  rw [install, KnowledgeBase.clauses_replaceAll ds hds, clauses_put, if_neg hs]

/-- The question's own clauses are found where no auxiliary clause takes their place. -/
theorem clauses_install_base (hds : ∀ d ∈ ds, d.signature ≠ s) :
    (db.install s cs ds).clauses s = cs := by
  rw [install, KnowledgeBase.clauses_replaceAll ds hds, clauses_put, if_pos rfl]

end ClauseStore

open ClauseStore Compiler

variable {b a : Compiler} {q : Clause}

/-- The auxiliary clauses of a question can be stored. -/
theorem Compiler.Made.storable (h : Made b q a) : Storable q.descendants := by
  intro d hd
  obtain ⟨-, -, harity, n, hname, -⟩ := h.parts d hd
  exact ⟨hname ▸ auxiliaryName_ne_empty n, harity⟩

/-- They have reserved names. -/
theorem Compiler.Made.reserved (h : Made b q a) {d : Clause} (hd : d ∈ q.descendants) :
    isAuxiliary d.signature.name = true := by
  obtain ⟨-, -, -, n, hname, -⟩ := h.parts d hd
  exact hname ▸ isAuxiliary_auxiliaryName n

/-- What was made at different times has different auxiliary predicates. -/
theorem Compiler.Made.signature_ne {b' a' : Compiler} {q' d d' : Clause} (h : Made b q a)
    (h' : Made b' q' a') (hle : a ≤ b') (hd : d ∈ q.descendants) (hd' : d' ∈ q'.descendants) :
    d.signature ≠ d'.signature := by
  intro heq
  obtain ⟨-, -, -, n, hname, -, hn⟩ := h.parts d hd
  obtain ⟨-, -, -, n', hname', hn', -⟩ := h'.parts d' hd'
  obtain rfl := auxiliaryName_inj.1 (hname.symm.trans ((congrArg Signature.name heq).trans hname'))
  have := hle.1
  omega

/-- The knowledge base with a question and its auxiliary clauses. -/
def KnowledgeBase.posed (kb : KnowledgeBase) (q : Clause) : KnowledgeBase :=
  { kb with user := kb.user.install querySignature [q] q.descendants }

/-- **An issued question is never refused.** -/
theorem Issue.ask (e : Issue) (kb : KnowledgeBase) : ({} : Machine).ask kb (some e.clause) =
    (none, kb.posed e.clause, ({} : Machine).posed e.clause) := by
  have hset : kb.setQuery (some e.clause) = (none, kb.posed e.clause) := by
    unfold KnowledgeBase.setQuery
    simp only [e.isQuery, Bool.not_true, Bool.false_eq_true, if_false]
    rw [replaceAll_accepted e.made.storable]
    rfl
  unfold Machine.ask
  rw [hset]
  rfl

/-! ## §5. Sessions in order. -/

/-- A clause of a predicate `g` is native, or it was compiled with numbers that no issued question
    has, unless it is an auxiliary clause of that question. -/
inductive Clause.Filed (I : Set Issue) (limit : Compiler) (g : Signature) (c : Clause) : Prop where
  /-- It is native. -/
  | native (hnative : c.native = true) (hcode : c.code = [])
  /-- It was compiled. -/
  | compiled {b a : Compiler} (hcompiled : c.Compiled notQuery) (hbetween : c.Between b a)
    (hlimit : a ≤ limit) (hapart : ∀ e ∈ I,
      a ≤ e.before ∨ e.after ≤ b ∨ ∃ d ∈ e.clause.descendants, d.signature = g)

/-- All clauses that a call can find are filed. -/
def ClauseStore.Filed (I : Set Issue) (limit : Compiler) (db : ClauseStore) : Prop :=
  ∀ g, g ≠ querySignature → ∀ c ∈ db.clauses g, c.Filed I limit g

/-- The cache keeps issued questions under their texts. -/
def Session.Cached (I : Set Issue) (cache : Option (RecencyCache Clause)) : Prop :=
  ∀ x, cache = some x → ∀ y ∈ x.table,
    ∃ e ∈ I, e.clause = y.2 ∧ readClause {} y.1 0 = .ok e.term

/-- **The session is in order**, with the questions of `I` issued. -/
structure Session.InOrder (I : Set Issue) (s : Session) : Prop where
  /-- No native predicate has the name of an auxiliary one. -/
  unreserved : Unreserved s.compiler.natives
  /-- The native predicates depend on their arguments only. -/
  dependsOnArguments : ∀ b ∈ s.natives.builtins, b.DependsOnArguments
  /-- The questions were issued by this compiler. -/
  akin : ∀ e ∈ I, e.before.Akin s.compiler
  /-- Their numbers are used up. -/
  issued : ∀ e ∈ I, e.after ≤ s.compiler
  /-- They were issued one after the other. -/
  apart : ∀ e ∈ I, ∀ e' ∈ I, e = e' ∨ e.after ≤ e'.before ∨ e'.after ≤ e.before
  /-- Their auxiliary clauses are where they belong. -/
  installed : ∀ e ∈ I, ∀ d ∈ e.clause.descendants, s.base.user.clauses d.signature = [d]
  /-- The clauses of the user. -/
  user : s.base.user.Filed I s.compiler
  /-- The builtin ones. -/
  builtin : s.base.builtin.Filed I s.compiler
  /-- The cache keeps issued questions. -/
  cached : Session.Cached I s.cache

variable {I I' : Set Issue} {limit limit' : Compiler} {db : ClauseStore} {s : Session} {e : Issue}
  {g : Signature} {c : Clause}

theorem Clause.Filed.mono (hle : limit ≤ limit') (h : c.Filed I limit g) : c.Filed I limit' g := by
  cases h with
  | native hnative hcode => exact .native hnative hcode
  | compiled hcompiled hbetween hlimit hapart =>
    exact .compiled hcompiled hbetween (hlimit.trans hle) hapart

/-- A question that is issued later leaves the clause alone. -/
theorem Clause.Filed.issue (he : limit ≤ e.before) (h : c.Filed I limit g) :
    c.Filed (I ∪ {e}) limit g := by
  cases h with
  | native hnative hcode => exact .native hnative hcode
  | compiled hcompiled hbetween hlimit hapart =>
    refine .compiled hcompiled hbetween hlimit fun e' he' => ?_
    rcases he' with he' | rfl
    · exact hapart e' he'
    · exact .inl (hlimit.trans he)

theorem ClauseStore.Filed.mono (hle : limit ≤ limit') (h : db.Filed I limit) :
    db.Filed I limit' := fun g hg c hc => (h g hg c hc).mono hle

/-- A store stays filed when one more question is issued. -/
theorem ClauseStore.Filed.issue (he : limit ≤ e.before) (h : db.Filed I limit) :
    db.Filed (I ∪ {e}) limit := fun g hg c hc => (h g hg c hc).issue he

/-- A store stays filed with what a compiler has made. -/
theorem ClauseStore.Filed.install {cs : List Clause} {sig : Signature} (h : db.Filed I limit)
    (hmade : Made b q a) (hlimit : a ≤ limit)
    (hcs : sig ≠ querySignature → ∀ c ∈ cs, c.Filed I limit sig)
    (hapart : ∀ e ∈ I, a ≤ e.before ∨ e.after ≤ b ∨ e.clause = q) :
    (db.install sig cs q.descendants).Filed I limit := by
  intro g hg c hc
  rcases mem_install hc with ⟨rfl, hmem⟩ | hmem | ⟨hmem, rfl⟩
  · exact hcs hg c hmem
  · exact h g hg c hmem
  · obtain ⟨hbetween, haux, -⟩ := hmade.parts c hmem
    refine .compiled haux.1 hbetween hlimit fun e he => ?_
    rcases hapart e he with hle | hle | rfl
    · exact .inl hle
    · exact .inr (.inl hle)
    · exact .inr (.inr ⟨c, hmem, rfl⟩)

/-- A cache stays in order as more questions are issued. -/
theorem Session.Cached.mono {cache : Option (RecencyCache Clause)} (hI : I ⊆ I')
    (h : Session.Cached I cache) : Session.Cached I' cache := by
  intro x hx y hy
  obtain ⟨e, he, hcached⟩ := h x hx y hy
  exact ⟨e, hI he, hcached⟩

namespace Session.InOrder

/-- More numbers may be used up, less may be kept in the cache, and anything be written. -/
theorem advance (h : s.InOrder I) {limit : Compiler} (hakin : s.compiler.Akin limit)
    (hle : s.compiler ≤ limit) {cache : Option (RecencyCache Clause)}
    (hcache : Cached I cache) (t : Transcript) :
    ({ s with compiler := limit, cache := cache, transcript := t } : Session).InOrder I where
  unreserved := hakin.symm.unreserved
  dependsOnArguments := h.dependsOnArguments
  akin e he := (h.akin e he).trans hakin
  issued e he := (h.issued e he).trans hle
  apart := h.apart
  installed := h.installed
  user := h.user.mono hle
  builtin := h.builtin.mono hle
  cached := hcache

/-- The transcript does not matter. -/
theorem transcript (h : s.InOrder I) (t : Transcript) :
    ({ s with transcript := t } : Session).InOrder I := { h with }

/-- The auxiliary clauses of an issued question are found again when it is asked again, and those
    of a new one disturb no other. -/
theorem clauses_posed (h : s.InOrder I) (he : e ∈ I ∨ s.compiler ≤ e.before) {e' : Issue}
    (he' : e' ∈ I ∪ {e}) {d : Clause} (hd : d ∈ e'.clause.descendants) :
    (s.base.posed e.clause).user.clauses d.signature = [d] := by
  have hquery : d.signature ≠ querySignature := (e'.sound.2 d hd).2
  have hself : ∀ d ∈ e.clause.descendants,
      (s.base.posed e.clause).user.clauses d.signature = [d] :=
    fun d hd => clauses_replaceAll_self e.made.storable e.made.nodup hd
  rcases he' with he' | rfl
  case inr => exact hself d hd
  by_cases hmem : e' = e
  · subst hmem
    exact hself d hd
  · refine (clauses_install_of_ne hquery fun d' hd' heq => ?_).trans (h.installed e' he' d hd)
    rcases he with he | he
    · rcases h.apart e' he' e he with heq' | hle | hle
      · exact hmem heq'
      · exact e'.made.signature_ne e.made hle hd hd' heq.symm
      · exact e.made.signature_ne e'.made hle hd' hd heq
    · exact e'.made.signature_ne e.made ((h.issued e' he').trans he) hd hd' heq.symm

/-- **A question that was issued before, or is issued now, is asked.** -/
theorem posed (h : s.InOrder I) (hfrom : e.before.Akin s.compiler)
    (he : e ∈ I ∨ s.compiler ≤ e.before) {limit : Compiler} (hakin : s.compiler.Akin limit)
    (hle : s.compiler ≤ limit) (hafter : e.after ≤ limit) {cache : Option (RecencyCache Clause)}
    (hcache : Cached (I ∪ {e}) cache) (t : Transcript) :
    ({ s with
        base := s.base.posed e.clause, compiler := limit, cache := cache
        transcript := t } : Session).InOrder (I ∪ {e}) := by
  -- The question is either one of those that were issued, or a new one with numbers above all others.
  have hfiled : ∀ {db : ClauseStore}, db.Filed I s.compiler → db.Filed (I ∪ {e}) limit := by
    intro db hdb
    rcases he with he | he
    · rw [Set.union_eq_left.2 (Set.singleton_subset_iff.2 he)]
      exact hdb.mono hle
    · exact (hdb.issue he).mono hle
  have hapart : ∀ e' ∈ I, e' = e ∨ e'.after ≤ e.before ∨ e.after ≤ e'.before := by
    intro e' he'
    rcases he with he | he
    · exact h.apart e' he' e he
    · exact .inr (.inl ((h.issued e' he').trans he))
  refine ⟨hakin.symm.unreserved, h.dependsOnArguments, ?_, ?_, ?_, ?_, ?_, hfiled h.builtin, hcache⟩
  · rintro e' (he' | rfl)
    · exact (h.akin e' he').trans hakin
    · exact hfrom.trans hakin
  · rintro e' (he' | rfl)
    · exact (h.issued e' he').trans hle
    · exact hafter
  · rintro e₁ (he₁ | rfl) e₂ (he₂ | rfl)
    · exact h.apart e₁ he₁ e₂ he₂
    · exact hapart e₁ he₁
    · rcases hapart e₂ he₂ with heq | hle' | hle'
      · exact .inl heq.symm
      · exact .inr (.inr hle')
      · exact .inr (.inl hle')
    · exact .inl rfl
  · exact fun e' he' d hd => h.clauses_posed he he' hd
  · refine (hfiled h.user).install e.made hafter (fun hq => (hq rfl).elim) ?_
    -- Of two questions the later one starts where the earlier one has ended, so their auxiliary clauses
    -- differ.
    rintro e' (he' | rfl)
    · rcases hapart e' he' with rfl | hle' | hle'
      · exact .inr (.inr rfl)
      · exact .inr (.inl hle')
      · exact .inl hle'
    · exact .inr (.inr rfl)

end Session.InOrder

end PrologMachine
