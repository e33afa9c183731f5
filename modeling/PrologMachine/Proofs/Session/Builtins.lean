/-
  PrologMachine.Proofs.Session.Builtins ── **BUILTIN PREDICATES CANNOT BE REDEFINED.**

  The check is made where a clause of the user is inserted.  Questions, directives and auxiliary
  clauses are stored without it, but only under names that are left to the system: whatever texts
  say, an auxiliary clause is named by its number.

    * `Clause.Furnished`: the auxiliary clauses of a clause are made up;
      `Compiler.clause_furnished`, `Compiler.query_furnished`.
    * `KnowledgeBase.Changes`: what one clause, directive or question does to a knowledge base;
      `Changes.guarded`, `Changes.appends`.
    * `Session.Later`: what becomes of a session; `Later.builtins_kept`, `Later.appends`.
-/
import PrologMachine.Proofs.Session.Upkeep

namespace PrologMachine

open ClauseStore
open Relation (ReflTransGen)

/-! ## §1. Auxiliary clauses are made up. -/

/-- The predicate is named by a number. -/
def Signature.MadeUp (g : Signature) : Prop := (∃ n, g.name = auxiliaryName n) ∧ 0 ≤ g.arity

/-- A name that is made up is reserved. -/
theorem Signature.MadeUp.reserved {g : Signature} (h : g.MadeUp) : Reserved g := by
  obtain ⟨⟨n, hname⟩, -⟩ := h
  exact .inr (hname ▸ isAuxiliary_auxiliaryName n)

/-- All auxiliary clauses of the clause are made up. -/
def Clause.Furnished (c : Clause) : Prop := ∀ d ∈ c.descendants, d.signature.MadeUp

/-- The auxiliary clauses of a compiled clause can be stored. -/
theorem Clause.Furnished.storable {c : Clause} (h : c.Furnished) : Storable c.descendants := by
  intro d hd
  obtain ⟨⟨n, hname⟩, harity⟩ := h d hd
  exact ⟨hname ▸ auxiliaryName_ne_empty n, harity⟩

/-- A goal that is no control construct makes no auxiliary clause. -/
theorem Body.heads_ofGoal {isQuery : Bool} {g : Goal} {b : Body}
    (h : Body.ofGoal isQuery g = .ok b) : b.heads = [] := by
  obtain rfl | rfl | rfl | hprimitive | ⟨-, rfl⟩ := Body.ofGoal_ok h
  · rfl
  · rfl
  · rfl
  · obtain ⟨target, value, x, -, -, -, rfl⟩ | ⟨-, x, -, rfl⟩ := Body.ofPrimitive_ok hprimitive
    · rfl
    · rfl
  · rfl

/-- **Whatever a text says, the auxiliary clauses of its bodies are made up.** -/
theorem Body.ofTerm_heads (isQuery : Bool) (t : Term) :
    (Body.ofTerm isQuery t).Yields (fun b => ∀ g ∈ b.heads, g.MadeUp) := by
  fun_induction Body.ofTerm isQuery t with
  -- Both sides of a conjunction or a disjunction may make up heads.
  | case1 isQuery l r attrs pos ihl ihr =>
    exact ihl.bind fun _ hl => ihr.bind fun _ hr =>
      .pure fun g hg => (List.mem_append.1 hg).elim (hl g) (hr g)
  | case2 isQuery l r attrs pos ihl ihr =>
    exact ihl.bind fun _ hl => ihr.bind fun _ hr =>
      .pure fun g hg => (List.mem_append.1 hg).elim (hl g) (hr g)
  -- A negated goal makes up one head, with the next number.
  | case3 isQuery t attrs pos ih =>
    refine Shaping.Yields.bind (P := fun _ => True) (.lift fun _ _ => trivial) fun g _ => ?_
    refine .ite (fun _ => ?_) (fun _ => .pure (by simp [Body.heads]))
    refine Shaping.Yields.bind (P := fun head => head.signature.MadeUp) ?_ fun head hhead =>
      ih.bind fun _ hbody => .pure fun g hg => (List.mem_cons.1 hg).elim (· ▸ hhead) (hbody g)
    intro n head n' h
    obtain rfl : (⟨auxiliaryName (n + 1), t.namedVars, .none, g.position⟩ : Goal) = head :=
      Except.ok.inj (congrArg Prod.fst h)
    exact ⟨⟨n + 1, rfl⟩, Int.natCast_nonneg _⟩
  -- Any other goal makes up none.
  | case4 isQuery t hconj hdisj hnot =>
    refine Shaping.Yields.bind (P := fun _ => True) (.lift fun _ _ => trivial)
      fun g _ => .lift fun b hb => ?_
    rw [Body.heads_ofGoal hb]
    simp

namespace Compiler

variable {c c' : Compiler} {t : Term} {q : Clause}

/-- The heads of auxiliary clauses are made up. -/
theorem heads_body {isQuery : Bool} {b : Body} (h : (c.body isQuery t).1 = .ok b) :
    ∀ g ∈ b.heads, g.MadeUp :=
  Body.ofTerm_heads isQuery t c.auxiliaries b _ (Prod.ext h rfl)

/-- The auxiliary clauses that come with the code of a body. -/
theorem furnished_of_heads {gs : List Signature} (h : q.descendants.map Clause.signature = gs)
    (hgs : ∀ g ∈ gs, g.MadeUp) : q.Furnished :=
  fun _ hd => hgs _ (h ▸ List.mem_map_of_mem hd)

/-- **The auxiliary clauses of every compiled clause are made up.** -/
theorem clause_furnished (h : (c.clause t).1 = .ok q) : q.Furnished := by
  obtain ⟨head, rule, name, args, -, -, ⟨rfl, rfl⟩ | ⟨body, b, rfl, hb, rfl⟩⟩ := clause_eq_ok h
  · exact furnished_of_heads (fact_heads name args _) (by simp [emitter, Emitter.heads, Clause.descendantsOf])
  · refine furnished_of_heads ?_ (heads_body hb)
    refine ((clauseOf_heads name args _ _).2.trans (b.fragment_heads _ _ _)).trans ?_
    rw [(Emit.Local.decodeHead _ _ _).heads]
    simp [emitter, Emitter.heads, Clause.descendantsOf]

/-- **So are those of every compiled question.** -/
theorem query_furnished (h : (c.query t).1 = .ok q) : q.Furnished := by
  obtain ⟨b, hb, rfl⟩ := query_eq_ok h
  refine furnished_of_heads ?_ (heads_body hb)
  rw [Clause.descendants_mk]
  exact (b.fragment_heads _ _ _).trans (by simp [emitter, Emitter.heads, Clause.descendantsOf])

end Compiler

/-! ## §2. What a knowledge base goes through. -/

/-- A store has a predicate when it has a clause of it. -/
theorem ClauseStore.contains_iff {db : ClauseStore} {g : Signature} :
    db.contains g = true ↔ db.clauses g ≠ [] := by
  simp [ClauseStore.contains]

/-- A predicate that is then defined was defined before, or one of the clauses defines it. -/
theorem ClauseStore.contains_install {db : ClauseStore} {s g : Signature} {cs ds : List Clause}
    (h : (db.install s cs ds).contains g = true) :
    g = s ∨ db.contains g = true ∨ ∃ d ∈ ds, d.signature = g := by
  obtain ⟨c, hc⟩ := List.exists_mem_of_ne_nil _ (contains_iff.1 h)
  rcases mem_install hc with ⟨hg, -⟩ | hmem | ⟨hmem, hg⟩
  · exact .inl hg
  · exact .inr (.inl (contains_iff.2 (List.ne_nil_of_mem hmem)))
  · exact .inr (.inr ⟨c, hmem, hg⟩)

/-- Storing clauses of one predicate loses none of the others. -/
theorem ClauseStore.contains_put {db : ClauseStore} {s g : Signature} {cs : List Clause}
    (hcs : cs ≠ []) (h : db.contains g = true) : (db.put s cs).contains g = true := by
  rw [contains_iff, clauses_put]
  split
  · exact hcs
  · exact contains_iff.1 h

/-- No predicate becomes undefined. -/
theorem ClauseStore.contains_install_of_contains {db : ClauseStore} {s g : Signature}
    {cs ds : List Clause} (hcs : cs ≠ []) (h : db.contains g = true) :
    (db.install s cs ds).contains g = true := by
  have hall : ∀ (ds : List Clause) (db : ClauseStore), db.contains g = true →
      (db.replaceAll ds).2.contains g = true := by
    intro ds
    induction ds with
    | nil => exact fun _ h => h
    | cons d ds ih =>
      intro db h
      unfold replaceAll
      split
      · exact h
      next db' hrep =>
      simp only [replace] at hrep
      split at hrep
      · cases hrep
      obtain rfl := Except.ok.inj hrep
      exact ih _ (contains_put (List.cons_ne_nil _ _) h)
  exact hall ds _ (contains_put hcs h)

/-- A predicate stays defined when a clause is put behind those of its predicate. -/
theorem ClauseStore.clauses_prefix_extend {db : ClauseStore} {c : Clause} {g : Signature}
    (hc : c.Furnished) (hg : ∀ n, g.name ≠ auxiliaryName n) :
    db.clauses g <+: (db.extend c).clauses g := by
  have hne : ∀ d ∈ c.descendants, d.signature ≠ g := by
    rintro d hd rfl
    obtain ⟨⟨n, hn⟩, -⟩ := hc d hd
    exact hg n hn
  by_cases hsig : g = c.signature
  · subst hsig
    rw [ClauseStore.extend, clauses_install_base hne]
    exact List.prefix_append _ _
  · rw [ClauseStore.extend, clauses_install_of_ne hsig hne]

namespace KnowledgeBase

/-- What one clause, directive or question does to a knowledge base, where clauses go to `d`. -/
inductive Changes (d : Session.Destination) (kb : KnowledgeBase) : KnowledgeBase → Prop where
  /-- It is refused. -/
  | refused : Changes d kb kb
  /-- A clause of the user is put behind the others; its predicate is not builtin. -/
  | user {c : Clause} (hd : d = .user) (hc : c.Furnished)
    (hfree : kb.builtin.contains c.signature = false) :
    Changes d kb { kb with user := kb.user.extend c }
  /-- A builtin clause is put behind the others. -/
  | builtin {c : Clause} (hd : d = .builtin) (hc : c.Furnished) :
    Changes d kb { kb with builtin := kb.builtin.extend c }
  /-- A question takes the place of the last one. -/
  | posed {q : Clause} (hq : q.Furnished) : Changes d kb (kb.posed q)

/-- No predicate is defined by the user and builtin as well, unless it is left to the system. -/
def Guarded (kb : KnowledgeBase) : Prop :=
  ∀ g, kb.user.contains g = true → kb.builtin.contains g = true → Reserved g

variable {d : Session.Destination} {kb kb' : KnowledgeBase} {g : Signature}

/-- **The user changes no builtin predicate.** -/
theorem Changes.builtin_eq (h : Changes .user kb kb') : kb'.builtin = kb.builtin := by
  cases h with
  | builtin hd => cases hd
  | _ => rfl

/-- **Nor does the user define one.** -/
theorem Changes.guarded (h : Changes .user kb kb') (hkb : kb.Guarded) : kb'.Guarded := by
  intro g huser hbuiltin
  rw [h.builtin_eq] at hbuiltin
  cases h with
  | refused => exact hkb g huser hbuiltin
  | user _ hc hfree =>
    rcases contains_install huser with rfl | hold | ⟨d, hd, rfl⟩
    · rw [hfree] at hbuiltin
      cases hbuiltin
    · exact hkb g hold hbuiltin
    · exact (hc d hd).reserved
  | builtin hd => cases hd
  | posed hq =>
    rcases contains_install huser with rfl | hold | ⟨d, hd, rfl⟩
    · exact .inl rfl
    · exact hkb g hold hbuiltin
    · exact (hq d hd).reserved

/-- While libraries are loaded, all that the user defines is left to the system. -/
theorem Changes.reserved (h : Changes .builtin kb kb')
    (hkb : ∀ g, kb.user.contains g = true → Reserved g) :
    ∀ g, kb'.user.contains g = true → Reserved g := by
  intro g huser
  cases h with
  | user hd => cases hd
  | posed hq =>
    rcases contains_install huser with rfl | hold | ⟨d, hd, rfl⟩
    · exact .inl rfl
    · exact hkb g hold
    · exact (hq d hd).reserved
  | _ => exact hkb g huser

/-- A builtin predicate stays builtin. -/
theorem Changes.contains_builtin (h : Changes d kb kb') (hg : kb.builtin.contains g = true) :
    kb'.builtin.contains g = true := by
  cases h with
  | builtin => exact contains_install_of_contains (by simp) hg
  | _ => exact hg

/-- **Clauses are put behind those of their predicates.** -/
theorem Changes.appends (h : Changes d kb kb') (hquery : g ≠ querySignature)
    (hg : ∀ n, g.name ≠ auxiliaryName n) :
    kb.user.clauses g <+: kb'.user.clauses g ∧ kb.builtin.clauses g <+: kb'.builtin.clauses g := by
  cases h with
  | refused => exact ⟨List.prefix_rfl, List.prefix_rfl⟩
  | user _ hc _ => exact ⟨clauses_prefix_extend hc hg, List.prefix_rfl⟩
  | builtin _ hc => exact ⟨List.prefix_rfl, clauses_prefix_extend hc hg⟩
  | @posed q hq =>
    refine ⟨?_, List.prefix_rfl⟩
    have hne : ∀ d ∈ q.descendants, d.signature ≠ g := by
      rintro d hd rfl
      obtain ⟨⟨n, hn⟩, -⟩ := hq d hd
      exact hg n hn
    rw [KnowledgeBase.posed, clauses_install_of_ne hquery hne]

/-- While the user loads programs and asks questions, the builtin clauses stay as they are, and no
    predicate is defined twice. -/
theorem guarded_of_changes (h : ReflTransGen (Changes .user) kb kb') (hkb : kb.Guarded) :
    kb'.builtin = kb.builtin ∧ kb'.Guarded := by
  induction h with
  | refl => exact ⟨rfl, hkb⟩
  | tail _ hstep ih => exact ⟨hstep.builtin_eq.trans ih.1, hstep.guarded ih.2⟩

/-- While libraries are loaded, all that the user defines is left to the system, and builtin
    predicates stay builtin. -/
theorem reserved_of_changes (h : ReflTransGen (Changes .builtin) kb kb')
    (hkb : ∀ g, kb.user.contains g = true → Reserved g) :
    (∀ g, kb'.user.contains g = true → Reserved g) ∧
      ∀ g, kb.builtin.contains g = true → kb'.builtin.contains g = true := by
  induction h with
  | refl => exact ⟨hkb, fun _ hg => hg⟩
  | tail _ hstep ih => exact ⟨hstep.reserved ih.1, fun g hg => hstep.contains_builtin (ih.2 g hg)⟩

/-- Clauses are never replaced or removed. -/
theorem prefix_of_changes (h : ReflTransGen (Changes d) kb kb') (hquery : g ≠ querySignature)
    (hg : ∀ n, g.name ≠ auxiliaryName n) :
    kb.user.clauses g <+: kb'.user.clauses g ∧ kb.builtin.clauses g <+: kb'.builtin.clauses g := by
  induction h with
  | refl => exact ⟨List.prefix_rfl, List.prefix_rfl⟩
  | tail _ hstep ih =>
    obtain ⟨huser, hbuiltin⟩ := hstep.appends hquery hg
    exact ⟨ih.1.trans huser, ih.2.trans hbuiltin⟩

/-- A builtin predicate is found among the builtin ones. -/
theorem Guarded.get (h : kb.Guarded) (hg : kb.builtin.contains g = true) (hr : ¬ Reserved g) :
    kb.get g = .ok (kb.builtin.clauses g) := by
  have huser : kb.user.clauses g = [] := by
    by_contra hne
    exact hr (h g (contains_iff.2 hne) hg)
  unfold KnowledgeBase.get ClauseStore.get
  rw [huser]
  cases hcs : kb.builtin.clauses g with
  | nil => exact absurd hcs (contains_iff.1 hg)
  | cons c cs => rfl

/-- **An insertion that is refused leaves the knowledge base as it was**, provided that the auxiliary
    clauses can be stored. -/
theorem insertUser_refused {clause : Option Clause} (hc : ∀ c ∈ clause, Storable c.descendants)
    (h : (kb.insertUser g clause).error ≠ none) : (kb.insertUser g clause).base = kb := by
  unfold insertUser at h ⊢
  split
  · rfl
  next hfree =>
  rw [if_neg hfree] at h
  split
  · rfl
  next db hdb =>
  rw [hdb] at h
  have hstorable : Storable ((clause.map Clause.descendants).getD []) := by
    cases clause with
    | none => exact fun d hd => absurd hd List.not_mem_nil
    | some c => exact hc c rfl
  exact absurd (replaceAll_accepted hstorable) h

/-- Inserting a compiled clause for the user changes nothing else. -/
theorem insertUser_changes (kb : KnowledgeBase) {c : Clause} (hc : c.Furnished) :
    Changes .user kb (kb.insertUser c.signature (some c)).base := by
  rcases kb.insertUser_base c with hbase | hbase
  · rw [hbase]
    exact .refused
  · by_cases hfree : kb.builtin.contains c.signature = true
    · rw [insertUser, if_pos hfree]
      exact .refused
    · rw [hbase]
      exact .user rfl hc (by simpa using hfree)

/-- Inserting one for the library changes nothing else. -/
theorem insertBuiltin_changes (kb : KnowledgeBase) {c : Clause} (hc : c.Furnished) :
    Changes .builtin kb (kb.insertBuiltin c.signature (some c)).base := by
  rcases kb.insertBuiltin_base c with hbase | hbase
  · rw [hbase]
    exact .refused
  · rw [hbase]
    exact .builtin rfl hc

/-- Setting a question changes the base as inserting does. -/
theorem setQuery_changes (kb : KnowledgeBase) {q : Clause} (hq : q.Furnished) :
    Changes d kb (kb.setQuery (some q)).2 := by
  unfold setQuery
  simp only
  split
  · exact .refused
  · exact .posed hq

end KnowledgeBase

/-! ## §3. What a session goes through. -/

/-- A compiler has made the clause of a question. -/
def Clause.OfQuestion (q : Clause) : Prop := ∃ (c : Compiler) (t : Term), (c.query t).1 = .ok q

/-- The clause of a question is furnished. -/
theorem Clause.OfQuestion.furnished {q : Clause} : q.OfQuestion → q.Furnished :=
  fun ⟨_, _, h⟩ => Compiler.query_furnished h

namespace Session

variable {s s' s'' : Session} {d : Destination}

/-- What a session goes through while clauses are put into `d` and questions are asked. -/
structure Loads (d : Destination) (s s' : Session) : Prop where
  /-- The native predicates are the same. -/
  natives : s'.natives = s.natives
  /-- So is the cache. -/
  cache : s'.cache = s.cache
  /-- The knowledge base changes step by step. -/
  changes : ReflTransGen (KnowledgeBase.Changes d) s.base s'.base

namespace Loads

protected theorem refl (s : Session) : Loads d s s := ⟨rfl, rfl, .refl⟩

protected theorem trans (h : Loads d s s') (h' : Loads d s' s'') : Loads d s s'' :=
  ⟨h'.natives.trans h.natives, h'.cache.trans h.cache, h.changes.trans h'.changes⟩

/-- A single change of the base. -/
theorem single {kb : KnowledgeBase} (h : KnowledgeBase.Changes d s.base kb) {c : Compiler}
    {t : Transcript} :
    Loads d s { s with base := kb, compiler := c, transcript := t } := ⟨rfl, rfl, .single h⟩

end Loads

/-- Compiling leaves the knowledge base alone. -/
theorem compileWith_cases (f : Compiler → Except CompileError Clause × Compiler) (s : Session) :
    (∃ e s', s.compileWith f = (.error e, s') ∧ Loads d s s') ∨
      ∃ q s', s.compileWith f = (.ok q, s') ∧ (f s.compiler).1 = .ok q ∧ Loads d s s' := by
  rcases h : f s.compiler with ⟨e | q, a⟩
  · exact .inl ⟨_, _, compileWith_error f h, .single .refused⟩
  · exact .inr ⟨q, _, compileWith_ok f h, rfl, .single .refused⟩

/-- Asking a question is a load. -/
theorem solutions_loads (s : Session) {q : Clause} (hq : q.Furnished) :
    Loads d s (s.solutions q).2 := by
  have hchanges := s.base.setQuery_changes (d := d) hq
  unfold Session.solutions Machine.ask
  rcases hset : s.base.setQuery (some q) with ⟨_ | e, kb⟩ <;> rw [hset] at hchanges <;>
    exact .single hchanges

/-- Inserting a clause is one. -/
theorem insert_loads (s : Session) (d : Destination) {c : Clause} (hc : c.Furnished) :
    Loads d s (s.insert d c).2 := by
  cases d with
  | user =>
    obtain ⟨t, ht⟩ := exists_foldl_logDebug (s.base.insertUser c.signature (some c)).log
      { s with base := (s.base.insertUser c.signature (some c)).base }
    simp only [Session.insert, ht]
    exact .single (s.base.insertUser_changes hc)
  | builtin =>
    obtain ⟨t, ht⟩ := exists_foldl_logDebug (s.base.insertBuiltin c.signature (some c)).log
      { s with base := (s.base.insertBuiltin c.signature (some c)).base }
    simp only [Session.insert, ht]
    exact .single (s.base.insertBuiltin_changes hc)

/-- Running a directive is one. -/
theorem runDirective_loads (s : Session) (goal : Term) : Loads d s (s.runDirective goal).2 := by
  unfold Session.runDirective
  rcases compileWith_cases (d := d) (·.query goal) s with
    ⟨e, s₁, hcompile, hloads⟩ | ⟨q, s₁, hcompile, hq, hloads⟩ <;> rw [hcompile]
  · exact hloads
  · have hasked := hloads.trans (s₁.solutions_loads (Compiler.query_furnished hq))
    rcases hsolutions : s₁.solutions q with ⟨e | sols, s₂⟩ <;> rw [hsolutions] at hasked
    · simpa only [hsolutions] using hasked
    · simp only [hsolutions]
      split
      · exact hasked.trans (.single .refused)
      · split <;> exact hasked.trans (.single .refused)

/-- **One clause or directive of a program.** -/
theorem loadTerm_loads (s : Session) (d : Destination) (t : Term) :
    Loads d s (s.loadTerm d t).2 := by
  unfold Session.loadTerm
  split
  · exact s.runDirective_loads _
  · rcases compileWith_cases (d := d) (·.clause t) s with
      ⟨e, s₁, hcompile, hloads⟩ | ⟨c, s₁, hcompile, hc, hloads⟩ <;> rw [hcompile]
    · exact hloads
    · exact hloads.trans (s₁.insert_loads d (Compiler.clause_furnished hc))

/-- Loading the clauses of a program is one. -/
theorem loadTerms_loads (d : Destination) : ∀ (ts : List Term) (s : Session),
    Loads d s (Session.loadTerms d ts s).2
  | [], s => .refl s
  | t :: ts, s => by
    have hterm := s.loadTerm_loads d t
    unfold Session.loadTerms
    rcases hload : s.loadTerm d t with ⟨_ | e, s₁⟩ <;> rw [hload] at hterm
    · exact hterm.trans (loadTerms_loads d ts s₁)
    · exact hterm

/-- **A program, which may be loaded halfway.** -/
theorem load_loads (s : Session) (d : Destination) (source : String) :
    Loads d s (s.load d source).2 := by
  cases hread : readProgram {} source 0 with
  | error e =>
    rw [load_error hread]
    exact .refl s
  | ok ts =>
    rw [load_ok hread]
    exact loadTerms_loads d ts s

/-- Loading the libraries is one. -/
theorem loadLibraries_loads : ∀ (ls : List Library) (s : Session),
    Loads .builtin s (Session.loadLibraries ls s).2
  | [], s => .refl s
  | l :: ls, s => by
    have hlibrary := s.load_loads .builtin l.source
    unfold Session.loadLibraries
    rcases hload : s.load .builtin l.source with ⟨_ | e, s₁⟩ <;> rw [hload] at hlibrary
    · exact hlibrary.trans (loadLibraries_loads ls s₁)
    · exact hlibrary

/-! ## §4. Questions and the cache. -/

/-- The cache keeps questions only. -/
def KeepsQuestions (cache : Option (RecencyCache Clause)) : Prop :=
  ∀ x, cache = some x → ∀ y ∈ x.table, y.2.OfQuestion

/-- What a session goes through when a question is compiled or found. -/
structure Asks (s s' : Session) : Prop where
  /-- The native predicates are the same. -/
  natives : s'.natives = s.natives
  /-- The knowledge base changes step by step. -/
  changes : ReflTransGen (KnowledgeBase.Changes .user) s.base s'.base
  /-- The cache goes on to keep questions. -/
  cache : KeepsQuestions s.cache → KeepsQuestions s'.cache

/-- A load for the user is asking, as far as the cache is concerned. -/
theorem Loads.asks (h : Loads .user s s') : Asks s s' :=
  ⟨h.natives, h.changes, fun hs => h.cache ▸ hs⟩

theorem Asks.trans (h : Asks s s') (h' : Asks s' s'') : Asks s s'' :=
  ⟨h'.natives.trans h.natives, h.changes.trans h'.changes, h'.cache ∘ h.cache⟩

/-- A question is refused or compiled. -/
theorem compileQuestion_cases (question : String) (s : Session) :
    (∃ e s', compileQuestion question s = (.error e, s') ∧ Loads .user s s') ∨
      ∃ q s', compileQuestion question s = (.ok q, s') ∧ q.OfQuestion ∧ Loads .user s s' := by
  cases hread : readClause {} question 0 with
  | error e => exact .inl ⟨_, s, compileQuestion_error hread, .refl s⟩
  | ok t =>
    rw [compileQuestion_ok hread]
    rcases compileWith_cases (d := .user) (·.query t) s with
      ⟨e, s₁, hcompile, hloads⟩ | ⟨q, s₁, hcompile, hq, hloads⟩
    · exact .inl ⟨e, s₁, hcompile, hloads⟩
    · exact .inr ⟨q, s₁, hcompile, ⟨s.compiler, t, hq⟩, hloads⟩

/-- A question that is compiled or found in the cache was compiled once. -/
theorem compiledQuestion_asks (s : Session) (question : String) (hs : KeepsQuestions s.cache) :
    Asks s (s.compiledQuestion question).2 ∧
      ∀ q, (s.compiledQuestion question).1 = .ok q → q.OfQuestion := by
  have hcases := compileQuestion_cases question s
  unfold compiledQuestion
  -- Without a cache every question is compiled; with one it is found there or compiled and put there.
  cases hcache : s.cache with
  | none =>
    rcases hcases with ⟨e, s₁, hq, hloads⟩ | ⟨q, s₁, hq, hof, hloads⟩ <;> rw [hq]
    · exact ⟨hloads.asks, nofun⟩
    · refine ⟨hloads.asks, fun q' hq' => ?_⟩
      obtain rfl := Except.ok.inj hq'
      exact hof
  | some cache =>
    have hold : ∀ y ∈ (cache.get question).2.table, y.2.OfQuestion := fun y hy =>
      hs cache hcache y (RecencyCache.table_get cache question ▸ hy)
    have hkeeps : KeepsQuestions (some (cache.get question).2) := fun x hx => by
      obtain rfl := Option.some.inj hx
      exact hold
    have hfound := cache.get_fst question
    unfold RecencyCache.getOrMake
    rcases hget : cache.get question with ⟨_ | q, x⟩ <;> rw [hget] at hold hkeeps hfound <;>
      simp only [hget]
    · rcases hcases with ⟨e, s₁, hq, hloads⟩ | ⟨q, s₁, hq, hof, hloads⟩ <;> rw [hq] <;> simp only
      · exact ⟨⟨hloads.natives, hloads.changes, fun _ => hkeeps⟩, nofun⟩
      · refine ⟨⟨hloads.natives, hloads.changes, fun _ x' hx' y hy => ?_⟩, fun q' hq' => ?_⟩
        · obtain rfl := Option.some.inj hx'
          rcases RecencyCache.mem_table_set hy with rfl | hy
          · exact hof
          · exact hold y hy
        · obtain rfl := Except.ok.inj hq'
          exact hof
    -- A question that is found was compiled earlier, and nothing changes.
    · refine ⟨⟨rfl, .refl, fun _ => hkeeps⟩, fun q' hq' => ?_⟩
      obtain rfl := Except.ok.inj hq'
      exact hs cache hcache _ (RecencyCache.mem_table_of_value? hfound.symm)

/-- **A question.** -/
theorem query_asks (s : Session) (source : String) (hs : KeepsQuestions s.cache) :
    Asks s (s.query source).2 := by
  obtain ⟨hasks, hof⟩ := s.compiledQuestion_asks (questionText source) hs
  unfold Session.query
  rcases hcompiled : s.compiledQuestion (questionText source) with ⟨e | q, s₁⟩ <;>
    rw [hcompiled] at hasks hof
  · exact hasks
  · exact hasks.trans (s₁.solutions_loads (hof q rfl).furnished).asks

end Session

/-! ## §5. Opening. -/

/-- The cache that a session is given keeps questions only. -/
def SessionOptions.KeepsQuestions (o : SessionOptions) : Prop :=
  ∀ c, o.caching = .given c → ∀ y ∈ c.table, y.2.OfQuestion

/-- Every native predicate can be stored. -/
def Registry.Named (r : Registry) : Prop := ∀ b ∈ r.builtins, b.name ≠ "" ∧ 0 ≤ b.arity

theorem Registry.registerAll_named {bs : List Builtin} : ∀ {r r' : Registry},
    r.Named → r.registerAll bs = .ok r' → r'.Named := by
  induction bs with
  | nil =>
    intro r r' hr h
    obtain rfl := Except.ok.inj h
    exact hr
  | cons b bs ih =>
    intro r r' hr h
    unfold registerAll at h
    split at h
    · cases h
    next r₁ hregister =>
    refine ih ?_ h
    unfold register at hregister
    split at hregister
    · cases hregister
    next hnamed =>
    split at hregister
    · cases hregister
    obtain rfl := Except.ok.inj hregister
    intro b' hb'
    rcases List.mem_append.1 hb' with hb' | hb'
    · exact hr b' hb'
    -- What is registered was checked: it has a name and no negative number of arguments.
    · obtain rfl := List.mem_singleton.1 hb'
      simp only [Bool.or_eq_true, decide_eq_true_eq, not_or] at hnamed
      exact ⟨hnamed.1.1, by omega⟩

namespace KnowledgeBase

variable {kb : KnowledgeBase} {g : Signature}

/-- What is done for one native predicate. -/
theorem insertNative_changes (kb : KnowledgeBase) (b : Builtin) : Changes .builtin kb
    (kb.insertBuiltin b.signature (some ⟨b.signature, [], true, []⟩)).base :=
  kb.insertBuiltin_changes (c := ⟨b.signature, [], true, []⟩)
    (by simp [Clause.Furnished, Clause.descendants_mk, Clause.descendantsOf])

/-- A native predicate is found once it was inserted. -/
theorem contains_insertNative {b : Builtin} (hb : b.name ≠ "" ∧ 0 ≤ b.arity) :
    (kb.insertBuiltin b.signature
      (some ⟨b.signature, [], true, []⟩)).base.builtin.contains b.signature = true := by
  have hinsert : kb.builtin.insert b.signature (some ⟨b.signature, [], true, []⟩) =
      .ok (kb.builtin.put b.signature
        (kb.builtin.clauses b.signature ++ [⟨b.signature, [], true, []⟩])) := by
    have harity : ¬ b.arity < 0 := by omega
    simp [ClauseStore.insert, Builtin.signature, hb.1, harity]
  unfold insertBuiltin
  rw [hinsert]
  simp [Clause.descendants_mk, Clause.descendantsOf, replaceAll, contains_iff, clauses_put]

/-- **Every native predicate is builtin.** -/
theorem contains_installNatives {r : Registry} (hr : r.Named) {b : Builtin}
    (hb : b ∈ r.builtins) : (kb.installNatives r).1.builtin.contains b.signature = true := by
  have hmem : b ∈ r.sorted := by simpa [Registry.sorted] using hb
  obtain ⟨before, after, hsplit⟩ := List.append_of_mem hmem
  unfold installNatives
  rw [hsplit, List.foldl_append, List.foldl_cons]
  refine List.foldlRecOn (motive := fun acc : KnowledgeBase × List LogEntry =>
    acc.1.builtin.contains b.signature = true) _ _ ?_ fun acc hacc b' hb' => ?_
  · split
    next kb' log _ =>
    split
    · assumption
    · exact contains_insertNative (hr b hb)
  · obtain ⟨kb', log⟩ := acc
    simp only
    split
    · exact hacc
    · exact (insertNative_changes kb' b').contains_builtin hacc

end KnowledgeBase

namespace Session

variable {s s₀ : Session} {options : SessionOptions}

/-- **An opened session guards its builtin predicates.** -/
theorem start_guarded (h : start options = (none, s)) : s.base.Guarded ∧
    (∀ b ∈ s.natives.builtins, s.base.builtin.contains b.signature = true) ∧
    s.cache = startCache options.caching := by
  unfold start at h
  simp only at h
  split at h
  · cases h
  next natives hregister =>
  have hnamed : natives.Named :=
    Registry.registerAll_named (r := Registry.core) (by unfold Registry.Named; decide) hregister
  let blank : Session :=
    { options, natives, base := (({} : KnowledgeBase).installNatives natives).1, transcript := {}
      cache := startCache options.caching
      compiler := { id := options.id, natives := natives.signatures } }
  -- The complaints about the natives are in the transcript; they are not part of the base.
  obtain ⟨t, ht⟩ := exists_foldl_logDebug (({} : KnowledgeBase).installNatives natives).2 blank
  have hloads := loadLibraries_loads options.libraries { blank with transcript := t }
  rw [← ht] at hloads
  have hs : _ = s := congrArg Prod.snd h
  rw [hs, ht] at hloads
  have hblank : ∀ g, blank.base.user.contains g = true → Reserved g := by
    intro g hg
    rw [show blank.base.user = {} from KnowledgeBase.installNatives_user _ _] at hg
    cases hg
  obtain ⟨huser, hbuiltin⟩ := KnowledgeBase.reserved_of_changes hloads.changes hblank
  refine ⟨fun g hg _ => huser g hg, fun b hb => ?_, hloads.cache⟩
  rw [hloads.natives] at hb
  exact hbuiltin _ (KnowledgeBase.contains_installNatives hnamed hb)

/-- An own cache starts empty, and so does one that is handed over in order. -/
theorem startCache_keepsQuestions (h : options.KeepsQuestions) :
    KeepsQuestions (startCache options.caching) := by
  intro x hx y hy
  cases hcaching : options.caching with
  | off => rw [hcaching] at hx; cases hx
  | sized n =>
    rw [hcaching] at hx
    obtain rfl := Option.some.inj hx
    cases hy
  | given c =>
    rw [hcaching] at hx
    obtain rfl := Option.some.inj hx
    exact h c hcaching y hy

/-! ## §6. All sessions. -/

/-- What becomes of a session.  Loading and asking may succeed or fail, and loading may stop behind
    any clause or directive; other sessions may share the cache. -/
inductive Later (s₀ : Session) : Session → Prop where
  /-- It is opened. -/
  | opened : Later s₀ s₀
  /-- A program is consulted. -/
  | consulted {s : Session} (h : Later s₀ s) (source : String) : Later s₀ (s.consult source).2
  /-- A question is asked. -/
  | asked {s : Session} (h : Later s₀ s) (source : String) : Later s₀ (s.query source).2
  /-- One clause or directive of a program is loaded. -/
  | loaded {s : Session} (h : Later s₀ s) (t : Term) : Later s₀ (s.loadTerm .user t).2
  /-- A question is about to be searched for solutions, as in the middle of a directive. -/
  | posed {s : Session} (h : Later s₀ s) {q : Clause} (hq : q.OfQuestion) :
    Later s₀ (s.solutions q).2
  /-- Something is written. -/
  | written {s : Session} (h : Later s₀ s) (t : Transcript) : Later s₀ { s with transcript := t }
  /-- Another session uses the cache. -/
  | shared {s : Session} (h : Later s₀ s) {x : RecencyCache Clause}
    (hx : ∀ y ∈ x.table, y.2.OfQuestion) : Later s₀ { s with cache := some x }

/-- What all of it comes to. -/
theorem Later.asks (h : Later s₀ s) (hs₀ : KeepsQuestions s₀.cache) : Asks s₀ s := by
  induction h with
  | opened => exact (Loads.refl s₀).asks
  | consulted _ source ih => exact ih.trans (load_loads _ .user source).asks
  | asked _ source ih => exact ih.trans (query_asks _ source (ih.cache hs₀))
  | loaded _ t ih => exact ih.trans (loadTerm_loads _ .user t).asks
  | posed _ hq ih => exact ih.trans (solutions_loads _ hq.furnished).asks
  | written _ t ih => exact ih.trans (Loads.single .refused).asks
  | shared _ hx ih =>
    refine ⟨ih.natives, ih.changes, fun _ x' hx' => ?_⟩
    obtain rfl := Option.some.inj hx'
    exact hx

/-- **BUILTIN PREDICATES CANNOT BE REDEFINED.**  Whatever becomes of an opened session, its builtin
    clauses stay as they are, the user defines no builtin predicate but those left to the system,
    every call of a native predicate or one of a library finds the builtin clauses, and an insertion that
    is refused leaves the knowledge base as it was.  The last holds of a missing clause, and of each one
    whose auxiliary clauses have names and no negative arities, as those of compiled clauses do. -/
theorem Later.builtins_kept (hoptions : options.KeepsQuestions)
    (hstart : start options = (none, s₀)) (h : Later s₀ s) :
    s.base.builtin = s₀.base.builtin ∧
    (∀ g, s.base.user.contains g = true → s.base.builtin.contains g = true → Reserved g) ∧
    (∀ b ∈ s.natives.builtins, s.base.builtin.contains b.signature = true) ∧
    (∀ g, s.base.builtin.contains g = true → ¬ Reserved g →
      s.world.base.get g = .ok (s₀.base.builtin.clauses g)) ∧
    (∀ clause : Option Clause, (∀ c ∈ clause, ClauseStore.Storable c.descendants) →
      ∀ g, (s.base.insertUser g clause).error ≠ none → (s.base.insertUser g clause).base = s.base) ∧
    ∀ (c : Compiler) (t : Term) (q : Clause), (c.clause t).1 = .ok q →
      ClauseStore.Storable q.descendants := by
  obtain ⟨hguarded, hnatives, hcache⟩ := start_guarded hstart
  have hasks := h.asks (hcache ▸ startCache_keepsQuestions hoptions)
  obtain ⟨hbuiltin, hsguarded⟩ := KnowledgeBase.guarded_of_changes hasks.changes hguarded
  refine ⟨hbuiltin, hsguarded, fun b hb => ?_, fun g hg hr => ?_,
    fun clause hstorable g hrefused => KnowledgeBase.insertUser_refused hstorable hrefused,
    fun c t q hq => (Compiler.clause_furnished hq).storable⟩
  · rw [hasks.natives] at hb
    rw [hbuiltin]
    exact hnatives b hb
  · rw [← hbuiltin]
    exact hsguarded.get hg hr

/-- A library that runs a directive. -/
def ready : List Library := [⟨"ready", ":- true."⟩]

/-- There is a session to speak of. -/
theorem exists_started : ∃ s, start { patience := 100, libraries := ready } = (none, s) ∧
    s.natives = Registry.core := by
  have hready (s : Session) (hpatience : s.options.patience = 100)
      (hsteps : s.options.maxSteps = 0) : (loadLibraries ready s).1 = none := by
    obtain ⟨⟨debug, maxSteps, unknownFails, libraries, added, caching, id, patience⟩, natives, base,
      compiler, cache, transcript⟩ := s
    obtain rfl : patience = 100 := hpatience
    obtain rfl : maxSteps = 0 := hsteps
    with_unfolding_all rfl
  let blank : Session :=
    { options := { patience := 100, libraries := ready }, natives := Registry.core
      base := (({} : KnowledgeBase).installNatives Registry.core).1, transcript := {}, cache := none
      compiler := { natives := Registry.core.signatures } }
  obtain ⟨t, ht⟩ :=
    exists_foldl_logDebug (({} : KnowledgeBase).installNatives Registry.core).2 blank
  have hstart : start { patience := 100, libraries := ready } =
      loadLibraries ready { blank with transcript := t } := congrArg (loadLibraries ready) ht
  rw [hstart]
  exact ⟨_, Prod.ext (hready _ rfl rfl) rfl, (loadLibraries_loads ready _).natives⟩

/-- A program that defines a builtin predicate is refused. -/
theorem consult_nl (h : s.base.builtin.contains ⟨"nl", 0⟩ = true) :
    (s.consult "nl.").1 = some (.storing (.redefinesBuiltin ⟨"nl", 0⟩)) := by
  have hread : readProgram {} "nl." 0 = .ok [.const (.atom "nl") 0] := by with_unfolding_all rfl
  simp only [Session.consult, Session.load_ok hread, Session.loadTerms, Session.loadTerm]
  rcases compileWith_cases (d := .user) (·.clause (.const (.atom "nl") 0)) s with
    ⟨e, s₁, hcompile, hloads⟩ | ⟨c, s₁, hcompile, hc, hloads⟩
  · simp [compileWith, Compiler.clause, splitClause, headOf] at hcompile
  · obtain rfl := Except.ok.inj hc
    have hbase : s.base = s₁.base := congrArg (fun r => r.2.base) hcompile
    rw [hcompile]
    simp only [Session.insert, KnowledgeBase.insertUser]
    rw [if_pos (by rw [← hbase]; exact h)]
    rfl

/-- A session with a library is asked to take a clause for a native predicate. -/
theorem builtins_kept_nl : ∃ s₀ s, start { patience := 100, libraries := ready } = (none, s₀) ∧
    Later s₀ s ∧ s = (s₀.consult "nl.").2 ∧
    (s₀.consult "nl.").1 = some (.storing (.redefinesBuiltin ⟨"nl", 0⟩)) ∧
    s.base.builtin = s₀.base.builtin ∧ s.base.builtin.contains ⟨"nl", 0⟩ = true ∧
    s.world.base.get ⟨"nl", 0⟩ = .ok (s₀.base.builtin.clauses ⟨"nl", 0⟩) := by
  obtain ⟨s₀, hstart, hnatives⟩ := exists_started
  have hoptions : SessionOptions.KeepsQuestions { patience := 100, libraries := ready } := nofun
  have hnl : ⟨"nl", 0, some newlineNative⟩ ∈ s₀.natives.builtins := by
    rw [hnatives]
    simp [Registry.core, coreBuiltins]
  have hreserved : ¬ Reserved ⟨"nl", 0⟩ := by
    simp [Reserved, querySignature, queryFunctor, isAuxiliary, auxiliaryLead]
  have hlater : Later s₀ (s₀.consult "nl.").2 := Later.opened.consulted "nl."
  obtain ⟨-, -, hbuiltin₀, -, -⟩ := Later.builtins_kept hoptions hstart .opened
  obtain ⟨heq, -, -, hcalls, -⟩ := Later.builtins_kept hoptions hstart hlater
  have hcontains₀ : s₀.base.builtin.contains ⟨"nl", 0⟩ = true :=
    hbuiltin₀ ⟨"nl", 0, some newlineNative⟩ hnl
  have hcontains : (s₀.consult "nl.").2.base.builtin.contains ⟨"nl", 0⟩ = true := heq ▸ hcontains₀
  exact ⟨s₀, _, hstart, hlater, rfl, consult_nl hcontains₀, heq, hcontains,
    hcalls _ hcontains hreserved⟩

/-- **CLAUSES ARE PUT BEHIND THOSE OF THEIR PREDICATES.**  No clause is ever replaced or removed but
    the question and clauses whose predicates are named by numbers. -/
theorem Later.appends (hs₀ : KeepsQuestions s₀.cache) (h : Later s₀ s) {g : Signature}
    (hquery : g ≠ querySignature) (hg : ∀ n, g.name ≠ auxiliaryName n) :
    s₀.base.user.clauses g <+: s.base.user.clauses g :=
  (KnowledgeBase.prefix_of_changes (h.asks hs₀).changes hquery hg).1

end Session

end PrologMachine
