/-
  PrologMachine.Proofs.Session.Upkeep ── **SESSIONS STAY IN ORDER.**

  Whatever a session loads and is asked, it stays in order: clauses are put behind those of their
  predicates, a question and its auxiliary clauses take the places of nothing but the last question
  and themselves, and the cache keeps the code of questions under their texts.

    * `InOrder.loadTerms`: loading clauses and running directives.
    * `Asked`: what comes of a question; `InOrder.query`.
    * `Session.Reachable`: the sessions of all programs and questions; `Reachable.exists_inOrder`.
-/
import PrologMachine.Proofs.RecencyCache
import PrologMachine.Proofs.Session.Ledger

namespace PrologMachine

open ClauseStore Compiler

/-! ## §1. Clauses. -/

/-- The clause names no reserved predicate. -/
structure Term.OrdinaryClause (t : Term) : Prop where
  /-- It calls none. -/
  goals : Ordinary t.clauseGoals
  /-- It belongs to none. -/
  head : ∀ head rule name args, splitClause t = .ok (head, rule) → headOf head = .ok (name, args) →
    ¬ Reserved ⟨name, args.length⟩

/-- The clause or directive names no reserved predicate. -/
def Term.OrdinaryEntry : Term → Prop
  | .app "query" [goal] _ _ => Ordinary goal.queryGoals
  | t => t.OrdinaryClause

namespace Compiler

variable {c c' a : Compiler} {t : Term} {q : Clause}

/-- An ordinary clause is compiled alike. -/
theorem clause_alike_of_ordinary (hc : c.Akin c') (ht : t.Proper) (h : t.OrdinaryClause) :
    CompileAlike c c' (c.clause t) (c'.clause t) :=
  clause_alike hc ht h.goals.unreserved fun head rule name args hs hn => by
    simpa using fun hr => h.head head rule name args hs hn (.inr hr)

/-- **What the compiler makes of a clause.** -/
theorem clause_made (hc : c.Akin c) (ht : t.Proper) (hordinary : t.OrdinaryClause)
    (h : c.clause t = (.ok q, a)) :
    Made c q a ∧ q.Compiled notQuery ∧ ¬ Reserved q.signature ∧ c.Akin a := by
  have hfst : (c.clause t).1 = .ok q := congrArg Prod.fst h
  obtain ⟨hcompiled, hparts⟩ := clause_compiled ht hordinary.goals.admissible hfst
  obtain ⟨as, k, q', rfl, hr, hcounter⟩ :=
    (clause_alike_of_ordinary hc ht hordinary).of_ok h
  obtain ⟨hq, -⟩ := Prod.mk.inj (h.symm.trans hr)
  obtain rfl := Except.ok.inj hq
  refine ⟨made_of_counterparts hcounter hparts, hcompiled, ?_, hc.after _ _⟩
  obtain ⟨head, rule, name, args, hsplit, hname, hsig⟩ := clause_signature hfst
  exact hsig ▸ hordinary.head head rule name args hsplit hname

end Compiler

/-! ## §2. Inserting clauses. -/

/-- The store with one more clause and its auxiliary clauses. -/
def ClauseStore.extend (db : ClauseStore) (c : Clause) : ClauseStore :=
  db.install c.signature (db.clauses c.signature ++ [c]) c.descendants

/-- **A clause of the user is refused or put behind the others.** -/
theorem KnowledgeBase.insertUser_base (kb : KnowledgeBase) (c : Clause) :
    (kb.insertUser c.signature (some c)).base = kb ∨
      (kb.insertUser c.signature (some c)).base = { kb with user := kb.user.extend c } := by
  unfold insertUser
  split
  · exact .inl rfl
  split
  · exact .inl rfl
  · next db h =>
    obtain rfl := ClauseStore.insert_ok h
    exact .inr rfl

/-- Inserting into the library changes the base as an installation, or not at all. -/
theorem KnowledgeBase.insertBuiltin_base (kb : KnowledgeBase) (c : Clause) :
    (kb.insertBuiltin c.signature (some c)).base = kb ∨
      (kb.insertBuiltin c.signature (some c)).base =
        { kb with builtin := kb.builtin.extend c } := by
  unfold insertBuiltin
  split
  · exact .inl rfl
  · next db h =>
    obtain rfl := ClauseStore.insert_ok h
    exact .inr rfl

variable {I : Set Issue} {s : Session} {b a limit : Compiler} {q c : Clause} {db : ClauseStore}
  {t : Term} {e : Issue}

/-- A store stays filed with one more clause of a predicate that is not reserved. -/
theorem ClauseStore.Filed.extend (h : db.Filed I limit) (hmade : Made b c a)
    (hcompiled : c.Compiled notQuery) (hlimit : a ≤ limit) (hI : ∀ e ∈ I, e.after ≤ b) :
    (db.extend c).Filed I limit := by
  refine h.install hmade hlimit (fun hsig c' hc' => ?_) fun e he => .inr (.inl (hI e he))
  rcases List.mem_append.1 hc' with hc' | hc'
  · exact h _ hsig c' hc'
  · obtain rfl := List.mem_singleton.1 hc'
    exact .compiled hcompiled hmade.between hlimit fun e he => .inr (.inl (hI e he))

/-- It keeps the auxiliary clauses of questions that were issued before. -/
theorem clauses_extend (hmade : Made b c a) (hreserved : ¬ Reserved c.signature)
    (hI : e.after ≤ b) {d : Clause} (hd : d ∈ e.clause.descendants) :
    (db.extend c).clauses d.signature = db.clauses d.signature := by
  refine clauses_install_of_ne (fun heq => hreserved (.inr ?_)) fun d' hd' heq => ?_
  · exact heq ▸ e.made.reserved hd
  · exact e.made.signature_ne hmade hI hd hd' heq.symm

namespace Session

/-- Logging changes the transcript. -/
theorem exists_foldl_logDebug (log : List LogEntry) (s : Session) :
    ∃ t, log.foldl logDebug s = { s with transcript := t } := by
  induction log generalizing s with
  | nil => exact ⟨s.transcript, rfl⟩
  | cons x log ih => exact ih (s.logDebug x)

section

variable (compile : Compiler → Except CompileError Clause × Compiler) {err : CompileError}

/-- A term that is refused is reported. -/
theorem compileWith_error (h : compile s.compiler = (.error err, a)) :
    s.compileWith compile = (.error (.compiling err), { s with compiler := a }) := by
  simp only [compileWith, h]

/-- A term that is compiled counts on. -/
theorem compileWith_ok (h : compile s.compiler = (.ok q, a)) : s.compileWith compile =
    (.ok q, { s with
      compiler := a, transcript := s.transcript.logIf s.options.debug (.compiled q) }) := by
  simp only [compileWith, h]
  rfl

/-- The search for the answers of an issued question. -/
theorem solutions_issue (e : Issue) (s : Session) : s.solutions e.clause =
    (.ok { machine := ({} : Machine).posed e.clause },
      { s with base := s.base.posed e.clause }) := by
  simp only [solutions, e.ask]

end

/-- A program that cannot be read loads nothing. -/
theorem load_error {d : Destination} {source : String} {err : SyntaxError}
    (hread : readProgram {} source 0 = .error err) :
    s.load d source = (some (.reading err), s) := by
  unfold load
  rw [hread]

/-- A program that can be read loads its terms. -/
theorem load_ok {d : Destination} {source : String} {ts : List Term}
    (hread : readProgram {} source 0 = .ok ts) : s.load d source = loadTerms d ts s := by
  unfold load
  rw [hread]

/-- A question that cannot be read is refused. -/
theorem compileQuestion_error {question : String} {err : SyntaxError}
    (hread : readClause {} question 0 = .error err) :
    compileQuestion question s = (.error (.reading err), s) := by
  unfold compileQuestion
  rw [hread]

/-- A question that can be read is compiled. -/
theorem compileQuestion_ok {question : String} {t : Term}
    (hread : readClause {} question 0 = .ok t) :
    compileQuestion question s = s.compileWith (·.query t) := by
  unfold compileQuestion
  rw [hread]

namespace InOrder

/-- **A clause is inserted.** -/
theorem inserted (h : s.InOrder I) (hmade : Made b c a) (hcompiled : c.Compiled notQuery)
    (hreserved : ¬ Reserved c.signature) (hlimit : a ≤ s.compiler) (hI : ∀ e ∈ I, e.after ≤ b)
    (d : Destination) : (s.insert d c).2.InOrder I := by
  cases d with
  | user =>
    simp only [Session.insert]
    obtain ⟨t, ht⟩ := exists_foldl_logDebug (s.base.insertUser c.signature (some c)).log
      { s with base := (s.base.insertUser c.signature (some c)).base }
    rw [ht]
    -- The clause is refused, and then nothing changes, or it is added behind the others.
    rcases s.base.insertUser_base c with hbase | hbase <;> rw [hbase]
    · exact h.transcript t
    · exact
        { h with
          installed := fun e he d hd =>
            (clauses_extend hmade hreserved (hI e he) hd).trans (h.installed e he d hd)
          user := h.user.extend hmade hcompiled hlimit hI }
  | builtin =>
    simp only [Session.insert]
    obtain ⟨t, ht⟩ := exists_foldl_logDebug (s.base.insertBuiltin c.signature (some c)).log
      { s with base := (s.base.insertBuiltin c.signature (some c)).base }
    rw [ht]
    rcases s.base.insertBuiltin_base c with hbase | hbase <;> rw [hbase]
    · exact h.transcript t
    · exact { h with builtin := h.builtin.extend hmade hcompiled hlimit hI }


/-! ## §3. Programs. -/

/-- The compiler of a session is akin to itself. -/
theorem akin_self (h : s.InOrder I) : s.compiler.Akin s.compiler := ⟨rfl, rfl, h.unreserved⟩

/-- A directive is run. -/
theorem runDirective (h : s.InOrder I) (ht : t.Proper) (hgoals : Ordinary t.queryGoals) :
    ∃ I', (s.runDirective t).2.InOrder I' := by
  unfold Session.runDirective
  rcases hquery : s.compiler.query t with ⟨err | q, a⟩
  · rw [compileWith_error (·.query t) hquery]
    obtain ⟨hle, hakin⟩ :=
      (query_alike h.akin_self ht hgoals.unreserved).le_of_error h.akin_self hquery
    exact ⟨I, h.advance hakin hle h.cached s.transcript⟩
  · rw [compileWith_ok (·.query t) hquery]
    -- The directive is compiled as a question, with numbers of its own.
    let e : Issue := ⟨s.compiler, t, q, a, hquery, ht, hgoals, h.unreserved⟩
    have hposed := h.posed (e := e) h.akin_self (.inr le_rfl) e.akin_after e.made.le le_rfl
      (h.cached.mono Set.subset_union_left)
      (s.transcript.logIf s.options.debug (.compiled q))
    refine ⟨I ∪ {e}, ?_⟩
    simp only
    rw [show q = e.clause from rfl, solutions_issue e]
    simp only
    -- However the search ends, only the transcript tells.
    split
    · exact hposed.transcript _
    · split
      · exact hposed.transcript _
      · exact (hposed.transcript _).transcript _

/-- **A clause or directive is loaded.** -/
theorem loadTerm (h : s.InOrder I) (d : Destination) (ht : t.Proper) (hentry : t.OrdinaryEntry) :
    ∃ I', (s.loadTerm d t).2.InOrder I' := by
  unfold Session.loadTerm
  split
  · exact h.runDirective ht.2.1 hentry
  · next hnot =>
    -- The entry is no directive, so that it is an ordinary clause.
    have hclause : t.OrdinaryClause := by
      unfold Term.OrdinaryEntry at hentry
      split at hentry
      · exact (hnot _ _ _ rfl).elim
      · exact hentry
    rcases hcompile : s.compiler.clause t with ⟨err | c, a⟩
    · rw [compileWith_error (·.clause t) hcompile]
      obtain ⟨hle, hakin⟩ :=
        (clause_alike_of_ordinary h.akin_self ht hclause).le_of_error h.akin_self hcompile
      exact ⟨I, h.advance hakin hle h.cached s.transcript⟩
    · rw [compileWith_ok (·.clause t) hcompile]
      obtain ⟨hmade, hcompiled, hreserved, hakin⟩ := clause_made h.akin_self ht hclause hcompile
      have hadvance := h.advance hakin hmade.le h.cached
        (s.transcript.logIf s.options.debug (.compiled c))
      exact ⟨I, hadvance.inserted hmade hcompiled hreserved le_rfl h.issued d⟩

/-- **Clauses and directives are loaded up to the first error.** -/
theorem loadTerms (d : Destination) : ∀ {ts : List Term} {s : Session} {I : Set Issue},
    s.InOrder I → (∀ t ∈ ts, t.Proper ∧ t.OrdinaryEntry) →
      ∃ I', (Session.loadTerms d ts s).2.InOrder I'
  | [], s, I, h, _ => ⟨I, h⟩
  | t :: ts, s, I, h, hts => by
    obtain ⟨ht, hentry⟩ := hts t List.mem_cons_self
    obtain ⟨I', h'⟩ := h.loadTerm d ht hentry
    unfold Session.loadTerms
    rcases hload : s.loadTerm d t with ⟨_ | err, s'⟩ <;> rw [hload] at h'
    · exact loadTerms d h' fun t' ht' => hts t' (List.mem_cons_of_mem t ht')
    · exact ⟨I', h'⟩

end InOrder

/-- The clauses and directives of a program name no reserved predicate. -/
def OrdinaryProgram (source : String) : Prop :=
  ∀ ts, readProgram {} source 0 = .ok ts → ∀ t ∈ ts, t.OrdinaryEntry

/-- **A program is loaded.** -/
theorem InOrder.load (h : s.InOrder I) (d : Destination) {source : String}
    (hsource : OrdinaryProgram source) : ∃ I', (s.load d source).2.InOrder I' := by
  cases hread : readProgram {} source 0 with
  | error err => exact ⟨I, by rwa [load_error hread]⟩
  | ok ts =>
    rw [load_ok hread]
    exact InOrder.loadTerms d h fun t ht =>
      ⟨readProgram_proper hread t ht, hsource ts hread t ht⟩

/-- Loading ordinary libraries keeps a session in order. -/
theorem InOrder.loadLibraries : ∀ {ls : List Library} {s : Session} {I : Set Issue},
    s.InOrder I → (∀ l ∈ ls, OrdinaryProgram l.source) →
      ∃ I', (Session.loadLibraries ls s).2.InOrder I'
  | [], s, I, h, _ => ⟨I, h⟩
  | l :: ls, s, I, h, hls => by
    obtain ⟨I', h'⟩ := h.load .builtin (hls l List.mem_cons_self)
    unfold Session.loadLibraries
    rcases hload : s.load .builtin l.source with ⟨_ | err, s'⟩ <;> rw [hload] at h'
    · exact loadLibraries h' fun l' hl' => hls l' (List.mem_cons_of_mem l hl')
    · exact ⟨I', h'⟩

end Session

/-! ## §4. Opening. -/

/-- What a session is opened with: native predicates that depend on their arguments only, texts that
    name no reserved predicate, and a cache that no other session has filled. -/
structure SessionOptions.Ordinary (o : SessionOptions) : Prop where
  /-- The libraries. -/
  libraries : ∀ l ∈ o.libraries, Session.OrdinaryProgram l.source
  /-- The native predicates. -/
  natives : ∀ b ∈ o.natives, b.DependsOnArguments ∧ ¬ Reserved b.signature
  /-- The cache. -/
  caching : ∀ c, o.caching = .given c → c.table = []

theorem Registry.registerAll_builtins {bs : List Builtin} : ∀ {r r' : Registry},
    r.registerAll bs = .ok r' → ∀ b ∈ r'.builtins, b ∈ r.builtins ∨ b ∈ bs := by
  induction bs with
  | nil =>
    intro r r' h b hb
    obtain rfl := Except.ok.inj h
    exact .inl hb
  | cons b₀ bs ih =>
    intro r r' h b hb
    unfold registerAll at h
    split at h
    · cases h
    next r₁ hregister =>
    rcases ih h b hb with hmem | hmem
    -- The native that is registered now, or one that was registered before.
    · unfold register at hregister
      split at hregister
      · cases hregister
      split at hregister
      · cases hregister
      obtain rfl := Except.ok.inj hregister
      rcases List.mem_append.1 hmem with hmem | hmem
      · exact .inl hmem
      · obtain rfl := List.mem_singleton.1 hmem
        exact .inr List.mem_cons_self
    · exact .inr (List.mem_cons_of_mem b₀ hmem)

/-- Native clauses are builtin. -/
theorem KnowledgeBase.installNatives_user (kb : KnowledgeBase) (r : Registry) :
    (kb.installNatives r).1.user = kb.user := by
  refine List.foldlRecOn (motive := fun acc : KnowledgeBase × List LogEntry =>
    acc.1.user = kb.user) _ _ rfl fun acc hacc b hb => ?_
  obtain ⟨kb', log⟩ := acc
  simp only
  split
  · exact hacc
  · rcases kb'.insertBuiltin_base ⟨b.signature, [], true, []⟩ with hbase | hbase <;>
      simp only [hbase] <;> exact hacc

/-- **Native clauses are filed.** -/
theorem KnowledgeBase.installNatives_filed (limit : Compiler) (r : Registry) :
    (({} : KnowledgeBase).installNatives r).1.user.Filed I limit ∧
      (({} : KnowledgeBase).installNatives r).1.builtin.Filed I limit := by
  have hempty : ∀ g, ({} : ClauseStore).clauses g = [] := fun _ => rfl
  refine List.foldlRecOn (motive := fun acc : KnowledgeBase × List LogEntry =>
    acc.1.user.Filed I limit ∧ acc.1.builtin.Filed I limit) _ _ ?_ fun acc hacc b hb => ?_
  · exact ⟨fun g _ c hc => by simp [ClauseStore.clauses] at hc,
      fun g _ c hc => by simp [ClauseStore.clauses] at hc⟩
  obtain ⟨kb, log⟩ := acc
  obtain ⟨huser, hbuiltin⟩ := hacc
  simp only
  split
  · exact ⟨huser, hbuiltin⟩
  · rcases kb.insertBuiltin_base ⟨b.signature, [], true, []⟩ with hbase | hbase
    -- A native clause is filed under its own name.
    · simp only [hbase]
      exact ⟨huser, hbuiltin⟩
    · simp only [hbase]
      refine ⟨huser, fun g hg c hc => ?_⟩
      rcases mem_install hc with ⟨rfl, hmem⟩ | hmem | ⟨hmem, -⟩
      · rcases List.mem_append.1 hmem with hmem | hmem
        · exact hbuiltin _ hg c hmem
        · obtain rfl := List.mem_singleton.1 hmem
          exact .native rfl rfl
      · exact hbuiltin g hg c hmem
      · simp [Clause.descendants_mk, Clause.descendantsOf] at hmem

namespace Session

/-- **A session that was opened is in order.** -/
theorem exists_inOrder_start {options : SessionOptions} (hoptions : options.Ordinary)
    (h : start options = (none, s)) : ∃ I, s.InOrder I := by
  unfold start at h
  simp only at h
  split at h
  · cases h
  next natives hregister =>
  -- No native has a reserved name: the standard ones do not, and the others are checked by the options.
  have hcore : ∀ b ∈ coreBuiltins, isAuxiliary b.signature.name = false := by decide
  have hnatives : ∀ b ∈ natives.builtins,
      b.DependsOnArguments ∧ isAuxiliary b.signature.name = false := by
    intro b hb
    rcases Registry.registerAll_builtins hregister b hb with hb | hb
    · exact ⟨coreBuiltins_dependsOnArguments hb, hcore b hb⟩
    · obtain ⟨hdepends, hreserved⟩ := hoptions.natives b hb
      exact ⟨hdepends, by simpa using fun hr => hreserved (.inr hr)⟩
  -- A cache that is handed over is empty by the options, and any other starts empty.
  have hcached : Cached ∅ (startCache options.caching) := by
    intro x hx y hy
    cases hcaching : options.caching with
    | off => rw [hcaching] at hx; cases hx
    | sized n =>
      rw [hcaching] at hx
      obtain rfl := Option.some.inj hx
      cases hy
    | given c =>
      rw [hcaching] at hx
      obtain rfl := Option.some.inj hx
      rw [hoptions.caching c hcaching] at hy
      cases hy
  let blank : Session :=
    { options, natives, base := (({} : KnowledgeBase).installNatives natives).1, transcript := {}
      cache := startCache options.caching
      compiler := { id := options.id, natives := natives.signatures } }
  have hblank : blank.InOrder ∅ := by
    obtain ⟨huser, hbuiltin⟩ := KnowledgeBase.installNatives_filed (I := ∅) blank.compiler natives
    refine ⟨fun g hg => ?_, fun b hb => (hnatives b hb).1, nofun, nofun, nofun, nofun, huser,
      hbuiltin, hcached⟩
    obtain ⟨b, hb, rfl⟩ := List.mem_map.1 hg
    exact (hnatives b hb).2
  obtain ⟨t, ht⟩ := exists_foldl_logDebug (({} : KnowledgeBase).installNatives natives).2 blank
  obtain ⟨I, hI⟩ := (hblank.transcript t).loadLibraries hoptions.libraries
  rw [← ht] at hI
  have hs : _ = s := congrArg Prod.snd h
  exact ⟨I, hs ▸ hI⟩

/-! ## §5. Questions. -/

/-- The question names no reserved predicate. -/
def OrdinaryQuestion (source : String) : Prop :=
  ∀ t, readClause {} (questionText source) 0 = .ok t → Ordinary t.queryGoals

variable {question source : String}

/-- What comes of compiling a question, or of finding it in the cache. -/
inductive Compiles (I : Set Issue) (s : Session) (question : String) :
    Except Error Clause × Session → Prop where
  /-- Its code was made before, or is made now. -/
  | issued {e : Issue} (hread : readClause {} question 0 = .ok e.term)
    (hfrom : e.before.Akin s.compiler) (he : e ∈ I ∨ s.compiler ≤ e.before) {limit : Compiler}
    (hakin : s.compiler.Akin limit) (hle : s.compiler ≤ limit) (hafter : e.after ≤ limit)
    {cache : Option (RecencyCache Clause)} (hcache : Cached (I ∪ {e}) cache) (t : Transcript) :
    Compiles I s question
      (.ok e.clause, { s with compiler := limit, cache := cache, transcript := t })
  /-- It cannot be read. -/
  | unread {e : SyntaxError} (hread : readClause {} question 0 = .error e)
    {cache : Option (RecencyCache Clause)} (hcache : Cached I cache) :
    Compiles I s question (.error (.reading e), { s with cache := cache })
  /-- It is refused. -/
  | refused {t : Term} {e : CompileError} (hread : readClause {} question 0 = .ok t)
    {limit : Compiler} (hquery : s.compiler.query t = (.error e, limit))
    {cache : Option (RecencyCache Clause)} (hcache : Cached I cache) :
    Compiles I s question
      (.error (.compiling e), { s with compiler := limit, cache := cache })

/-- The cache keeps the code that was issued last. -/
theorem Cached.set {cache : RecencyCache Clause} (h : Cached I (some cache))
    (hread : readClause {} question 0 = .ok e.term) :
    Cached (I ∪ {e}) (some (cache.set question e.clause)) := by
  intro x hx y hy
  obtain rfl := Option.some.inj hx
  rcases RecencyCache.mem_table_set hy with rfl | hmem
  · exact ⟨e, .inr rfl, rfl, hread⟩
  · exact h.mono Set.subset_union_left cache rfl y hmem

/-- **What the cache holds for a question was issued for it.** -/
theorem Cached.get {cache : RecencyCache Clause} (h : Cached I (some cache)) (question : String) :
    (∃ e ∈ I, readClause {} question 0 = .ok e.term ∧
      ∃ x, cache.get question = (some e.clause, x) ∧ Cached I (some x)) ∨
    ∃ x, cache.get question = (none, x) ∧ Cached I (some x) := by
  have hafter : Cached I (some (cache.get question).2) := by
    intro x hx y hy
    obtain rfl := Option.some.inj hx
    exact h cache rfl y (RecencyCache.table_get cache question ▸ hy)
  have hfst := cache.get_fst question
  rcases hget : cache.get question with ⟨_ | q, x⟩ <;> rw [hget] at hafter hfst
  · exact .inr ⟨x, rfl, hafter⟩
  · obtain ⟨e, he, rfl, hread⟩ := h cache rfl _ (RecencyCache.mem_table_of_value? hfst.symm)
    exact .inl ⟨e, he, hread, x, rfl, hafter⟩

/-- A question that is compiled was issued just now, or it is objected to. -/
theorem InOrder.compileQuestion_cases (h : s.InOrder I)
    (hgoals : ∀ t, readClause {} question 0 = .ok t → Ordinary t.queryGoals) :
    (∃ e : Issue, readClause {} question 0 = .ok e.term ∧ e.before = s.compiler ∧
      ∃ t, compileQuestion question s =
        (.ok e.clause, { s with compiler := e.after, transcript := t })) ∨
    (∃ err, readClause {} question 0 = .error err ∧
      compileQuestion question s = (.error (.reading err), s)) ∨
    ∃ t err a, readClause {} question 0 = .ok t ∧ s.compiler.query t = (.error err, a) ∧
      compileQuestion question s = (.error (.compiling err), { s with compiler := a }) := by
  cases hread : readClause {} question 0 with
  | error err => exact .inr (.inl ⟨err, rfl, compileQuestion_error hread⟩)
  | ok t =>
    rw [compileQuestion_ok hread]
    rcases hquery : s.compiler.query t with ⟨err | q, a⟩
    · exact .inr (.inr ⟨t, err, a, rfl, hquery, compileWith_error (·.query t) hquery⟩)
    · let e : Issue :=
        ⟨s.compiler, t, q, a, hquery, readClause_proper hread, hgoals t hread, h.unreserved⟩
      exact .inl ⟨e, rfl, rfl, _, compileWith_ok (·.query t) hquery⟩

/-- **A question is compiled or found in the cache.** -/
theorem InOrder.compiledQuestion (h : s.InOrder I)
    (hgoals : ∀ t, readClause {} question 0 = .ok t → Ordinary t.queryGoals) :
    Compiles I s question (s.compiledQuestion question) := by
  have hcases := h.compileQuestion_cases hgoals
  unfold Session.compiledQuestion
  -- Without a cache the question is compiled.
  cases hcache : s.cache with
  | none =>
    have hnone : ∀ I, Cached I s.cache := fun I x hx => by rw [hcache] at hx; cases hx
    rcases hcases with
      ⟨e, hread, hbefore, t, hq⟩ | ⟨err, hread, hq⟩ | ⟨t, err, a, hread, hquery, hq⟩
    · simp only [hq]
      refine .issued hread (hbefore ▸ h.akin_self) (.inr hbefore.ge) ?_ ?_ le_rfl (hnone _) t
      · exact hbefore ▸ e.akin_after
      · exact hbefore ▸ e.made.le
    · simp only [hq]
      exact .unread hread (hnone I)
    · simp only [hq]
      exact .refused hread hquery (hnone I)
  | some cache =>
    -- With one it is found there, or compiled and put there.
    have hcached : Cached I (some cache) := hcache ▸ h.cached
    unfold RecencyCache.getOrMake
    rcases hcached.get question with ⟨e, he, hread, x, hget, hx⟩ | ⟨x, hget, hx⟩
    · simp only [hget]
      exact .issued hread (h.akin e he) (.inl he) h.akin_self le_rfl (h.issued e he)
        (hx.mono Set.subset_union_left) s.transcript
    · simp only [hget]
      rcases hcases with
        ⟨e, hread, hbefore, t, hq⟩ | ⟨err, hread, hq⟩ | ⟨t, err, a, hread, hquery, hq⟩
      · simp only [hq]
        refine .issued hread (hbefore ▸ h.akin_self) (.inr hbefore.ge) ?_ ?_ le_rfl (hx.set hread) t
        · exact hbefore ▸ e.akin_after
        · exact hbefore ▸ e.made.le
      · simp only [hq]
        exact .unread hread hx
      · simp only [hq]
        exact .refused hread hquery hx

/-- What a question leaves of a session: more numbers are used up, and the knowledge base is
    `base`. -/
structure Leaves (s : Session) (base : KnowledgeBase) (s' : Session) : Prop where
  /-- The session works in the same way. -/
  options : s'.options = s.options
  /-- It has the same native predicates. -/
  natives : s'.natives = s.natives
  /-- The knowledge base. -/
  base : s'.base = base
  /-- Numbers are used up. -/
  le : s.compiler ≤ s'.compiler
  /-- The compiler is the same otherwise. -/
  akin : s.compiler.Akin s'.compiler

/-- **What comes of a question.** -/
inductive Asked (I : Set Issue) (s : Session) (source : String) :
    Except Error Solutions × Session → Prop where
  /-- It is asked, with code that was issued before or is issued now. -/
  | asked {e : Issue} (hread : readClause {} (questionText source) 0 = .ok e.term)
    (hfrom : e.before.Akin s.compiler) (he : e ∈ I ∨ s.compiler ≤ e.before)
    {s' : Session} (h : s'.InOrder (I ∪ {e})) (hleaves : s.Leaves (s.base.posed e.clause) s') :
    Asked I s source (.ok { machine := ({} : Machine).posed e.clause }, s')
  /-- It cannot be read. -/
  | unread {e : SyntaxError} (hread : readClause {} (questionText source) 0 = .error e)
    {s' : Session} (h : s'.InOrder I) (hleaves : s.Leaves s.base s') :
    Asked I s source (.error (.reading e), s')
  /-- It is refused. -/
  | refused {t : Term} {e : CompileError} (hread : readClause {} (questionText source) 0 = .ok t)
    (hquery : (s.compiler.query t).1 = .error e) {s' : Session} (h : s'.InOrder I)
    (hleaves : s.Leaves s.base s') : Asked I s source (.error (.compiling e), s')

/-- **A question leaves the session in order.** -/
theorem InOrder.query (h : s.InOrder I) (hsource : OrdinaryQuestion source) :
    Asked I s source (s.query source) := by
  have hcompiles := h.compiledQuestion hsource
  unfold Session.query
  generalize s.compiledQuestion (questionText source) = r at hcompiles
  cases hcompiles with
  | @issued e hread hfrom he limit hakin hle hafter cache hcache t =>
    simp only
    rw [solutions_issue]
    exact .asked hread hfrom he (h.posed hfrom he hakin hle hafter hcache t)
      ⟨rfl, rfl, rfl, hle, hakin⟩
  | unread hread hcache =>
    exact .unread hread (h.advance h.akin_self le_rfl hcache _) ⟨rfl, rfl, rfl, le_rfl, h.akin_self⟩
  | @refused t e hread limit hquery cache hcache =>
    obtain ⟨hle, hakin⟩ := (query_alike h.akin_self (readClause_proper hread)
      (hsource t hread).unreserved).le_of_error h.akin_self hquery
    exact .refused hread (congrArg Prod.fst hquery) (h.advance hakin hle hcache _)
      ⟨rfl, rfl, rfl, hle, hakin⟩

/-- The session afterwards is in order. -/
theorem Asked.exists_inOrder {r : Except Error Solutions × Session} (h : Asked I s source r) :
    ∃ I', r.2.InOrder I' := by
  cases h with
  | asked _ _ _ h _ => exact ⟨_, h⟩
  | unread _ h _ => exact ⟨I, h⟩
  | refused _ _ h _ => exact ⟨I, h⟩

/-! ## §6. All sessions. -/

/-- The sessions of all programs and questions that name no reserved predicate.  Loading and asking
    may succeed or fail; what searches write may stand in the transcript. -/
inductive Reachable (options : SessionOptions) : Session → Prop where
  /-- The session is opened. -/
  | start {s : Session} (h : start options = (none, s)) : Reachable options s
  /-- A program is consulted. -/
  | consult {s : Session} (h : Reachable options s) (source : String)
    (hsource : OrdinaryProgram source) : Reachable options (s.consult source).2
  /-- A question is asked. -/
  | query {s : Session} (h : Reachable options s) (source : String)
    (hsource : OrdinaryQuestion source) : Reachable options (s.query source).2
  /-- Something is written. -/
  | written {s : Session} (h : Reachable options s) (t : Transcript) :
    Reachable options { s with transcript := t }

/-- **Every session is in order.** -/
theorem Reachable.exists_inOrder {options : SessionOptions} (hoptions : options.Ordinary)
    (h : Reachable options s) : ∃ I, s.InOrder I := by
  induction h with
  | start h => exact exists_inOrder_start hoptions h
  | consult _ source hsource ih =>
    obtain ⟨I, hI⟩ := ih
    exact hI.load .user hsource
  | query _ source hsource ih =>
    obtain ⟨I, hI⟩ := ih
    exact (hI.query hsource).exists_inOrder
  | written _ t ih =>
    obtain ⟨I, hI⟩ := ih
    exact ⟨I, hI.transcript t⟩

end Session

end PrologMachine
