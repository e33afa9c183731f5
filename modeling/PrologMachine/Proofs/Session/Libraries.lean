/-
  PrologMachine.Proofs.Session.Libraries ── **WHAT A LIBRARY LEAVES.**

  The clauses of a library go behind those that their predicate has, one for each clause of its text.
  Nothing takes them away again, so whatever becomes of a session, a call of the predicate finds them.

    * `Session.Defines`: a text that defines one predicate.
    * `Session.start_defines`: what an opened session has of a library.
    * `Session.Later.finds`: what a call finds later.
    * `Session.exists_started_with`: a session with one library.
-/
import PrologMachine.Proofs.Session.Builtins

namespace PrologMachine

open ClauseStore

/-- A compiler has made the clause from the term. -/
def Clause.CompiledFrom (t : Term) (q : Clause) : Prop := ∃ c : Compiler, (c.clause t).1 = .ok q

/-- A clause without auxiliaries goes behind those that its predicate has. -/
theorem KnowledgeBase.insertBuiltin_appends {kb : KnowledgeBase} {q : Clause}
    (hq : q.descendants = []) (h : (kb.insertBuiltin q.signature (some q)).error = none) :
    (kb.insertBuiltin q.signature (some q)).base.builtin.clauses q.signature =
      kb.builtin.clauses q.signature ++ [q] := by
  unfold insertBuiltin at h ⊢
  cases hinsert : kb.builtin.insert q.signature (some q) with
  | error e => rw [hinsert] at h; cases h
  | ok db =>
    simp only [ClauseStore.insert] at hinsert
    split at hinsert
    · cases hinsert
    split at hinsert
    · cases hinsert
    obtain rfl := Except.ok.inj hinsert
    simp [hq, replaceAll, clauses_put]

/-- Native predicates add no clauses to others. -/
theorem KnowledgeBase.clauses_installNatives {kb : KnowledgeBase} {r : Registry} {g : Signature}
    (hg : ∀ b ∈ r.builtins, b.signature ≠ g) :
    (kb.installNatives r).1.builtin.clauses g = kb.builtin.clauses g := by
  unfold installNatives
  refine List.foldlRecOn (motive := fun acc : KnowledgeBase × List LogEntry =>
    acc.1.builtin.clauses g = kb.builtin.clauses g) _ _ rfl fun acc hacc b hb => ?_
  obtain ⟨kb', log⟩ := acc
  simp only
  split
  · exact hacc
  · have hne : g ≠ b.signature := (hg b (by simpa [Registry.sorted] using hb)).symm
    rw [← hacc]
    rcases kb'.insertBuiltin_base ⟨b.signature, [], true, []⟩ with hbase | hbase <;>
      rw [show (kb'.insertBuiltin b.signature (some ⟨b.signature, [], true, []⟩)).base = _ from hbase]
    exact clauses_install_of_ne hne fun d hd => by
      simp [Clause.descendants_mk, Clause.descendantsOf] at hd

namespace Session

/-! ## §1. Loading. -/

variable {s s' s₀ : Session} {g : Signature} {t : Term} {ts : List Term} {l : Library}
  {options : SessionOptions}

/-- All of the terms are clauses of the predicate `g` without negated bodies. -/
def Defines (g : Signature) (ts : List Term) : Prop :=
  ∀ t ∈ ts, (∀ goal attrs pos, t ≠ .app "query" [goal] attrs pos) ∧
    ∀ q, Clause.CompiledFrom t q → q.signature = g ∧ q.descendants = []

/-- A term that defines a predicate adds one clause to it. -/
theorem loadTerm_defines (ht : Defines g [t]) (h : s.loadTerm .builtin t = (none, s')) :
    ∃ q, Clause.CompiledFrom t q ∧
      s'.base.builtin.clauses g = s.base.builtin.clauses g ++ [q] := by
  obtain ⟨hquery, hclause⟩ := ht t List.mem_cons_self
  unfold loadTerm at h
  split at h
  · next goal attrs pos => exact absurd rfl (hquery goal attrs pos)
  rcases compileWith_cases (d := .builtin) (·.clause t) s with
    ⟨e, s₁, hcompile, -⟩ | ⟨q, s₁, hcompile, hq, -⟩
  · rw [hcompile] at h
    cases h
  · obtain ⟨rfl, hdescendants⟩ := hclause q ⟨_, hq⟩
    have hbase : s₁.base = s.base := (congrArg (fun r => r.2.base) hcompile).symm.trans (by
      unfold compileWith
      split <;> rfl)
    rw [hcompile] at h
    obtain ⟨t', ht'⟩ := exists_foldl_logDebug (s₁.base.insertBuiltin q.signature (some q)).log
      { s₁ with base := (s₁.base.insertBuiltin q.signature (some q)).base }
    simp only [insert, ht', Prod.mk.injEq] at h
    obtain ⟨herror, rfl⟩ := h
    refine ⟨q, ⟨_, hq⟩, ?_⟩
    rw [← hbase]
    exact KnowledgeBase.insertBuiltin_appends hdescendants (by simpa using herror)

/-- **The clauses of a text go behind those of their predicate**, in order. -/
theorem loadTerms_defines : ∀ {ts : List Term} {s : Session}, Defines g ts →
    loadTerms .builtin ts s = (none, s') → ∃ cs, List.Forall₂ Clause.CompiledFrom ts cs ∧
      s'.base.builtin.clauses g = s.base.builtin.clauses g ++ cs
  | [], s, _, h => by
    obtain rfl : s = s' := congrArg Prod.snd h
    exact ⟨[], .nil, (List.append_nil _).symm⟩
  | t :: ts, s, hts, h => by
    unfold loadTerms at h
    rcases hload : s.loadTerm .builtin t with ⟨_ | e, s₁⟩ <;> rw [hload] at h
    · obtain ⟨q, hq, hone⟩ := loadTerm_defines
        (fun t' ht' => hts t' (List.mem_cons.2 (.inl (List.mem_singleton.1 ht')))) hload
      obtain ⟨cs, hcs, hrest⟩ := loadTerms_defines (fun t' ht' => hts t' (List.mem_cons_of_mem t ht')) h
      exact ⟨q :: cs, .cons hq hcs, by rw [hrest, hone, List.append_assoc]; rfl⟩
    · cases h

/-- While libraries are loaded, the clauses of each stay behind those loaded before. -/
theorem loadLibraries_defines (hread : readProgram {} l.source 0 = .ok ts) (hts : Defines g ts)
    (hquery : g ≠ querySignature) (hg : ∀ n, g.name ≠ auxiliaryName n) :
    ∀ {ls : List Library} {s : Session}, l ∈ ls → loadLibraries ls s = (none, s') →
      ∃ cs before, List.Forall₂ Clause.CompiledFrom ts cs ∧
        before ++ cs <+: s'.base.builtin.clauses g
  | l' :: ls, s, hl, h => by
    unfold loadLibraries at h
    rcases hload : s.load .builtin l'.source with ⟨_ | e, s₁⟩ <;> rw [hload] at h
    · rcases List.mem_cons.1 hl with rfl | hl
      · have hterms : loadTerms .builtin ts s = (none, s₁) := by
          rw [← hload, load_ok hread]
        obtain ⟨cs, hcs, hclauses⟩ := loadTerms_defines hts hterms
        have hlater := loadLibraries_loads ls s₁
        rw [show loadLibraries ls s₁ = (none, s') from h] at hlater
        obtain ⟨-, hprefix⟩ := KnowledgeBase.prefix_of_changes hlater.changes hquery hg
        exact ⟨cs, _, hcs, hclauses ▸ hprefix⟩
      · exact loadLibraries_defines hread hts hquery hg hl h
    · cases h

/-! ## §2. Sessions with libraries. -/

/-- **An opened session has the clauses of its libraries.**  Where a predicate has no more clauses than
    a library gives it, those are its clauses. -/
theorem start_defines (hstart : start options = (none, s₀)) (hl : l ∈ options.libraries)
    (hread : readProgram {} l.source 0 = .ok ts) (hts : Defines g ts) (hg : ¬ Reserved g)
    (hlength : (s₀.base.builtin.clauses g).length = ts.length) :
    List.Forall₂ Clause.CompiledFrom ts (s₀.base.builtin.clauses g) := by
  unfold start at hstart
  simp only at hstart
  split at hstart
  · cases hstart
  next natives _ =>
  have hname : ∀ n, g.name ≠ auxiliaryName n := fun n hn =>
    hg (.inr (hn ▸ isAuxiliary_auxiliaryName n))
  obtain ⟨cs, before, hcs, hprefix⟩ := loadLibraries_defines hread hts (fun hq => hg (.inl hq)) hname hl
    hstart
  obtain ⟨after, hsplit⟩ := hprefix
  have hlengths := congrArg List.length hsplit
  rw [hlength, List.length_append, List.length_append, hcs.length_eq] at hlengths
  obtain rfl := List.eq_nil_of_length_eq_zero (show before.length = 0 by omega)
  obtain rfl := List.eq_nil_of_length_eq_zero (show after.length = 0 by omega)
  rw [← hsplit, List.append_nil]
  exact hcs

/-- **What a call finds**, whatever has become of the session. -/
theorem Later.finds (h : Later s₀ s) (hoptions : options.KeepsQuestions)
    (hstart : start options = (none, s₀)) (hg : ¬ Reserved g)
    (hcontains : s₀.base.builtin.clauses g ≠ []) :
    s.base.get g = .ok (s₀.base.builtin.clauses g) := by
  obtain ⟨hguarded, -, hcache⟩ := start_guarded hstart
  have hasks := h.asks (hcache ▸ startCache_keepsQuestions hoptions)
  obtain ⟨hbuiltin, hsguarded⟩ := KnowledgeBase.guarded_of_changes hasks.changes hguarded
  rw [← hbuiltin] at hcontains ⊢
  exact hsguarded.get (contains_iff.2 hcontains) hg

/-! ## §3. A session with one library. -/

/-- Every compiler takes the terms, and what it makes of them can be stored. -/
def Accepts (ts : List Term) : Prop :=
  ∀ t ∈ ts, (∀ goal attrs pos, t ≠ .app "query" [goal] attrs pos) ∧ ∀ c : Compiler, ∃ q c',
    c.clause t = (.ok q, c') ∧ q.signature.name ≠ "" ∧ 0 ≤ q.signature.arity ∧ q.code ≠ [] ∧
      q.descendants = []

/-- An accepted term is loaded without an error. -/
theorem loadTerm_accepts (ht : Accepts [t]) (s : Session) :
    (s.loadTerm .builtin t).1 = none ∧ (s.loadTerm .builtin t).2.options = s.options := by
  obtain ⟨hquery, hclause⟩ := ht t List.mem_cons_self
  obtain ⟨q, c', hq, hname, harity, hcode, hdescendants⟩ := hclause s.compiler
  unfold loadTerm
  split
  · next goal attrs pos => exact absurd rfl (hquery goal attrs pos)
  · rw [compileWith_ok (·.clause t) hq]
    generalize hs₁ : ({ s with
      compiler := c', transcript := s.transcript.logIf s.options.debug (.compiled q) } : Session) = s₁
    obtain ⟨t', ht'⟩ := exists_foldl_logDebug (s₁.base.insertBuiltin q.signature (some q)).log
      { s₁ with base := (s₁.base.insertBuiltin q.signature (some q)).base }
    have herror : (s₁.base.insertBuiltin q.signature (some q)).error = none := by
      have harity' : ¬ q.signature.arity < 0 := Int.not_lt.2 harity
      simp [KnowledgeBase.insertBuiltin, ClauseStore.insert, hname, harity', hcode, hdescendants,
        replaceAll]
    simp only [insert, ht', herror]
    exact ⟨rfl, hs₁ ▸ rfl⟩

theorem loadTerms_accepts : ∀ {ts : List Term}, Accepts ts → ∀ s : Session,
    (loadTerms .builtin ts s).1 = none ∧ (loadTerms .builtin ts s).2.options = s.options
  | [], _, _ => ⟨rfl, rfl⟩
  | t :: ts, hts, s => by
    have hterm := loadTerm_accepts
      (fun t' ht' => hts t' (List.mem_cons.2 (.inl (List.mem_singleton.1 ht')))) s
    unfold loadTerms
    rcases hload : s.loadTerm .builtin t with ⟨_ | e, s₁⟩ <;> rw [hload] at hterm
    · obtain ⟨hnone, hoptions⟩ :=
        loadTerms_accepts (fun t' ht' => hts t' (List.mem_cons_of_mem t ht')) s₁
      exact ⟨hnone, hoptions.trans hterm.2⟩
    · cases hterm.1

/-- **A session can be opened with such a library**, and has its clauses and no others of its
    predicate. -/
theorem exists_started_with (patience : Nat) (hread : readProgram {} l.source 0 = .ok ts)
    (haccepts : Accepts ts) (hdefines : Defines g ts)
    (hnative : ∀ b ∈ Registry.core.builtins, b.signature ≠ g) :
    ∃ s, start { patience, libraries := [l] } = (none, s) ∧ s.cache = none ∧
      s.options = { patience, libraries := [l] } ∧
      (s.base.builtin.clauses g).length = ts.length := by
  let blank : Session :=
    { options := { patience, libraries := [l] }, natives := Registry.core
      base := (({} : KnowledgeBase).installNatives Registry.core).1, transcript := {}, cache := none
      compiler := { natives := Registry.core.signatures } }
  obtain ⟨t, ht⟩ :=
    exists_foldl_logDebug (({} : KnowledgeBase).installNatives Registry.core).2 blank
  let s₁ : Session := { blank with transcript := t }
  -- The start comes down to loading the terms of the one library.
  have hstart : start { patience, libraries := [l] } = loadLibraries [l] s₁ :=
    congrArg (loadLibraries [l]) ht
  have hload : s₁.load .builtin l.source = loadTerms .builtin ts s₁ := load_ok hread
  obtain ⟨hnone, hoptions⟩ := loadTerms_accepts haccepts s₁
  rcases hterms : loadTerms .builtin ts s₁ with ⟨_ | e, s⟩ <;> rw [hterms] at hnone hoptions
  · have hstarted : start { patience, libraries := [l] } = (none, s) := by
      rw [hstart]
      unfold loadLibraries
      rw [hload, hterms]
      rfl
    obtain ⟨cs, hcs, hclauses⟩ := loadTerms_defines hdefines hterms
    have hloads := loadTerms_loads .builtin ts s₁
    rw [hterms] at hloads
    refine ⟨s, hstarted, hloads.cache, hoptions, ?_⟩
    rw [hclauses, show s₁.base.builtin.clauses g = [] from
      KnowledgeBase.clauses_installNatives hnative, List.nil_append, ← hcs.length_eq]
  · cases hnone

end Session

end PrologMachine
