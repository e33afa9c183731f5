/-
  PrologMachine.Proofs.Resolution.Programs ── **PROGRAMS OF FACTS AND RULES.**

  The terms of a program are compiled and inserted in order, and a question is set.  A call then finds
  the clauses of the rules for its predicate, in the order of the program.

    * `Consults`: a program is compiled and inserted.
    * `Consults.clauses`: what its predicates have then.
-/
import PrologMachine.Proofs.Machine.Searches
import PrologMachine.Proofs.Resolution.Stages

namespace PrologMachine

open Machine

/-! ## §1. The goals of compiled code. -/

/-- A goal as the compiler passes it. -/
structure Pattern.Shaped (p : Pattern) : Prop where
  /-- Functors inside of it have arguments. -/
  args : ∃ f ps, p = .struct f ps ∧ Pattern.FullAll Set.univ ps
  /-- Names in it are names of variables. -/
  names : ∀ x ∈ p.names, isRegister x = false ∧ isAnonymous x = false

theorem Goal.shaped (compiler n : Nat) {g : Goal} (h : Term.AllNamed g.args) :
    (g.pattern compiler n).Shaped where
  args := ⟨_, _, rfl, Term.builtPatterns_full compiler n g.args⟩
  names x hx := by
    have hmem := Term.builtPatterns_names compiler n g.args x hx
    exact ⟨h.names x hmem, Term.not_anonymous_of_mem_namesAll hmem⟩

/-- The goals of a chain of calls. -/
theorem Chain.shaped {tail : Instruction} {compiler n : Nat} {seen : List String} {ps : List Pattern}
    {code : Code} (h : Chain tail compiler seen n ps code) : ∀ p ∈ ps, p.Shaped := by
  induction h with
  | last _ hargs =>
    intro p hp
    obtain rfl := List.mem_singleton.1 hp
    exact Goal.shaped _ _ hargs
  | more _ hargs _ _ ih =>
    intro p hp
    rcases List.mem_cons.1 hp with rfl | hp
    · exact Goal.shaped _ _ hargs
    · exact ih p hp

/-- The goals of a rule. -/
theorem Clause.Implements.shaped {cl : Clause} {R : Rule} (h : cl.Implements R) : ∀ p ∈ R.body, p.Shaped := by
  obtain ⟨name, args, hasBody, e, hc⟩ := h
  cases hasBody with
  | true =>
    obtain ⟨code, -, hchain⟩ := hc.bodyCode rfl
    exact hchain.shaped
  | false =>
    rw [hc.fact rfl]
    exact fun p hp => absurd hp List.not_mem_nil

/-! ## §2. Programs. -/

/-- The terms are compiled and inserted one after the other, each as the clause of a rule.  Each may have
    a compiler of its own. -/
inductive Consults : KnowledgeBase → List Term → List Rule → KnowledgeBase → Prop where
  /-- The end of the program. -/
  | nil {kb : KnowledgeBase} : Consults kb [] [] kb
  /-- A fact or a rule. -/
  | cons {kb kb' : KnowledgeBase} {t : Term} {ts : List Term} {R : Rule} {P : List Rule} {c : Compiler}
    {cl : Clause} (hterm : t.Written) (hrule : c.rule? t = some R) (hclause : (c.clause t).1 = .ok cl)
    (hinsert : (kb.insertUser cl.signature (some cl)).error = none)
    (hrest : Consults (kb.insertUser cl.signature (some cl)).base ts P kb') :
    Consults kb (t :: ts) (R :: P) kb'

section

variable {kb kb' : KnowledgeBase} {ts : List Term} {P : List Rule} {cl : Clause} {s : Signature}

/-- A clause without auxiliary clauses is put behind those of its predicate. -/
theorem KnowledgeBase.clauses_insertUser (hcl : cl.auxiliaries = [])
    (h : (kb.insertUser cl.signature (some cl)).error = none) :
    (kb.insertUser cl.signature (some cl)).base.user.clauses s =
      kb.user.clauses s ++ (if s = cl.signature then [cl] else []) := by
  -- A clause without auxiliaries is stored alone.
  have hnone : cl.descendants = [] := by
    obtain ⟨_, _, _, aux⟩ := cl
    obtain rfl : aux = [] := hcl
    rfl
  unfold KnowledgeBase.insertUser at h ⊢
  split at h
  · cases h
  · next hfree =>
    rw [if_neg hfree]
    cases hdb : kb.user.insert cl.signature (some cl) with
    | error e =>
      rw [hdb] at h
      cases h
    | ok db =>
      have hput := ClauseStore.insert_ok hdb
      simp only [Option.map_some, hnone, Option.getD_some, ClauseStore.replaceAll]
      rw [hput, ClauseStore.clauses_put]
      split
      · next hs => rw [hs]; rfl
      · rw [List.append_nil]

/-- **The clause of a rule is inserted**, unless its predicate is a builtin one or has no name. -/
theorem Clause.Implements.insertUser_error {R : Rule} (h : cl.Implements R) (kb : KnowledgeBase)
    (hcl : cl.auxiliaries = []) (hname : R.signature.name ≠ "")
    (hfree : kb.builtin.contains R.signature = false) :
    (kb.insertUser cl.signature (some cl)).error = none := by
  have hsignature := h.signature_eq
  obtain ⟨name, args, hasBody, e, hc⟩ := h
  -- The clause has no auxiliaries, has code, and its arity is no negative number.
  have hnone : cl.descendants = [] := by
    obtain ⟨_, _, _, aux⟩ := cl
    obtain rfl : aux = [] := hcl
    rfl
  have hcode : cl.code.isEmpty = false := by
    cases hempty : cl.code with
    | nil =>
      have hhead := hc.headCode
      rw [Clause.block?, hempty] at hhead
      cases hhead
    | cons block blocks => rfl
  have harity : ¬ R.signature.arity < 0 := by
    rw [← hsignature, hc.signature]
    exact Int.not_lt.2 (Int.natCast_nonneg _)
  have hinsert : kb.user.insert cl.signature (some cl) =
      .ok (kb.user.put cl.signature (kb.user.clauses cl.signature ++ [cl])) := by
    rw [hsignature]
    simp [ClauseStore.insert, hname, harity, hcode]
  rw [KnowledgeBase.insertUser, if_neg (by rw [hsignature, hfree]; exact Bool.false_ne_true)]
  simp only [hinsert, Option.map_some, hnone, Option.getD_some, ClauseStore.replaceAll]

/-- The builtin predicates stay. -/
theorem KnowledgeBase.builtin_insertUser (kb : KnowledgeBase) (s : Signature) (clause : Option Clause) :
    (kb.insertUser s clause).base.builtin = kb.builtin := by
  unfold KnowledgeBase.insertUser
  split
  · rfl
  · split <;> rfl

/-- Every rule has its code. -/
theorem Consults.implements (h : Consults kb ts P kb') : ∀ R ∈ P, ∃ cl : Clause, cl.Implements R := by
  induction h with
  | nil => exact fun R hR => absurd hR List.not_mem_nil
  | cons hterm hrule hclause _ _ ih =>
    intro R hR
    rcases List.mem_cons.1 hR with rfl | hR
    · exact ⟨_, (Compiler.clause_implements hterm.proper hrule hclause).1⟩
    · exact ih R hR

theorem Consults.furnished (h : Consults kb ts P kb') (hkb : Furnished (fun _ => True) kb) :
    Furnished (fun _ => True) kb' := by
  induction h with
  | nil => exact hkb
  | cons hterm _ hclause _ _ ih => exact ih (.user hkb ⟨_, _, hterm, trivial, hclause⟩)

/-- **A predicate has the code of its rules, in order**, behind the clauses that it had. -/
theorem Consults.clauses (h : Consults kb ts P kb') (s : Signature) :
    ∃ cs, kb'.user.clauses s = kb.user.clauses s ++ cs ∧
      List.Forall₂ Clause.Implements cs (candidates P s) := by
  induction h with
  | nil => exact ⟨[], (List.append_nil _).symm, .nil⟩
  | @cons kb kb' t ts R P c cl hterm hrule hclause hinsert _ ih =>
    obtain ⟨himplements, hnone⟩ := Compiler.clause_implements hterm.proper hrule hclause
    obtain ⟨cs, hcs, hall⟩ := ih
    rw [KnowledgeBase.clauses_insertUser hnone hinsert, himplements.signature_eq] at hcs
    by_cases hs : s = R.signature
    · refine ⟨cl :: cs, ?_, ?_⟩
      · rw [hcs, if_pos hs, List.append_assoc]
        rfl
      · rw [candidates, List.filter_cons_of_pos (by simp [hs])]
        exact .cons himplements hall
    · refine ⟨cs, ?_, ?_⟩
      · rw [hcs, if_neg hs, List.append_nil]
      · rw [candidates, List.filter_cons_of_neg (by simpa using Ne.symm hs)]
        exact hall

end

end PrologMachine
