/-
  PrologMachine.Proofs.KnowledgeBase ── **CLAUSE STORES ARE MAPS.**

  A clause store finds a predicate by its written form.  Written forms tell predicates apart, so a
  store is a map from predicates to lists of clauses: what is done to one predicate does not touch
  another, and a predicate has the clauses put there since it was last replaced or removed.

    * `ClauseStore.clauses_put`, `ClauseStore.clauses_remove`: the map behind the two changes.
    * `StoreOp`, `ClauseStore.performAll`: sequences of operations, some of them refused.
    * `ClauseStore.clauses_performAll`: what a sequence leaves.
-/
import PrologMachine.KnowledgeBase
import PrologMachine.Proofs.Signature

namespace PrologMachine

namespace ClauseStore

variable {db db' : ClauseStore} {s s' : Signature} {cs : List Clause}

/-! ## §1. The two changes. -/

section Lookup

variable {α : Type} {key key' : String} {v : α} {entries : List (String × α)}

/-- A replaced entry is found. -/
private theorem lookup_map_self (h : (entries.lookup key).isSome) :
    (entries.map (fun e => if e.1 = key then (key, v) else e)).lookup key = some v := by
  induction entries with
  | nil => simp at h
  | cons e es ih =>
    by_cases he : e.1 = key
    · simp [he]
    · have hne : (key == e.1) = false := by simpa using Ne.symm he
      simp only [List.lookup, hne] at h
      simp [List.lookup, he, hne, ih h]

private theorem lookup_map_of_ne (hkey : key' ≠ key) :
    (entries.map (fun e => if e.1 = key then (key, v) else e)).lookup key' =
      entries.lookup key' := by
  induction entries with
  | nil => rfl
  | cons e es ih =>
    by_cases he : e.1 = key
    · have hne : (key' == e.1) = false := by simpa [he] using hkey
      have hne' : (key' == key) = false := by simpa using hkey
      simp [List.lookup, he, hne', ih]
    · simp [List.lookup, he, ih]

/-- A removed entry is not found, and any other is. -/
private theorem lookup_filter_ne (key' : String) :
    (entries.filter (fun e => e.1 ≠ key)).lookup key' =
      if key' = key then none else entries.lookup key' := by
  induction entries with
  | nil => simp
  | cons e es ih =>
    by_cases he : e.1 = key
    · rw [List.filter_cons_of_neg (by simpa using he), ih]
      by_cases hkey : key' = key
      · simp [hkey]
      · have hne : (key' == e.1) = false := by simpa [he] using hkey
        simp [List.lookup, hkey, hne]
    · rw [List.filter_cons_of_pos (by simpa using he), List.lookup, List.lookup, ih]
      cases heq : key' == e.1 with
      | true => simp [eq_of_beq heq, he]
      | false => rfl

end Lookup

/-- The clauses of a predicate are those put there last. -/
theorem clauses_put : (db.put s cs).clauses s' = if s' = s then cs else db.clauses s' := by
  unfold put clauses
  by_cases hs : s' = s
  · subst hs
    by_cases h : (db.entries.lookup s'.text).isSome
    · simp [h, lookup_map_self h]
    · have hnone : db.entries.lookup s'.text = none := Option.not_isSome_iff_eq_none.1 h
      simp [hnone, List.lookup_append, List.lookup]
  · have htext : s'.text ≠ s.text := fun h => hs (Signature.text_inj.1 h)
    by_cases h : (db.entries.lookup s.text).isSome
    · simp [h, lookup_map_of_ne htext, hs]
    · have hne : (s'.text == s.text) = false := by simpa using htext
      simp [h, hs, List.lookup_append, List.lookup, hne]

/-- A predicate that was removed has no clauses. -/
theorem clauses_remove : (db.remove s).clauses s' = if s' = s then [] else db.clauses s' := by
  unfold remove clauses
  simp only [lookup_filter_ne, Signature.text_inj]
  split <;> rfl

/-- An insertion that is not refused puts the clause behind the others. -/
theorem insert_ok {clause : Option Clause} (h : db.insert s clause = .ok db') :
    db' = db.put s (db.clauses s ++ clause.toList) := by
  unfold insert at h
  split at h
  · cases h
  split at h
  · cases h
  split at h
  · cases h
  · exact (Except.ok.inj h).symm

/-- A replacement that is not refused leaves the clause only. -/
theorem replace_ok {clause : Option Clause} (h : db.replace s clause = .ok db') :
    db' = db.put s clause.toList := by
  unfold replace at h
  split at h
  · cases h
  split at h
  · cases h
  · exact (Except.ok.inj h).symm

end ClauseStore

/-! ## §2. Sequences of operations. -/

/-- An operation on a clause store. -/
inductive StoreOp where
  /-- Put a clause behind those of a predicate. -/
  | insert (s : Signature) (clause : Option Clause)
  /-- Make a clause the only one of a predicate. -/
  | replace (s : Signature) (clause : Option Clause)
  /-- Drop a predicate. -/
  | remove (s : Signature)

namespace StoreOp

/-- The predicate that the operation is about. -/
def signature : StoreOp → Signature
  | .insert s _ | .replace s _ | .remove s => s

/-- The clause that the operation gives to a predicate. -/
def clauseFor? (s : Signature) : StoreOp → Option Clause
  | .insert s' c | .replace s' c => if s' = s then c else none
  | .remove _ => none

/-- The operation drops the clauses that a predicate has. -/
def resets (s : Signature) : StoreOp → Bool
  | .insert _ _ => false
  | .replace s' _ | .remove s' => s' = s

/-- The operations from the last one on that drops the clauses of a predicate. -/
def sinceReset (s : Signature) : List StoreOp → List StoreOp
  | [] => []
  | op :: ops => if ops.any (resets s) then sinceReset s ops else op :: ops

end StoreOp

namespace ClauseStore

variable {db : ClauseStore} {s : Signature} {op : StoreOp}

/-- The store with the result of a change that may be refused, and why it was. -/
def change (db : ClauseStore) : Except StoreError ClauseStore → Option StoreError × ClauseStore
  | .ok db' => (none, db')
  | .error e => (some e, db)

/-- Perform an operation. -/
def perform (db : ClauseStore) : StoreOp → Option StoreError × ClauseStore
  | .insert s c => db.change (db.insert s c)
  | .replace s c => db.change (db.replace s c)
  | .remove s => (none, db.remove s)

/-- Perform operations in order. -/
def performAll (db : ClauseStore) (ops : List StoreOp) : ClauseStore :=
  ops.foldl (fun db op => (db.perform op).2) db

/-- The operations among `ops` that are not refused when they are performed in order. -/
def accepted (db : ClauseStore) : List StoreOp → List StoreOp
  | [] => []
  | op :: ops =>
    if (db.perform op).1.isNone then op :: (db.perform op).2.accepted ops
    else (db.perform op).2.accepted ops

/-- **A refused operation changes nothing.** -/
theorem perform_refused (h : (db.perform op).1.isSome = true) : (db.perform op).2 = db := by
  cases op with
  | insert s c => simp only [perform] at h ⊢; cases hc : db.insert s c <;> simp_all [change]
  | replace s c => simp only [perform] at h ⊢; cases hc : db.replace s c <;> simp_all [change]
  | remove s => cases h

/-- A clause with a name and code is not refused. -/
theorem perform_accepted {c : Clause} (hname : s.name ≠ "") (harity : 0 ≤ s.arity)
    (hcode : c.native = true ∨ c.code ≠ []) : (db.perform (.insert s (some c))).1 = none ∧
      (db.perform (.replace s (some c))).1 = none := by
  have hlow : ¬ s.arity < 0 := by omega
  have hnone : (!c.native && c.code.isEmpty) = false := by
    rcases hcode with hnative | hcode
    · simp [hnative]
    · simp [hcode]
  simp [perform, change, insert, replace, hname, hlow, hnone]

/-- **What an operation does to the clauses of a predicate** when it is not refused: it may drop
    them, and puts its own clause behind those that stay. -/
theorem clauses_perform (h : (db.perform op).1 = none) : (db.perform op).2.clauses s =
    (if op.resets s then [] else db.clauses s) ++ (op.clauseFor? s).toList := by
  -- A clause that is put stands alone, or behind those there were.
  cases op with
  | insert s' c =>
    cases hc : db.insert s' c with
    | error e => simp [perform, change, hc] at h
    | ok db' =>
      simp only [perform, change, hc, insert_ok hc, clauses_put]
      by_cases hs : s = s'
      · simp [StoreOp.resets, StoreOp.clauseFor?, hs]
      · simp [StoreOp.resets, StoreOp.clauseFor?, hs, Ne.symm hs]
  | replace s' c =>
    cases hc : db.replace s' c with
    | error e => simp [perform, change, hc] at h
    | ok db' =>
      simp only [perform, change, hc, replace_ok hc, clauses_put]
      by_cases hs : s = s'
      · simp [StoreOp.resets, StoreOp.clauseFor?, hs]
      · simp [StoreOp.resets, StoreOp.clauseFor?, hs, Ne.symm hs]
  -- Removing leaves no clause of that predicate.
  | remove s' =>
    by_cases hs : s = s'
    · simp [perform, clauses_remove, StoreOp.resets, StoreOp.clauseFor?, hs]
    · simp [perform, clauses_remove, StoreOp.resets, StoreOp.clauseFor?, hs, Ne.symm hs]

/-- **An operation on one predicate does not touch another.** -/
theorem clauses_perform_of_ne (hs : op.signature ≠ s) :
    (db.perform op).2.clauses s = db.clauses s := by
  cases herror : (db.perform op).1 with
  | some e => rw [perform_refused (by simp [herror])]
  | none =>
    rw [clauses_perform herror]
    cases op <;>
      simp_all [StoreOp.signature, StoreOp.resets, StoreOp.clauseFor?]

/-- **What a sequence of operations leaves of a predicate**: without an operation that drops its
    clauses, those that it had and those that were given to it; else those given since. -/
theorem clauses_performAll (ops : List StoreOp) : ∀ db : ClauseStore,
    (db.performAll ops).clauses s =
      (if (db.accepted ops).any (StoreOp.resets s) then [] else db.clauses s) ++
        (StoreOp.sinceReset s (db.accepted ops)).filterMap (StoreOp.clauseFor? s) := by
  induction ops with
  | nil => intro db; simp [performAll, accepted, StoreOp.sinceReset]
  | cons op ops ih =>
    intro db
    have hstep : db.performAll (op :: ops) = (db.perform op).2.performAll ops := rfl
    rw [hstep, ih, accepted]
    cases herror : (db.perform op).1 with
    | some e =>
      rw [perform_refused (by simp [herror])]
      rfl
    | none =>
      rw [clauses_perform herror]
      -- A later operation that drops the clauses hides this one; otherwise all later ones count.
      by_cases hlater : ((db.perform op).2.accepted ops).any (StoreOp.resets s) = true
      · simp [StoreOp.sinceReset, hlater]
      · rw [Bool.not_eq_true] at hlater
        have hkeeps : StoreOp.sinceReset s ((db.perform op).2.accepted ops) =
            (db.perform op).2.accepted ops := by
          cases hops : (db.perform op).2.accepted ops with
          | nil => rfl
          | cons op' ops' =>
            rw [hops, List.any_cons, Bool.or_eq_false_iff] at hlater
            simp [StoreOp.sinceReset, hlater.2]
        simp only [Option.isNone_none, if_true, StoreOp.sinceReset, hlater, hkeeps,
          List.any_cons, Bool.or_false, Bool.false_eq_true, if_false, List.append_assoc,
          List.filterMap_cons]
        cases op.clauseFor? s <;> rfl

end ClauseStore

end PrologMachine
