/-
  PrologMachine.KnowledgeBase ── **THE CLAUSES OF A PROGRAM.**

  A clause store keeps, for each predicate, its clauses in order of insertion; a predicate is found
  by its written form.  A knowledge base has two stores: the clauses of the user, which also hold
  the current query, and the builtin predicates, which the user cannot redefine.  Auxiliary clauses
  come with the clause that needs them, and take the place of any clause of the same signature.

  Operations that can be refused return the error, if any, beside the store they leave: a clause
  whose auxiliaries are refused stays.
-/
import PrologMachine.Error
import PrologMachine.Transcript

namespace PrologMachine

/-! ## §1. Clause stores. -/

/-- The clauses of predicates. -/
structure ClauseStore where
  /-- The written form of each predicate, with the predicate and its clauses in order. -/
  entries : List (String × Signature × List Clause) := []
  deriving Inhabited

namespace ClauseStore

/-- The clauses of a predicate, in order. -/
def clauses (db : ClauseStore) (s : Signature) : List Clause :=
  ((db.entries.lookup s.text).map Prod.snd).getD []

/-- The predicate has clauses. -/
def contains (db : ClauseStore) (s : Signature) : Bool := !(db.clauses s).isEmpty

/-- Make `cs` the clauses of a predicate. -/
def put (db : ClauseStore) (s : Signature) (cs : List Clause) : ClauseStore :=
  let key := s.text
  if (db.entries.lookup key).isSome then
    { db with entries := db.entries.map (fun e => if e.1 = key then (key, s, cs) else e) }
  else { db with entries := db.entries ++ [(key, s, cs)] }

/-- Drop a predicate. -/
def remove (db : ClauseStore) (s : Signature) : ClauseStore :=
  let key := s.text
  { db with entries := db.entries.filter (fun e => e.1 ≠ key) }

/-- Put a clause behind those of its predicate. -/
def insert (db : ClauseStore) (s : Signature) (clause : Option Clause) :
    Except StoreError ClauseStore :=
  match clause with
  | none => .error (.incompleteInsert s.name s.arity)
  | some c =>
    if s.name = "" || s.arity < 0 then .error (.incompleteInsert s.name s.arity)
    else if !c.native && c.code.isEmpty then .error (.noCode s)
    else .ok (db.put s (db.clauses s ++ [c]))

/-- Make a clause the only one of its predicate. -/
def replace (db : ClauseStore) (s : Signature) (clause : Option Clause) :
    Except StoreError ClauseStore :=
  match clause with
  | none => .error (.incompleteInsert s.name s.arity)
  | some c =>
    if s.name = "" || s.arity < 0 then .error (.incompleteInsert s.name s.arity)
    else .ok (db.put s [c])

/-- Make each clause the only one of its own signature, up to the first refusal. -/
def replaceAll (db : ClauseStore) : List Clause → Option StoreError × ClauseStore
  | [] => (none, db)
  | c :: cs =>
    match db.replace c.signature (some c) with
    | .error e => (some e, db)
    | .ok db => db.replaceAll cs

/-- The clauses of a predicate, which must have some. -/
def get (db : ClauseStore) (s : Signature) : Except StoreError (List Clause) :=
  match db.clauses s with
  | [] => .error (.unknownPredicate s)
  | cs => .ok cs

/-- One clause of a predicate, counted from zero. -/
def getClause (db : ClauseStore) (s : Signature) (index : Int) : Except StoreError Clause :=
  match db.get s with
  | .error e => .error e
  | .ok cs =>
    if index < 0 then .error (.noSuchClause s index)
    else match cs[index.toNat]? with
      | some c => .ok c
      | none => .error (.noSuchClause s index)

/-- The predicates with clauses, in the order of their written form. -/
def signatures (db : ClauseStore) : List Signature :=
  ((db.entries.filter (fun e => !e.2.2.isEmpty)).map (fun e => e.2.1)).mergeSort Signature.textLe

/-- The number of predicates. -/
def size (db : ClauseStore) : Nat := db.entries.length

end ClauseStore

/-! ## §2. Knowledge bases. -/

/-- The user's clauses and the builtin ones. -/
structure KnowledgeBase where
  /-- The user's clauses and the current query. -/
  user : ClauseStore := {}
  /-- The builtin predicates. -/
  builtin : ClauseStore := {}
  deriving Inhabited

/-- What an insertion leaves: the error, if any, the knowledge base, and what a debug log tells. -/
structure Insertion where
  /-- Why it was refused. -/
  error : Option StoreError
  /-- The knowledge base afterwards. -/
  base : KnowledgeBase
  /-- The entries for the debug log. -/
  log : List LogEntry

namespace KnowledgeBase

/-- Insert a clause of the user. -/
def insertUser (kb : KnowledgeBase) (s : Signature) (clause : Option Clause) : Insertion :=
  if kb.builtin.contains s then ⟨some (.redefinesBuiltin s), kb, []⟩
  else match kb.user.insert s clause with
    | .error e => ⟨some e, kb, []⟩
    | .ok db =>
      let (e, db) := db.replaceAll ((clause.map Clause.descendants).getD [])
      ⟨e, { kb with user := db }, [.inserted "user" s]⟩

/-- Insert a clause of a builtin predicate. -/
def insertBuiltin (kb : KnowledgeBase) (s : Signature) (clause : Option Clause) : Insertion :=
  match kb.builtin.insert s clause with
  | .error e => ⟨some e, kb, []⟩
  | .ok db =>
    let (e, db) := db.replaceAll ((clause.map Clause.descendants).getD [])
    ⟨e, { kb with builtin := db }, [.inserted "builtin" s]⟩

/-- Make a clause the current query. -/
def setQuery (kb : KnowledgeBase) (clause : Option Clause) : Option StoreError × KnowledgeBase :=
  match clause with
  | none => (some .notAQuery, kb)
  | some q =>
    if !q.isQuery then (some .notAQuery, kb)
    else
      let (e, db) := (kb.user.put querySignature [q]).replaceAll q.descendants
      (e, { kb with user := db })

/-- One of the stores has the predicate. -/
def contains (kb : KnowledgeBase) (s : Signature) : Bool :=
  kb.user.contains s || kb.builtin.contains s

/-- The clauses of a predicate: the user's, else the builtin ones. -/
def get (kb : KnowledgeBase) (s : Signature) : Except StoreError (List Clause) :=
  match kb.user.get s with
  | .ok cs => .ok cs
  | .error _ => kb.builtin.get s

/-- The predicates of the user, without the query and auxiliary clauses. -/
def signatures (kb : KnowledgeBase) : List Signature :=
  kb.user.signatures.filter (fun s => s ≠ querySignature && !isAuxiliary s.text)

end KnowledgeBase

end PrologMachine
