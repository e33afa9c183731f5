/-
  PrologMachine.Native.Basic ── **NATIVE PREDICATES AS EFFECTS.**

  A native predicate is described by what it asks of its surroundings, one request after the
  other: to unify two terms, to look at the heap, to make a constant, a variable or a structure, to
  write, to log; in the end it succeeds, fails or gives up with an error.  It has no other access to
  the heap, so whatever it binds is bound by unification and reported.

    * `Native.run` carries the requests out.
    * `Registry` is the set of native predicates, at most one for a name and arity.
-/
import PrologMachine.Error
import PrologMachine.Heap.Unify
import PrologMachine.Heap.Writer
import PrologMachine.Transcript

namespace PrologMachine

/-! ## §1. Effects. -/

/-- What a native predicate does. -/
inductive Native where
  /-- Succeed or fail. -/
  | done (ok : Bool)
  /-- Give up. -/
  | raise (text : String)
  /-- Unify two terms and go on with the outcome. -/
  | unify (a b : Value) (next : Bool → Native)
  /-- Look at the heap. -/
  | look (next : Heap → Native)
  /-- Make a constant. -/
  | constant (value : Atomic) (next : Constant → Native)
  /-- Make an unbound variable. -/
  | newVar (name : String) (id : Int) (next : VarId → Native)
  /-- Make a structure. -/
  | newStruct (name : String) (args : List Value) (next : StructId → Native)
  /-- Write text; the output may complain. -/
  | write (text : String) (next : Option String → Native)
  /-- Log an entry. -/
  | log (entry : LogEntry) (next : Native)

/-- The surroundings of a native predicate. -/
structure Scene where
  /-- The cells. -/
  heap : Heap
  /-- The variables bound so far, newest first. -/
  bound : List VarId
  /-- What was written and logged so far. -/
  transcript : Transcript
  /-- What the output complains about whenever it is written to. -/
  complaint : Option String

/-- Carry out the requests of a native predicate. -/
def Native.run : Native → Scene → Except String Bool × Scene
  | .done ok, s => (.ok ok, s)
  | .raise text, s => (.error text, s)
  | .unify a b next, s =>
    let (ok, u) := s.heap.unify a b
    (next ok).run { s with heap := u.heap, bound := u.bound ++ s.bound }
  | .look next, s => (next s.heap).run s
  | .constant value next, s =>
    let (c, heap) := s.heap.newConst value
    (next c).run { s with heap }
  | .newVar name id next, s =>
    let (v, heap) := s.heap.newVar name id
    (next v).run { s with heap }
  | .newStruct name args next, s =>
    let (c, heap) := s.heap.newStruct name args .none
    (next c).run { s with heap }
  | .write text next, s =>
    match s.complaint with
    | some c => (next (some c)).run s
    | none => (next none).run { s with transcript := s.transcript.write text }
  | .log entry next, s => next.run { s with transcript := s.transcript.log entry }

/-! ## §2. Definitions. -/

/-- A native predicate: its name, its arity and its function. -/
structure Builtin where
  /-- The functor. -/
  name : String
  /-- The number of arguments. -/
  arity : Int
  /-- What it does with its arguments. -/
  function : Option (List Value → Native)

namespace Builtin

/-- The name and arity of a native predicate. -/
def signature (b : Builtin) : Signature := ⟨b.name, b.arity⟩

/-- Call a native predicate.  Its errors are put into its context. -/
def call (b : Builtin) (args : List Value) (s : Scene) : Except Error Bool × Scene :=
  if (args.length : Int) ≠ b.arity then
    (.error (.running (.wrongArgumentCount b.signature args.length)), s)
  else match b.function with
    | none => (.error (.running (.noHandler b.signature)), s)
    | some f =>
      match (f args).run s with
      | (.ok ok, s) => (.ok ok, s)
      | (.error text, s) =>
        (.error (.within ("builtin " ++ b.signature.text) (.external text)), s)

end Builtin

/-! ## §3. Registries. -/

/-- The native predicates, in the order of registration. -/
structure Registry where
  /-- The definitions. -/
  builtins : List Builtin := []

namespace Registry

/-- The native predicate with a signature. -/
def lookup? (r : Registry) (s : Signature) : Option Builtin :=
  r.builtins.find? (fun b => b.signature == s)

/-- Some native predicate has the signature. -/
def contains (r : Registry) (s : Signature) : Bool := (r.lookup? s).isSome

/-- Register a native predicate.  It needs a name, an arity and a function, and a signature of
    its own. -/
def register (r : Registry) (b : Builtin) : Except StoreError Registry :=
  if b.name = "" || b.arity < 0 || b.function.isNone then .error (.badDefinition b.name)
  else if r.contains b.signature then .error (.alreadyRegistered b.signature)
  else .ok { r with builtins := r.builtins ++ [b] }

/-- Register native predicates in order, up to the first refusal. -/
def registerAll (r : Registry) : List Builtin → Except StoreError Registry
  | [] => .ok r
  | b :: bs =>
    match r.register b with
    | .error e => .error e
    | .ok r => r.registerAll bs

/-- The definitions in the order of their written signatures. -/
def sorted (r : Registry) : List Builtin :=
  r.builtins.mergeSort (fun a b => a.signature.textLe b.signature)

/-- The signatures of all native predicates. -/
def signatures (r : Registry) : List Signature := r.builtins.map Builtin.signature

end Registry

end PrologMachine
