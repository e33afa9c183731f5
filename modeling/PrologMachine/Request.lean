/-
  PrologMachine.Request ── **ONE REQUEST, ONE RESPONSE.**

  A request holds a program and a query; the response holds the solutions found and the error, if
  one ended the search.  An error before the search leaves no list of solutions at all.  All
  libraries are loaded, and what the program writes is dropped.
-/
import PrologMachine.Session.Basic

namespace PrologMachine

/-- A program and a query. -/
structure Request where
  /-- The program text. -/
  program : String := ""
  /-- The query. -/
  query : String := ""
  /-- The most solutions to look for; zero or less for no limit. -/
  maxSolutions : Int := 0
  /-- The most instructions for one solution; zero or less for no limit. -/
  maxSteps : Int := 0
  deriving DecidableEq, Repr

/-- The answer to a request. -/
structure Response where
  /-- The solutions, if the search was begun. -/
  solutions : Option (List Solution)
  /-- The message of the error. -/
  error : Option String
  deriving DecidableEq, Repr

/-- The exit code that goes with a response. -/
def Response.exitCode (r : Response) : Nat := if r.error.isSome then 1 else 0

namespace Request

/-- The session that answers a request. -/
def options (r : Request) (patience : Nat) : SessionOptions :=
  { maxSteps := r.maxSteps, libraries := Library.all, patience }

/-- How many solutions to look for. -/
def limit (r : Request) (patience : Nat) : Nat :=
  if r.maxSolutions ≤ 0 then patience else r.maxSolutions.toNat

/-- Answer a request; a search without a limit takes at most `patience` steps and solutions. -/
def respond (r : Request) (patience : Nat) : Response :=
  match Session.start (r.options patience) with
  | (some e, _) => ⟨none, some e.message⟩
  | (none, s) =>
    match s.consult r.program with
    | (some e, _) => ⟨none, some e.message⟩
    | (none, s) =>
      match s.query r.query with
      | (.error e, _) => ⟨none, some e.message⟩
      | (.ok q, s) =>
        let (found, e, _) := q.upTo s.world false patience (r.limit patience)
        ⟨some found, e.map Error.message⟩

end Request

end PrologMachine
