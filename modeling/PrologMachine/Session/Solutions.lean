/-
  PrologMachine.Session.Solutions ── **THE ANSWERS OF ONE QUERY.**

  Solutions are found one at a time.  A run goes on where the last one stopped: behind an answer
  it looks for the next one, a paused or canceled search simply continues.  Once a search is over
  or has failed, every later run says so again.
-/
import PrologMachine.Machine.Run

namespace PrologMachine

/-- The value of each named query variable, in the order of the names. -/
structure Solution where
  /-- Names and values. -/
  bindings : List (String × String)
  deriving DecidableEq, Repr

/-- The text of a solution; one without variables is just true. -/
def Solution.text (s : Solution) : String :=
  match s.bindings with
  | [] => "true"
  | bs => ", ".intercalate (bs.map (fun b => b.1 ++ " = " ++ b.2))

/-- The solution that the query variables of a machine hold. -/
def Machine.solution (m : Machine) : Solution :=
  ⟨(m.queryVars.map (fun (name, v) => (name, m.heap.text (.var v)))).mergeSort
    (fun a b => decide (a.1 ≤ b.1))⟩

/-- A search for solutions. -/
structure Solutions where
  /-- The machine. -/
  machine : Machine
  /-- The last run found an answer. -/
  answered : Bool := false
  /-- The search is over. -/
  done : Bool := false
  /-- The error that ended it. -/
  error : Option Error := none

/-- What a run found. -/
structure Snapshot where
  /-- How far the search came. -/
  status : Status
  /-- The instructions executed. -/
  steps : Nat
  /-- The solution at an answer. -/
  solution : Option Solution
  /-- The error. -/
  error : Option Error

namespace Solutions

/-- End the search. -/
def finish (q : Solutions) (e : Option Error) : Solutions := { q with done := true, error := e }

/-- Run the machine of a search that is neither over nor at an answer. -/
def resumeSearch (w : World) (canceled : Bool) (budget : Nat) (q : Solutions) : Snapshot × Solutions :=
  let (o, m) := q.machine.run w canceled budget
  let q := { q with machine := m }
  match o.error with
  | some e =>
    if canceled && m.error.isNone then (⟨.paused, o.steps, none, some e⟩, q)
    else (⟨.exhausted, o.steps, none, some e⟩, q.finish (some e))
  | none =>
    match o.status with
    | .answer => (⟨.answer, o.steps, some m.solution, none⟩, { q with answered := true })
    | .exhausted => (⟨.exhausted, o.steps, none, none⟩, q.finish none)
    | .paused => (⟨.paused, o.steps, none, none⟩, q)

/-- Run up to `budget` instructions of the search. -/
def run (w : World) (canceled : Bool) (budget : Nat) (q : Solutions) : Snapshot × Solutions :=
  if q.done then (⟨.exhausted, 0, none, q.error⟩, q)
  else if q.answered then
    let (more, m) := q.machine.redo
    let q := { q with machine := m, answered := false }
    if more then q.resumeSearch w canceled budget
    else (⟨.exhausted, 0, none, m.error⟩, q.finish m.error)
  else q.resumeSearch w canceled budget

/-- Look for the next solution with a budget that no search uses up. -/
def next (w : World) (canceled : Bool) (patience : Nat) (q : Solutions) :
    Option Solution × Option Error × Solutions :=
  let (s, q) := q.run w canceled patience
  match s.error with
  | some e => (none, some e, q)
  | none => (s.solution, none, q)

/-- The solutions that are left, at most `n` of them, and the error that ended the search. -/
def upTo (w : World) (canceled : Bool) (patience : Nat) :
    (n : Nat) → Solutions → List Solution × Option Error × Solutions
  | 0, q => ([], none, q)
  | n + 1, q =>
    match q.next w canceled patience with
    | (none, e, q) => ([], e, q)
    | (some s, _, q) =>
      let (rest, e, q) := upTo w canceled patience n q
      (s :: rest, e, q)

/-- Take what was written and logged. -/
def drain (q : Solutions) : Transcript × Solutions :=
  (q.machine.transcript, { q with machine := { q.machine with transcript := {} } })

end Solutions

end PrologMachine
