/-
  PrologMachine.Machine.State ── **FRAMES AND MACHINE STATES.**

  The machine runs one instruction after the other against a stack of frames.  The bottom frame
  belongs to the query.  Every call pushes a frame, which stays on the stack as a choice point
  while its predicate may have further clauses.  Bindings are recorded on the trail of the top
  frame, so that leaving it undoes them.

  Frames are kept in a table and the stack refers to them: control returns into frames out of
  stack order, and a frame may still be referred to when it is off the stack.
-/
import PrologMachine.KnowledgeBase
import PrologMachine.Native.Basic

namespace PrologMachine

/-! ## §1. Frames. -/

/-- The number of a frame in the table. -/
abbrev FrameId := Nat

/-- A pending alternative of a disjunction: where to go on when a failure finds the stack `depth`
    frames deep.  Bindings on the top trail behind the first `mark` ones are undone first. -/
structure Alternative where
  /-- The label to jump to. -/
  label : String
  /-- The depth of the stack when the alternative was recorded. -/
  depth : Nat
  /-- The length of the top trail then. -/
  mark : Nat
  deriving DecidableEq, Repr

/-- Where a call returns to. -/
structure ReturnPoint where
  /-- The code of the caller. -/
  code : Option Clause
  /-- The block there. -/
  label : String
  /-- The instruction in the block. -/
  index : Nat
  /-- The frame of the caller. -/
  frame : FrameId
  /-- The pending alternatives of the caller, newest first. -/
  alternatives : List Alternative

/-- A stack frame. -/
structure Frame where
  /-- The depth of the stack when the frame was pushed. -/
  position : Nat
  /-- Variables and registers. -/
  vars : List (String × Value) := []
  /-- Where the call returns to, once it is set up. -/
  returnPoint : Option ReturnPoint := none
  /-- The variables to unbind when the frame is left, newest first. -/
  trail : List VarId := []
  /-- The clause being tried, counted from zero. -/
  clause : Nat := 0
  /-- How many clauses there are to try. -/
  clauses : Nat := 0
  /-- The stack index that backtracking into this frame unwinds down to. -/
  cutTo : Option Nat := none
  /-- A cut ran in the clause: no other clause may be tried. -/
  committed : Bool := false
  /-- The pending alternatives of the clause, newest first. -/
  alternatives : List Alternative := []
  deriving Inhabited

namespace Frame

/-- The value of a variable or register. -/
def get? (f : Frame) (name : String) : Option Value := f.vars.lookup name

/-- Set a variable or register. -/
def put (f : Frame) (name : String) (t : Value) : Frame :=
  if (f.vars.lookup name).isSome then
    { f with vars := f.vars.map (fun e => if e.1 = name then (name, t) else e) }
  else { f with vars := (name, t) :: f.vars }

end Frame

/-- The name belongs to a machine register. -/
def isRegister (name : String) : Bool := ['$'].isPrefixOf name.toList

/-- The name belongs to a structure register. -/
def isStructRegister (name : String) : Bool := ['$', 'x'].isPrefixOf name.toList

/-! ## §2. Machines. -/

/-- How the arguments of the present structure are treated. -/
inductive Mode where
  /-- They are there and are compared. -/
  | read
  /-- They are missing and are added. -/
  | write
  deriving DecidableEq, Repr, Inhabited

/-- How far a search has come. -/
inductive Status where
  /-- Neither an answer nor the end. -/
  | paused
  /-- The query variables hold an answer. -/
  | answer
  /-- There are no more answers. -/
  | exhausted
  deriving DecidableEq, Repr, Inhabited

/-- The name of a status. -/
def Status.text : Status → String
  | .paused => "paused"
  | .answer => "answer"
  | .exhausted => "exhausted"

/-- The name of the status with number `n`. -/
def Status.textOf (n : Nat) : String :=
  match ([.paused, .answer, .exhausted] : List Status)[n]? with
  | some s => s.text
  | none => "unknown"

/-- The state of a machine. -/
structure Machine where
  /-- The cells. -/
  heap : Heap := {}
  /-- A question was set. -/
  asked : Bool := false
  /-- The code being run. -/
  code : Option Clause := none
  /-- The block being run. -/
  label : String := ""
  /-- The next instruction in the block. -/
  index : Nat := 0
  /-- The last goal succeeded. -/
  success : Bool := false
  /-- How the arguments of the present structure are treated. -/
  mode : Mode := .read
  /-- The structure being decoded. -/
  decoding : Option StructId := none
  /-- The next argument to decode. -/
  argument : Nat := 0
  /-- The register of the structure being decoded. -/
  register : String := ""
  /-- The structure under construction. -/
  building : Option StructId := none
  /-- All frames of the run. -/
  frames : Array Frame := #[]
  /-- The stack, bottom first. -/
  stack : Array FrameId := #[]
  /-- The frame of the call under construction or just returned from. -/
  target : Option FrameId := none
  /-- The frame of the clause being run. -/
  current : FrameId := 0
  /-- The search stopped: at an answer, at its end, or by an error. -/
  ended : Bool := false
  /-- There are no more answers. -/
  exhausted : Bool := false
  /-- Instructions run in the search for the present answer. -/
  steps : Nat := 0
  /-- The error that stopped the machine. -/
  error : Option Error := none
  /-- What was written and logged. -/
  transcript : Transcript := {}
  deriving Inhabited

/-- What a machine works with and does not change. -/
structure World where
  /-- The clauses. -/
  base : KnowledgeBase := {}
  /-- The native predicates. -/
  natives : Registry := {}
  /-- The most instructions for one answer; zero or less for no limit. -/
  maxSteps : Int := 0
  /-- A call of a predicate without clauses fails instead of being an error. -/
  unknownFails : Bool := false
  /-- Log every instruction. -/
  debug : Bool := false
  /-- What the output complains about whenever it is written to. -/
  complaint : Option String := none

namespace Machine

/-- The frame of the query in the frame table. -/
def queryFrame : FrameId := 0

/-- The number of frames on the stack. -/
def depth (m : Machine) : Nat := m.stack.size

/-- The frame on top of the stack. -/
def top? (m : Machine) : Option FrameId := m.stack.back?

/-- A frame of the table; an empty one for a number that has none. -/
def frame (m : Machine) (f : FrameId) : Frame := (m.frames[f]?).getD { position := 0 }

/-- Change a frame. -/
def changeFrame (m : Machine) (f : FrameId) (g : Frame → Frame) : Machine :=
  { m with frames := m.frames.modify f g }

/-- Record a bound variable on the top trail. -/
def trail (m : Machine) (v : VarId) : Machine :=
  match m.top? with
  | some f => m.changeFrame f (fun fr => { fr with trail := v :: fr.trail })
  | none => m

/-- Record bound variables, given newest first, on the top trail. -/
def trailAll (m : Machine) (vs : List VarId) : Machine :=
  match m.top? with
  | some f => m.changeFrame f (fun fr => { fr with trail := vs ++ fr.trail })
  | none => m

/-- How far the search has come. -/
def status (m : Machine) : Status :=
  if !m.ended then .paused else if m.exhausted then .exhausted else .answer

/-- The named variables of the query with their cells. -/
def queryVars (m : Machine) : List (String × VarId) :=
  (m.frame queryFrame).vars.filterMap (fun (name, t) =>
    if isRegister name || isAnonymous name then none
    else match t with
      | .var v => some (name, v)
      | _ => none)

/-- Unify two terms and record the bindings. -/
def unify (m : Machine) (a b : Value) : Bool × Machine :=
  let (ok, u) := m.heap.unify a b
  (ok, { m with heap := u.heap }.trailAll u.bound)

/-- Set a question: the clause becomes the current query of the knowledge base and the machine
    starts over.  Cells stay. -/
def ask (m : Machine) (kb : KnowledgeBase) (question : Option Clause) :
    Option Error × KnowledgeBase × Machine :=
  let (e, kb) := kb.setQuery question
  match e with
  | some e => (some (.storing e), kb, m)
  | none =>
    (none, kb,
      { heap := m.heap, transcript := m.transcript, asked := true, code := question,
        label := bodyLabel, success := true, frames := #[{ position := 0 }], stack := #[0],
        target := some queryFrame, current := queryFrame })

end Machine

end PrologMachine
