/-
  PrologMachine.Transcript ── **WHAT A RUN WRITES AND LOGS.**
-/
import PrologMachine.Code.Clause

namespace PrologMachine

/-- How important a log entry is. -/
inductive Level where
  /-- Tracing. -/
  | debug
  /-- For information. -/
  | info
  /-- Something to look at. -/
  | warn
  deriving DecidableEq, Repr

/-- The name of a level. -/
def Level.text : Level → String
  | .debug => "DEBUG"
  | .info => "INFO"
  | .warn => "WARN"

/-- A log entry: a message with named values. -/
structure LogEntry where
  /-- The level. -/
  level : Level
  /-- The message. -/
  message : String
  /-- The values in order. -/
  fields : List (String × String)
  deriving DecidableEq, Repr

/-- The log line of an entry. -/
def LogEntry.text (e : LogEntry) : String :=
  e.level.text ++ " " ++ e.message ++
    String.join (e.fields.map (fun f => " " ++ f.1 ++ "=" ++ f.2))

/-- The entry for a compiled clause. -/
def LogEntry.compiled (c : Clause) : LogEntry :=
  ⟨.debug, "compiled",
    [("signature", c.signature.text), ("labels", wholeText c.code.length)]⟩

/-- The entry for a clause put into a store. -/
def LogEntry.inserted (store : String) (s : Signature) : LogEntry :=
  ⟨.debug, "insert", [("db", store), ("signature", s.text)]⟩

/-- The entry for an instruction about to run. -/
def LogEntry.step (i : Instruction) (s : Signature) (label : String) (depth : Nat) : LogEntry :=
  ⟨.debug, "step",
    [("inst", i.text), ("clause", s.text), ("label", label), ("depth", wholeText depth)]⟩

/-- The entry for a directive without a solution. -/
def LogEntry.directiveFailed (goal : String) : LogEntry :=
  ⟨.warn, "directive failed", [("goal", goal)]⟩

/-- Text written and entries logged, in order. -/
structure Transcript where
  /-- The text written. -/
  output : String := ""
  /-- The log, newest entry first. -/
  newestFirst : List LogEntry := []
  deriving DecidableEq, Repr, Inhabited

namespace Transcript

/-- Write text. -/
def write (t : Transcript) (s : String) : Transcript := { t with output := t.output ++ s }

/-- Log an entry. -/
def log (t : Transcript) (e : LogEntry) : Transcript :=
  { t with newestFirst := e :: t.newestFirst }

/-- Log an entry if `enabled`. -/
def logIf (t : Transcript) (enabled : Bool) (e : LogEntry) : Transcript :=
  if enabled then t.log e else t

/-- One transcript and then another. -/
def append (a b : Transcript) : Transcript :=
  ⟨a.output ++ b.output, b.newestFirst ++ a.newestFirst⟩

/-- The log in order. -/
def entries (t : Transcript) : List LogEntry := t.newestFirst.reverse

end Transcript

end PrologMachine
