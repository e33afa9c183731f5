/-
  PrologMachine.Console.Flags ── **THE FLAGS OF A RUN.**

  Flags come before the first other argument and start with one dash or two.  A value follows as
  the next argument or behind an equals sign; a switch takes a value only behind an equals sign.
  Two dashes alone end the flags.  The last setting of a flag counts.
-/
import PrologMachine.Number.Literal
import PrologMachine.Text.Quoted

namespace PrologMachine.Console

open PrologMachine.Text (quoted)

/-! ## §1. Flags and their values. -/

/-- What the flags of a run set. -/
structure RunFlags where
  /-- The query to answer; empty for none. -/
  query : String := ""
  /-- Print every solution. -/
  all : Bool := false
  /-- Trace compilation and execution. -/
  debug : Bool := false
  /-- The most instructions for one solution; zero or less for no limit. -/
  maxSteps : Int := 0
  /-- The time allowed for one solution in nanoseconds; zero or less for no limit. -/
  timeout : Int := 0
  deriving DecidableEq, Repr

/-- A flag of a run. -/
inductive Flag where
  /-- The switch for all solutions. -/
  | all
  /-- The switch for tracing. -/
  | debug
  /-- The step limit. -/
  | maxSteps
  /-- The query. -/
  | query
  /-- The time limit. -/
  | timeout
  deriving DecidableEq, Repr

namespace Flag

/-- The flags in the order of the help text. -/
def listed : List Flag := [.all, .debug, .maxSteps, .query, .timeout]

/-- The name of a flag. -/
def name : Flag → String
  | .all => "all"
  | .debug => "debug"
  | .maxSteps => "max-steps"
  | .query => "q"
  | .timeout => "timeout"

/-- The flag with a name. -/
def ofName? (name : String) : Option Flag := listed.find? (fun f => f.name == name)

/-- The flag takes no value unless one stands behind an equals sign. -/
def isSwitch : Flag → Bool
  | .all => true
  | .debug => true
  | _ => false

/-- What the value of a flag is called in the help text. -/
def valueName : Flag → String
  | .maxSteps => " int"
  | .query => " string"
  | .timeout => " duration"
  | _ => ""

/-- What a flag is for. -/
def purpose : Flag → String
  | .all => "print every solution instead of the first"
  | .debug => "trace compilation and execution"
  | .maxSteps => "bound the steps spent per solution (0 = unlimited)"
  | .query => "query to answer after consulting the program"
  | .timeout => "bound the time spent per solution (0 = unlimited)"

/-- The help text of a flag. -/
def help (f : Flag) : String := "  -" ++ f.name ++ f.valueName ++ "\n    \t" ++ f.purpose ++ "\n"

end Flag

/-- The help text of all flags. -/
def flagHelp : String := "Usage of run:\n" ++ String.join (Flag.listed.map Flag.help)

/-! ## §2. Faults. -/

/-- What is wrong with the flags. -/
inductive FlagFault where
  /-- Dashes without a proper name. -/
  | badForm (argument : String)
  /-- A flag that does not exist. -/
  | undefined (name : String)
  /-- Help was asked for. -/
  | helpWanted
  /-- The value of a switch is no truth value. -/
  | badSwitch (flag : Flag) (value : String)
  /-- A flag at the end without its value. -/
  | valueMissing (flag : Flag)
  /-- A value that the flag does not take. -/
  | badValue (flag : Flag) (value : String) (outOfRange : Bool)
  deriving DecidableEq, Repr

/-- The message of a fault. -/
def FlagFault.message : FlagFault → String
  | .badForm a => "bad flag syntax: " ++ a ++ "\n"
  | .undefined n => "flag provided but not defined: -" ++ n ++ "\n"
  | .helpWanted => ""
  | .badSwitch f v =>
    "invalid boolean value " ++ quoted v ++ " for -" ++ f.name ++ ": parse error\n"
  | .valueMissing f => "flag needs an argument: -" ++ f.name ++ "\n"
  | .badValue f v outOfRange =>
    "invalid value " ++ quoted v ++ " for flag -" ++ f.name ++ ": " ++
      (if outOfRange then "value out of range" else "parse error") ++ "\n"

/-! ## §3. Reading. -/

/-- The truth value that a text denotes. -/
def readSwitch? (value : String) : Option Bool :=
  if ["1", "t", "T", "TRUE", "true", "True"].contains value then some true
  else if ["0", "f", "F", "FALSE", "false", "False"].contains value then some false
  else none

namespace RunFlags

/-- Set a switch. -/
def setSwitch (r : RunFlags) (f : Flag) (on : Bool) : RunFlags :=
  match f with
  | .all => { r with all := on }
  | .debug => { r with debug := on }
  | _ => r

/-- Set a flag to a value. -/
def set (r : RunFlags) (f : Flag) (value : String) : Except FlagFault RunFlags :=
  match f with
  | .all | .debug =>
    match readSwitch? value with
    | some on => .ok (r.setSwitch f on)
    | none => .error (.badSwitch f value)
  | .query => .ok { r with query := value }
  | .maxSteps =>
    match Number.readLiteral value.toList with
    | .ok n => .ok { r with maxSteps := n }
    | .error fault => .error (.badValue f value (fault == .outOfRange))
  | .timeout =>
    match Number.readDuration value.toList with
    | some n => .ok { r with timeout := n }
    | none => .error (.badValue f value false)

end RunFlags

/-- What an argument is to the flag reader. -/
inductive Argument where
  /-- A flag by name, with the value behind its equals sign. -/
  | flag (name : String) (value : Option String)
  /-- Dashes without a proper name. -/
  | malformed
  /-- Two dashes alone. -/
  | stop
  /-- Anything else. -/
  | operand
  deriving DecidableEq, Repr

/-- What stands behind the dashes: a name and perhaps a value. -/
def splitFlag (body : List Char) : Argument :=
  match body with
  | [] => .malformed
  | '-' :: _ => .malformed
  | '=' :: _ => .malformed
  | c :: cs =>
    match cs.span (· ≠ '=') with
    | (name, []) => .flag (String.ofList (c :: name)) none
    | (name, _ :: value) => .flag (String.ofList (c :: name)) (some (String.ofList value))

/-- Tell flags from other arguments. -/
def Argument.ofText (argument : String) : Argument :=
  match argument.toList with
  | ['-'] => .operand
  | ['-', '-'] => .stop
  | '-' :: '-' :: body => splitFlag body
  | '-' :: body => splitFlag body
  | _ => .operand

/-- Read the flags at the start of the arguments; the other arguments are left. -/
def readFlags (r : RunFlags) : List String → Except FlagFault (RunFlags × List String)
  | [] => .ok (r, [])
  | a :: rest =>
    match Argument.ofText a with
    | .operand => .ok (r, a :: rest)
    | .stop => .ok (r, rest)
    | .malformed => .error (.badForm a)
    | .flag name value =>
      match Flag.ofName? name with
      | none => .error (if name = "help" || name = "h" then .helpWanted else .undefined name)
      | some f =>
        match value with
        | some v =>
          match r.set f v with
          | .error e => .error e
          | .ok r => readFlags r rest
        | none =>
          if f.isSwitch then readFlags (r.setSwitch f true) rest
          else match rest with
            | [] => .error (.valueMissing f)
            | v :: rest =>
              match r.set f v with
              | .error e => .error e
              | .ok r => readFlags r rest

end PrologMachine.Console
