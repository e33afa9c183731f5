/-
  PrologMachine.Session.Basic ── **SESSIONS.**

  A session holds a program and answers queries against it.  It is opened with native predicates
  and libraries, both of which user programs cannot redefine.  Queries may be compiled once and
  kept in a cache.

    * `Session.consult` adds the clauses of a program and runs its directives where they stand.
    * `Session.query` compiles a question and sets up the search for its solutions.
    * `Session.listing` disassembles a predicate.

  A search without a limit takes at most `SessionOptions.patience` steps for one answer; whoever
  opens a session chooses it beyond any search.
-/
import PrologMachine.Compiler
import PrologMachine.Library
import PrologMachine.Native.Core
import PrologMachine.Reader
import PrologMachine.RecencyCache
import PrologMachine.Session.Solutions
import PrologMachine.Text.Blank

namespace PrologMachine

/-- The version of this system. -/
def version : String := "v0.1.0-dev"

/-! ## §1. Options. -/

/-- How queries are cached. -/
inductive Caching where
  /-- Not at all. -/
  | off
  /-- In a cache of this capacity. -/
  | sized (capacity : Int)
  /-- In a cache that was used before. -/
  | given (cache : RecencyCache Clause)

/-- How a session works. -/
structure SessionOptions where
  /-- Log compilation, insertions and instructions. -/
  debug : Bool := false
  /-- The most instructions for one answer; zero or less for no limit. -/
  maxSteps : Int := 0
  /-- A call of an undefined predicate fails instead of being an error. -/
  unknownFails : Bool := false
  /-- Libraries to load. -/
  libraries : List Library := []
  /-- Native predicates besides the standard ones. -/
  natives : List Builtin := []
  /-- How queries are cached. -/
  caching : Caching := .off
  /-- Tells the constants of this session from those of others that share its cache. -/
  id : Nat := 0
  /-- The steps that a search without a limit may take for one answer. -/
  patience : Nat

/-- The state of a session. -/
structure Session where
  /-- How it works. -/
  options : SessionOptions
  /-- The native predicates. -/
  natives : Registry
  /-- The clauses. -/
  base : KnowledgeBase
  /-- The compiler. -/
  compiler : Compiler
  /-- The cache of compiled queries. -/
  cache : Option (RecencyCache Clause)
  /-- What was written and logged. -/
  transcript : Transcript

namespace Session

/-- Log an entry. -/
def log (s : Session) (e : LogEntry) : Session := { s with transcript := s.transcript.log e }

/-- Log an entry that only a debug log shows. -/
def logDebug (s : Session) (e : LogEntry) : Session :=
  { s with transcript := s.transcript.logIf s.options.debug e }

/-- What the machines of a session work with. -/
def world (s : Session) : World :=
  { base := s.base, natives := s.natives, maxSteps := s.options.maxSteps,
    unknownFails := s.options.unknownFails, debug := s.options.debug }

/-! ## §2. Compiling and asking. -/

/-- Compile with the compiler of the session. -/
def compileWith (s : Session) (f : Compiler → Except CompileError Clause × Compiler) :
    Except Error Clause × Session :=
  match f s.compiler with
  | (.error e, c) => (.error (.compiling e), { s with compiler := c })
  | (.ok clause, c) => (.ok clause, { s with compiler := c }.logDebug (.compiled clause))

/-- Set up the search for the solutions of a compiled query. -/
def solutions (s : Session) (q : Clause) : Except Error Solutions × Session :=
  match ({} : Machine).ask s.base (some q) with
  | (some e, base, _) => (.error e, { s with base })
  | (none, base, m) => (.ok { machine := m }, { s with base })

/-- Run a search in the session and take over what it wrote and logged. -/
def search {α : Type} (s : Session) (q : Solutions) (f : World → Solutions → α × Solutions) :
    α × Solutions × Session :=
  let (a, q) := f s.world q
  let (t, q) := q.drain
  (a, q, { s with transcript := s.transcript.append t })

/-- Look for the next solution of a search. -/
def next (s : Session) (q : Solutions) : (Option Solution × Option Error) × Solutions × Session :=
  s.search q (fun w q =>
    let (found, e, q) := q.next w false s.options.patience
    ((found, e), q))

/-! ## §3. Loading programs. -/

/-- Where the clauses of a program go. -/
inductive Destination where
  /-- To the user's clauses. -/
  | user
  /-- To the builtin predicates. -/
  | builtin
  deriving DecidableEq, Repr

/-- Insert a compiled clause. -/
def insert (s : Session) (d : Destination) (c : Clause) : Option Error × Session :=
  let i := match d with
    | .user => s.base.insertUser c.signature (some c)
    | .builtin => s.base.insertBuiltin c.signature (some c)
  (i.error.map .storing, i.log.foldl logDebug { s with base := i.base })

/-- Run a directive once; one without a solution is logged. -/
def runDirective (s : Session) (goal : Term) : Option Error × Session :=
  match s.compileWith (·.query goal) with
  | (.error e, s) => (some e, s)
  | (.ok q, s) =>
    match s.solutions q with
    | (.error e, s) => (some e, s)
    | (.ok sols, s) =>
      let ((found, e), _, s) := s.next sols
      match e with
      | some e => (some e, s)
      | none => (none, if found.isSome then s else s.log (.directiveFailed goal.text))

/-- Compile and insert one clause, or run a directive. -/
def loadTerm (s : Session) (d : Destination) (t : Term) : Option Error × Session :=
  match t with
  | .app "query" [goal] _ _ => s.runDirective goal
  | _ =>
    match s.compileWith (·.clause t) with
    | (.error e, s) => (some e, s)
    | (.ok c, s) => s.insert d c

/-- Load terms in order, up to the first error. -/
def loadTerms (d : Destination) : List Term → Session → Option Error × Session
  | [], s => (none, s)
  | t :: ts, s =>
    match s.loadTerm d t with
    | (some e, s) => (some e, s)
    | (none, s) => loadTerms d ts s

/-- Load a program; one that cannot be read to its end loads nothing. -/
def load (s : Session) (d : Destination) (source : String) : Option Error × Session :=
  match readProgram {} source 0 with
  | .error e => (some (.reading e), s)
  | .ok ts => loadTerms d ts s

/-- Add the clauses of a program to those of the user. -/
def consult (s : Session) (source : String) : Option Error × Session := s.load .user source

/-- Load libraries in order, up to the first error. -/
def loadLibraries : List Library → Session → Option Error × Session
  | [], s => (none, s)
  | l :: ls, s =>
    match s.load .builtin l.source with
    | (some e, s) => (some (.within ("library " ++ l.name) e), s)
    | (none, s) => loadLibraries ls s

/-! ## §4. Opening. -/

/-- The cache that a session starts with. -/
def startCache : Caching → Option (RecencyCache Clause)
  | .off => none
  | .sized n => some (.empty n)
  | .given c => some c

/-- Open a session.  When it fails, the session shows what was written and logged before. -/
def start (options : SessionOptions) : Option Error × Session :=
  let blank (natives : Registry) : Session :=
    { options, natives, base := {}, transcript := {}, cache := startCache options.caching
      compiler := { id := options.id, natives := natives.signatures } }
  match Registry.core.registerAll options.natives with
  | .error e => (some (.storing e), blank .core)
  | .ok natives =>
    let (base, log) := ({} : KnowledgeBase).installNatives natives
    loadLibraries options.libraries (log.foldl logDebug { blank natives with base })

/-! ## §5. Queries. -/

/-- The text of a question, trimmed and with its full stop. -/
def questionText (source : String) : String :=
  let cs := Text.trimBlanks source.toList
  String.ofList (if cs.getLast? = some '.' then cs else cs ++ ['.'])

/-- Read and compile a question. -/
def compileQuestion (question : String) (s : Session) : Except Error Clause × Session :=
  match readClause {} question 0 with
  | .error e => (.error (.reading e), s)
  | .ok t => s.compileWith (·.query t)

/-- Compile a question, or find it in the cache. -/
def compiledQuestion (s : Session) (question : String) : Except Error Clause × Session :=
  match s.cache with
  | none => compileQuestion question s
  | some cache =>
    let (r, _, cache, s) := cache.getOrMake question (compileQuestion question) s
    (r, { s with cache := some cache })

/-- Ask a question; its full stop may be left out. -/
def query (s : Session) (source : String) : Except Error Solutions × Session :=
  match s.compiledQuestion (questionText source) with
  | (.error e, s) => (.error e, s)
  | (.ok q, s) => s.solutions q

/-! ## §6. Listings. -/

/-- A text split at its last slash. -/
def splitIndicator (gs : List Text.Glyph) : Option (List Text.Glyph × List Text.Glyph) :=
  match gs.reverse.span (· ≠ .whole '/') with
  | (_, []) => none
  | (digits, _ :: name) => some (name.reverse, digits.reverse)

/-- The signature that a text `name/arity` denotes. -/
def readSignature (indicator : List Text.Glyph) : Except StoreError Signature :=
  match splitIndicator indicator with
  | none => .error (.badIndicator indicator none)
  | some ([], _) => .error (.badIndicator indicator none)
  | some (name, digits) =>
    match Number.readWhole (digits.map Text.Glyph.face) with
    | .error f => .error (.badIndicator indicator (some (digits, f)))
    | .ok arity => .ok ⟨Text.faces name, arity⟩

/-- The disassembled clauses of a predicate. -/
def listing (s : Session) (indicator : List Text.Glyph) : Except Error String :=
  match readSignature indicator with
  | .error e => .error (.storing e)
  | .ok sig =>
    match s.base.get sig with
    | .error e => .error (.storing e)
    | .ok cs => .ok (Clause.texts cs)

/-- The predicates that consulted programs define. -/
def predicates (s : Session) : List String := s.base.signatures.map Signature.text

/-- Take what was written and logged. -/
def drain (s : Session) : Transcript × Session := (s.transcript, { s with transcript := {} })

end Session

/-! ## §7. One program, one question. -/

/-- What solving leaves: the solutions found, the error that ended the search, and what was
    written and logged. -/
structure Solved where
  /-- The solutions. -/
  solutions : List Solution
  /-- The error. -/
  error : Option Error
  /-- What was written and logged. -/
  transcript : Transcript

/-- Consult a program in a new session and find at most `limit` solutions of a query. -/
def solve (options : SessionOptions) (limit : Nat) (program question : String) : Solved :=
  match Session.start options with
  | (some e, s) => ⟨[], some e, s.transcript⟩
  | (none, s) =>
    match s.consult program with
    | (some e, s) => ⟨[], some e, s.transcript⟩
    | (none, s) =>
      match s.query question with
      | (.error e, s) => ⟨[], some e, s.transcript⟩
      | (.ok sols, s) =>
        let ((found, e), _, s) := s.search sols (fun w q =>
          let (found, e, q) := q.upTo w false options.patience limit
          ((found, e), q))
        ⟨found, e, s.transcript⟩

end PrologMachine
