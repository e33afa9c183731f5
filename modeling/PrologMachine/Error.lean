/-
  PrologMachine.Error ── **EVERYTHING THAT CAN GO WRONG, AND ITS WORDING.**

  Each stage has its own type of causes; a cause carries what its message shows.  The code of a
  cause names the stage by its first letter: P for reading, C for compiling, D for the clause
  stores, M for running.  All texts are given here and nowhere else.

    * `Error.code?`, `Error.message`, `Error.position`, `Error.token` and `Error.detail?` are what
      a caller shows of an error.
    * A context such as `library append/3` is put in front of the message and changes nothing
      else.
-/
import PrologMachine.Code.Opcode
import PrologMachine.Number.Numeral
import PrologMachine.Signature
import PrologMachine.Text.Quoted
import PrologMachine.Token

namespace PrologMachine

open PrologMachine.Text (Glyph quoted quotedGlyphs)

/-! ## §1. Reading. -/

/-- What the reader objects to. -/
inductive SyntaxFault where
  /-- Quoted text without its closing quote. -/
  | unclosedQuote
  /-- A block comment without its end. -/
  | unclosedComment
  /-- A character that starts no token. -/
  | unexpectedChar (c : Char)
  /-- More text after the one clause asked for. -/
  | textAfterClause
  /-- No clause where one was asked for. -/
  | emptyClause
  /-- The input ends where a term should start. -/
  | unexpectedEnd
  /-- The input ends where a certain token should stand. -/
  | expectedBeforeEnd (kind : TokenKind)
  /-- Another token stands where a certain one should. -/
  | expected (kind : TokenKind)
  /-- An operator whose left operand binds too loosely. -/
  | priorityClash (symbol : String)
  /-- Terms nested deeper than allowed. -/
  | tooDeep
  /-- A token that starts no term. -/
  | unexpectedToken
  /-- A number token that denotes no double. -/
  | badNumber (fault : Number.Fault)
  /-- Reading was cut short by its own bound, which no input reaches. -/
  | cutShort
  deriving DecidableEq, Repr

/-- A fault of the source text, with the token it was found at. -/
structure SyntaxError where
  /-- What is wrong. -/
  fault : SyntaxFault
  /-- The byte offset. -/
  position : Nat
  /-- The text of the token. -/
  token : String
  deriving DecidableEq, Repr

namespace SyntaxError

/-- The code of a syntax error. -/
def code (e : SyntaxError) : String :=
  match e.fault with
  | .unclosedQuote => "P0101"
  | .unclosedComment => "P0102"
  | .unexpectedChar _ | .textAfterClause | .expected _ | .tooDeep | .unexpectedToken => "P0103"
  | .emptyClause | .unexpectedEnd | .expectedBeforeEnd _ => "P0104"
  | .priorityClash _ => "P0105"
  | .badNumber _ => "P0106"
  | .cutShort => "P0103"

/-- The wording of a syntax error. -/
def text (e : SyntaxError) : String :=
  match e.fault with
  | .unclosedQuote => "Unterminated quoted text"
  | .unclosedComment => "Unclosed comment"
  | .unexpectedChar c => "Unexpected character " ++ String.ofList [c]
  | .textAfterClause => "Unexpected text after clause end"
  | .emptyClause => "Empty clause"
  | .unexpectedEnd => "Unexpected end of input"
  | .expectedBeforeEnd k => "Expected " ++ k.text ++ " before end of input"
  | .expected k => "Expected " ++ k.text ++ ", got " ++ quoted e.token
  | .priorityClash s => "Operator priority clash at " ++ s
  | .tooDeep => "Maximum nesting depth exceeded"
  | .unexpectedToken => "Unexpected token " ++ quoted e.token
  | .badNumber _ => "Invalid number literal"
  | .cutShort => "Reading was cut short"

/-- More text could complete the clause. -/
def incomplete (e : SyntaxError) : Bool :=
  match e.fault with
  | .unclosedQuote | .unclosedComment | .emptyClause | .unexpectedEnd | .expectedBeforeEnd _ =>
    true
  | _ => false

/-- Why a number could not be read. -/
def detail? (e : SyntaxError) : Option String :=
  match e.fault with
  | .badNumber f => some ("strconv.ParseFloat: parsing " ++ quoted e.token ++ ": " ++ f.text)
  | _ => none

end SyntaxError

/-! ## §2. Compiling. -/

/-- What the compiler objects to. -/
inductive CompileFault where
  /-- A question that is a rule or contains one. -/
  | ruleInQuestion
  /-- A question where a clause is expected. -/
  | questionAsClause
  /-- A control construct as clause head. -/
  | controlAsHead (name : String)
  /-- A clause head that is no functor. -/
  | headNotFunctor
  /-- A variable as clause head. -/
  | headVariable (name : String)
  /-- A rule inside a clause body. -/
  | ruleInBody
  /-- A goal that cannot be called. -/
  | goalNotCallable
  /-- A variable as goal. -/
  | goalVariable (name : String)
  /-- A compound that is no arithmetic expression. -/
  | notEvaluable (signature : Signature)
  /-- A missing operand. -/
  | missingOperand
  deriving DecidableEq, Repr

/-- A fault of a clause or question, with the place and token it was found at. -/
structure CompileError where
  /-- What is wrong. -/
  fault : CompileFault
  /-- The byte offset, -1 for none. -/
  position : Int := -1
  /-- The text of the constant at fault. -/
  token : String := ""
  deriving DecidableEq, Repr

namespace CompileError

/-- The code of a compile error. -/
def code (e : CompileError) : String :=
  match e.fault with
  | .headNotFunctor | .headVariable _ | .goalNotCallable | .goalVariable _ => "C0101"
  | .questionAsClause | .controlAsHead _ => "C0102"
  | .ruleInQuestion => "C0103"
  | .ruleInBody | .notEvaluable _ | .missingOperand => "C0104"

/-- The wording of a compile error. -/
def text (e : CompileError) : String :=
  match e.fault with
  | .ruleInQuestion => "a question cannot contain a rule"
  | .questionAsClause => "a question is not a clause"
  | .controlAsHead n => "invalid clause head " ++ n
  | .headNotFunctor => "clause head must be a functor"
  | .headVariable n => "clause head must be a functor, got variable " ++ n
  | .ruleInBody => "a rule cannot appear in a clause body"
  | .goalNotCallable => "goal must be callable"
  | .goalVariable n => "goal must be callable, got variable " ++ n
  | .notEvaluable s => s.text ++ " is not evaluable"
  | .missingOperand => "invalid arithmetic operand"

end CompileError

/-! ## §3. The clause stores and the native predicates. -/

/-- What the clause stores and the registry of native predicates object to. -/
inductive StoreError where
  /-- An insertion without name, arity or clause. -/
  | incompleteInsert (name : String) (arity : Int)
  /-- A clause without code that is not native either. -/
  | noCode (signature : Signature)
  /-- A predicate without clauses. -/
  | unknownPredicate (signature : Signature)
  /-- A clause number the predicate does not have. -/
  | noSuchClause (signature : Signature) (index : Int)
  /-- A user clause for a builtin predicate. -/
  | redefinesBuiltin (signature : Signature)
  /-- A clause set as question that is none. -/
  | notAQuery
  /-- A text that is no `name/arity`; the fault is that of the arity. -/
  | badIndicator (indicator : List Glyph) (arity : Option (List Glyph × Number.Fault))
  /-- A native predicate without name, arity or function. -/
  | badDefinition (name : String)
  /-- A native predicate that is there already. -/
  | alreadyRegistered (signature : Signature)
  deriving DecidableEq, Repr

namespace StoreError

/-- The code of a store error. -/
def code : StoreError → String
  | .unknownPredicate _ | .badIndicator _ _ => "D0101"
  | .noSuchClause _ _ => "D0102"
  | .redefinesBuiltin _ | .alreadyRegistered _ => "D0104"
  | .incompleteInsert _ _ | .noCode _ | .notAQuery | .badDefinition _ => "D0105"

/-- The wording of a store error. -/
def text : StoreError → String
  | .incompleteInsert n a =>
    "insert requires functor, arity and code (got " ++ quoted n ++ "/" ++ wholeText a ++ ")"
  | .noCode s => "clause " ++ s.text ++ " has no code"
  | .unknownPredicate s => "unknown predicate " ++ s.text
  | .noSuchClause s i => "predicate " ++ s.text ++ " has no clause " ++ wholeText i
  | .redefinesBuiltin s => "attempt to redefine builtin " ++ s.text
  | .notAQuery => "not a compiled query"
  | .badIndicator t _ => "invalid predicate indicator " ++ quotedGlyphs t
  | .badDefinition n => "invalid builtin definition " ++ quoted n
  | .alreadyRegistered s => "builtin " ++ s.text ++ " is already registered"

/-- Why an arity could not be read. -/
def detail? : StoreError → Option String
  | .badIndicator _ (some (digits, f)) =>
    some ("strconv.Atoi: parsing " ++ quotedGlyphs digits ++ ": " ++ f.text)
  | _ => none

end StoreError

/-! ## §4. Running. -/

/-- What stops the machine, or a binding made by hand. -/
inductive RunError where
  /-- Binding a variable that has a value. -/
  | alreadyBound (name value : String)
  /-- Binding a variable to a missing term. -/
  | bindToAbsent (name : String)
  /-- Binding a variable to itself. -/
  | bindToItself (name : String)
  /-- Unbinding a variable that has no value. -/
  | notBound (name : String)
  /-- Running without a question. -/
  | noQuestion
  /-- A jump to a label the clause does not have. -/
  | noLabel (clause : Signature) (label : String)
  /-- Code that ends without a control instruction. -/
  | ranOff (clause : Signature) (label : String)
  /-- More instructions than allowed for one solution. -/
  | stepLimit (limit : Int)
  /-- An opcode outside the vocabulary. -/
  | invalidInstruction (op : Opcode)
  /-- A call whose goal register holds no structure. -/
  | goalNotFunctor
  /-- A clause number beyond the clauses of the goal. -/
  | noClause (goal : Signature) (index : Nat)
  /-- A native clause whose predicate is not registered. -/
  | noHandler (goal : Signature)
  /-- A native predicate called with another number of arguments. -/
  | wrongArgumentCount (predicate : Signature) (count : Nat)
  /-- Popping the frame of the query. -/
  | popOfQuery
  /-- Decoding the same register twice. -/
  | decodedTwice (register : String)
  /-- Decoding an empty register. -/
  | emptyRegister (register : String)
  /-- Decoding a register that holds a missing term. -/
  | registerHoldsNothing (register : String)
  /-- Decoding more arguments than the structure has. -/
  | noArgumentLeft
  /-- Writing an argument without a structure. -/
  | noStructureToWrite
  /-- A constant instruction without a constant. -/
  | noConstant (op : Opcode)
  /-- Passing an argument without a goal under construction. -/
  | noGoalUnderConstruction
  /-- Passing an empty register. -/
  | emptyPut (register : String)
  /-- Pushing an operand before the operands were cleared. -/
  | pushWithoutPrepare
  /-- Pushing a missing term. -/
  | pushOfNothing
  /-- An operator without exactly two operands. -/
  | operandCount
  /-- An arithmetic operator without a place for its result. -/
  | noResultRegister (op : Opcode)
  /-- An operand that is no number. -/
  | notANumber (text : String)
  /-- An operand that is an unbound variable. -/
  | unboundOperand (name : String)
  /-- A zero divisor. -/
  | divisionByZero (op : Opcode)
  /-- A target of an evaluation that has a value already. -/
  | targetNotVariable (text : String)
  /-- An instruction that needs the frame of a call under construction, without one. -/
  | noTargetFrame (op : Opcode)
  /-- A return from a frame that was never set up. -/
  | noReturnPoint
  deriving DecidableEq, Repr

namespace RunError

/-- The code of a run-time error. -/
def code : RunError → String
  | .goalNotFunctor => "C0101"
  | .noClause _ _ => "D0102"
  | .noLabel _ _ | .noHandler _ => "D0103"
  | .invalidInstruction _ => "M0101"
  | .ranOff _ _ => "M0102"
  | .targetNotVariable _ => "M0104"
  | .notBound _ => "M0105"
  | .alreadyBound _ _ => "M0106"
  | .notANumber _ | .unboundOperand _ => "M0107"
  | .divisionByZero _ => "M0108"
  | .noQuestion => "M0109"
  | .stepLimit _ => "M0110"
  | _ => "M0103"

/-- The wording of a run-time error. -/
def text : RunError → String
  | .alreadyBound n v => "variable " ++ n ++ " is already bound to " ++ v
  | .bindToAbsent n => "variable " ++ n ++ ": binding to an absent value"
  | .bindToItself n => "variable " ++ n ++ ": binding to itself"
  | .notBound n => "variable " ++ n ++ " is not bound"
  | .noQuestion => "no question set"
  | .noLabel s l => s.text ++ " has no label " ++ l
  | .ranOff s l => s.text ++ ": ran off label " ++ l
  | .stepLimit n => "step limit of " ++ wholeText n ++ " exceeded"
  | .invalidInstruction op => "invalid instruction " ++ op.text
  | .goalNotFunctor => "call: goal is not a functor"
  | .noClause s i => s.text ++ " has no clause " ++ wholeText i
  | .noHandler s => "no handler for builtin " ++ s.text
  | .wrongArgumentCount s n =>
    "builtin " ++ s.text ++ " called with " ++ wholeText n ++ " arguments"
  | .popOfQuery => "cannot pop the query environment"
  | .decodedTwice x => "get_struct: register " ++ x ++ " decoded twice"
  | .emptyRegister x => "get_struct: register " ++ x ++ " is empty"
  | .registerHoldsNothing x => "get_struct: register " ++ x ++ " holds no term"
  | .noArgumentLeft => "no argument left to decode"
  | .noStructureToWrite => "no structure to write"
  | .noConstant op => op.text ++ " without a constant"
  | .noGoalUnderConstruction => "no goal structure under construction"
  | .emptyPut x => "put_value: register " ++ x ++ " is empty"
  | .pushWithoutPrepare => "push without prepare"
  | .pushOfNothing => "push of an empty operand"
  | .operandCount => "operator expects two operands"
  | .noResultRegister op => op.text ++ " without a result register"
  | .notANumber t => "expecting a number, got " ++ t
  | .unboundOperand n => "unbound variable " ++ n ++ " in arithmetic"
  | .divisionByZero op => op.text ++ ": division by zero"
  | .targetNotVariable t => "is: left operand " ++ t ++ " is not an unbound variable"
  | .noTargetFrame op => op.text ++ " without a target frame"
  | .noReturnPoint => "return from a frame without a return point"

end RunError

/-! ## §5. All of them. -/

/-- An error of any stage. -/
inductive Error where
  /-- An error of the reader. -/
  | reading (e : SyntaxError)
  /-- An error of the compiler. -/
  | compiling (e : CompileError)
  /-- An error of a clause store or a registry. -/
  | storing (e : StoreError)
  /-- An error of the machine. -/
  | running (e : RunError)
  /-- The caller gave up waiting. -/
  | canceled
  /-- An error of a native predicate or of the output. -/
  | external (text : String)
  /-- An error met while doing something, which stands in front of the message. -/
  | within (context : String) (e : Error)
  deriving DecidableEq, Repr

namespace Error

/-- The code of an error, for those that have one. -/
def code? : Error → Option String
  | .reading e => some e.code
  | .compiling e => some e.code
  | .storing e => some e.code
  | .running e => some e.code
  | .canceled => none
  | .external _ => none
  | .within _ e => e.code?

/-- The byte offset of an error, -1 for none. -/
def position : Error → Int
  | .reading e => e.position
  | .compiling e => e.position
  | .within _ e => e.position
  | _ => -1

/-- The error with its byte offset, where it has one, moved by `f`. -/
def relocate (f : Nat → Nat) : Error → Error
  | .reading e => .reading { e with position := f e.position }
  | .compiling e =>
    .compiling
      { e with position := if e.position < 0 then e.position else f e.position.toNat }
  | .within context e => .within context (e.relocate f)
  | e => e

/-- The token an error was found at. -/
def token : Error → String
  | .reading e => e.token
  | .compiling e => e.token
  | .within _ e => e.token
  | _ => ""

/-- What a number reader said, for the errors that come from one. -/
def detail? : Error → Option String
  | .reading e => e.detail?
  | .storing e => e.detail?
  | .within _ e => e.detail?
  | _ => none

/-- A message with its code and, when there is one, its place. -/
def located (code : String) (position : Int) (text : String) : String :=
  if 0 ≤ position then code ++ " at position " ++ wholeText position ++ ": " ++ text
  else code ++ ": " ++ text

/-- The whole message of an error. -/
def message : Error → String
  | .reading e => located e.code e.position e.text
  | .compiling e => located e.code e.position e.text
  | .storing e => located e.code (-1) e.text
  | .running e => located e.code (-1) e.text
  | .canceled => "context canceled"
  | .external t => t
  | .within context e => context ++ ": " ++ e.message

end Error

end PrologMachine
