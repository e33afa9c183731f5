/-
  PrologMachine.Reader ── **TOKENS TO TERMS.**

  Clauses are read by precedence climbing: an operand, then operators whose priority does not
  exceed the bound, each with a right operand of its own bound.  The reader keeps the tokens it
  has not consumed also after a fault, so that reading can go on behind it.

    * `Cursor.next` reads one clause and returns it shaped for the compiler.
    * `readProgram` reads all clauses of a text, `readClause` exactly one.

  The mutual recursion is bounded by a count that `Cursor.bound` takes from the number of tokens:
  between two consumed tokens at most three calls are nested.
-/
import PrologMachine.Operator
import PrologMachine.Term.Shape
import PrologMachine.Token.Lexer

namespace PrologMachine

/-! ## §1. Cursors. -/

/-- How terms are read. -/
structure Grammar where
  /-- The operators. -/
  operators : OpTable := .standard
  /-- How deep terms may nest. -/
  maxDepth : Int := 1000
  deriving Inhabited

/-- The tokens not yet consumed. -/
structure Cursor where
  /-- The token looked at. -/
  current : Token
  /-- The tokens behind it; empty only at the last token. -/
  rest : List Token
  /-- The fault of the text behind an error token. -/
  fault : Option SyntaxError
  /-- How many anonymous variables were named so far. -/
  anonymous : Nat
  deriving Repr

namespace Cursor

/-- A cursor at the first token of a text, with `anonymous` names taken before. -/
def ofText (source : String) (anonymous : Nat) : Cursor :=
  let (ts, l) := (Lexer.ofText source).tokens
  match ts with
  | [] => ⟨{ kind := .eof, value := "", position := 0 }, [], l.fault, anonymous⟩
  | t :: ts => ⟨t, ts, l.fault, anonymous⟩

/-- Step over a token; the last token stays. -/
def advance (c : Cursor) : Cursor :=
  match c.rest with
  | [] => c
  | t :: ts => { c with current := t, rest := ts }

/-- All clauses have been read. -/
def atEnd (c : Cursor) : Bool := c.current.kind == .eof

/-- An error at the token looked at. -/
def error (c : Cursor) (fault : SyntaxFault) : SyntaxError :=
  ⟨fault, c.current.position, c.current.value⟩

/-- The error behind an error token. -/
def lexicalError (c : Cursor) : SyntaxError := c.fault.getD (c.error .cutShort)

/-- A count that bounds the reading of one term from here. -/
def bound (c : Cursor) : Nat := 4 * c.rest.length + 8

end Cursor

/-! ## §2. Reading actions. -/

/-- An action that consumes tokens and yields a value or an error; the tokens it leaves are kept
    in either case. -/
abbrev Reading := ExceptT SyntaxError (StateM Cursor)

namespace Reading

/-- The token looked at. -/
def current : Reading Token := do return (← get).current

/-- Step over the token looked at. -/
def advance : Reading Unit := modify Cursor.advance

/-- Fail at the token looked at. -/
def fail {α : Type} (fault : SyntaxFault) : Reading α := do throw ((← get).error fault)

/-- Consume a token of the given kind. -/
def expect (kind : TokenKind) : Reading Unit := do
  let t ← current
  if t.kind = kind then advance
  else match t.kind with
    | .eof => fail (.expectedBeforeEnd kind)
    | .error => throw (← get).lexicalError
    | _ => fail (.expected kind)

/-- A variable token as a term; an anonymous one gets a name of its own. -/
def variableTerm (t : Token) : Reading Term := do
  if t.value = "_" then
    modify (fun c => { c with anonymous := c.anonymous + 1 })
    return .var (anonymousName (← get).anonymous) 0
  else return .var t.value 0

/-- A number token as a term, with its sign. -/
def numberTerm (t : Token) (negative : Bool) : Reading Term :=
  match Number.read t.value.toList with
  | .ok x => return .const (.number (if negative then -x else x)) t.position
  | .error f => throw ⟨.badNumber f, t.position, t.value⟩

end Reading

/-- A token as an atom. -/
def Token.atom (t : Token) : Term := .const (.atom t.value) t.position

namespace Grammar

/-- The operator that a token is between two operands.  A comma is one even without a
    definition, then with a priority that no left operand meets. -/
def between? (g : Grammar) (t : Token) : Option OpDef :=
  match t.kind with
  | .comma => some ((g.operators.between? ",").getD ⟨",", 0, .xfx⟩)
  | .name => g.operators.between? t.value
  | _ => none

/-- The token can start an operand. -/
def startsTerm (g : Grammar) (t : Token) : Bool :=
  match t.kind with
  | .variable | .number | .string | .parenOpen | .bracketOpen => true
  | .name => (g.operators.between? t.value).isNone || (g.operators.before? t.value).isSome
  | _ => false

/-! ## §3. Precedence climbing. -/

open Reading

mutual

/-- Read a term of priority `max` at most. -/
def term (g : Grammar) : (count : Nat) → (max depth : Int) → Reading Term
  | 0, _, _ => fail .cutShort
  | n + 1, max, depth => do
    let (left, priority) ← g.operand n max depth
    g.climb n left priority max depth

/-- Go on behind the left operand `left`, which has the given priority. -/
def climb (g : Grammar) : (count : Nat) → (left : Term) → (priority max depth : Int) → Reading Term
  | 0, _, _, _, _ => fail .cutShort
  | n + 1, left, priority, max, depth => do
    let t ← current
    match g.between? t with
    | none => return left
    | some d =>
      if max < d.priority then return left
      else if d.leftMax < priority then fail (.priorityClash d.symbol)
      else
        advance
        let right ← g.term n d.rightMax (depth + 1)
        g.climb n (.app d.symbol [left, right] .none t.position) d.priority max depth

/-- Read an operand: a constant, a variable, a compound, a list, a term in parentheses or a term
    behind an operator.  Its priority comes with it. -/
def operand (g : Grammar) : (count : Nat) → (max depth : Int) → Reading (Term × Int)
  | 0, _, _ => fail .cutShort
  | n + 1, max, depth => do
    if g.maxDepth < depth then fail .tooDeep
    else
      let t ← current
      match t.kind with
      | .eof => fail .unexpectedEnd
      | .error => throw (← get).lexicalError
      | .number =>
        advance
        return (← numberTerm t false, 0)
      | .variable =>
        advance
        return (← variableTerm t, 0)
      | .string =>
        advance
        return (t.atom, 0)
      | .parenOpen =>
        advance
        let inner ← g.term n 1200 (depth + 1)
        expect .parenClose
        return (inner, 0)
      | .bracketOpen =>
        advance
        if (← current).kind = .bracketClose then
          advance
          return (.const .nil (-1), 0)
        else
          let elements ← g.elements n depth
          let tail ← if (← current).kind = .bar then do
              advance
              g.term n 999 (depth + 1)
            else pure (.const .nil (-1))
          expect .bracketClose
          return (Term.ofList elements tail, 0)
      | .name =>
        advance
        let next ← current
        if next.kind = .parenOpen && !next.layout then
          advance
          let args ← g.elements n depth
          expect .parenClose
          return (.app t.value args .none t.position, 0)
        else if t.quoted then return (t.atom, 0)
        else if t.value = "-" && next.kind = .number && !next.layout then
          advance
          return (← numberTerm next true, 0)
        else match g.operators.before? t.value with
          | some d =>
            if d.priority ≤ max && g.startsTerm next then
              let arg ← g.term n d.rightMax (depth + 1)
              return (.app t.value [arg] .none t.position, d.priority)
            else return (t.atom, 0)
          | none => return (t.atom, 0)
      | _ => fail .unexpectedToken

/-- Read arguments or list elements, separated by commas. -/
def elements (g : Grammar) : (count : Nat) → (depth : Int) → Reading (List Term)
  | 0, _ => fail .cutShort
  | n + 1, depth => do
    let first ← g.term n 999 (depth + 1)
    if (← current).kind = .comma then
      advance
      return first :: (← g.elements n depth)
    else return [first]

end

/-- Read one clause up to its full stop, without shaping it. -/
def clause (g : Grammar) : Reading Term := do
  let c ← get
  match c.current.kind with
  | .error => throw c.lexicalError
  | .eof => fail .unexpectedEnd
  | _ =>
    let t ← g.term c.bound 1200 0
    expect .stop
    return t

end Grammar

/-! ## §4. Clauses and programs. -/

/-- Read the next clause, shaped for the compiler. -/
def Cursor.next (g : Grammar) (c : Cursor) : Except SyntaxError Term × Cursor :=
  let (result, c) := g.clause.run.run c
  (result.map Term.shape, c)

/-- Read the clauses up to the end, at most `n` of them. -/
def Cursor.clauses (g : Grammar) : (n : Nat) → Cursor → Except SyntaxError (List Term)
  | 0, _ => .ok []
  | n + 1, c =>
    if c.atEnd then .ok []
    else match c.next g with
      | (.error e, _) => .error e
      | (.ok t, c) =>
        match Cursor.clauses g n c with
        | .error e => .error e
        | .ok ts => .ok (t :: ts)

/-- Read every clause of a program; each takes up at least one token. -/
def readProgram (g : Grammar) (source : String) (anonymous : Nat) :
    Except SyntaxError (List Term) :=
  let c := Cursor.ofText source anonymous
  c.clauses g (c.rest.length + 1)

/-- Read exactly one clause; text behind it is an error. -/
def readClause (g : Grammar) (source : String) (anonymous : Nat) :
    Except SyntaxError Term :=
  let c := Cursor.ofText source anonymous
  if c.atEnd then .error ⟨.emptyClause, 0, ""⟩
  else match c.next g with
    | (.error e, _) => .error e
    | (.ok t, c) => if c.atEnd then .ok t else .error (c.error .textAfterClause)

end PrologMachine
