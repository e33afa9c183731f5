/-
  PrologMachine.Token ── **LEXICAL TOKENS.**
-/

namespace PrologMachine

/-- The kinds of tokens. -/
inductive TokenKind where
  /-- The end of the input. -/
  | eof
  /-- Text that is no token. -/
  | error
  /-- An atom: a word, a run of symbol characters, a solo character or quoted text. -/
  | name
  /-- A variable. -/
  | variable
  /-- A number. -/
  | number
  /-- Text between double quotes. -/
  | string
  /-- An opening parenthesis. -/
  | parenOpen
  /-- A closing parenthesis. -/
  | parenClose
  /-- An opening bracket. -/
  | bracketOpen
  /-- A closing bracket. -/
  | bracketClose
  /-- A comma. -/
  | comma
  /-- A bar. -/
  | bar
  /-- The full stop of a clause. -/
  | stop
  deriving DecidableEq, Repr, Inhabited

/-- How a kind of token is named in messages. -/
def TokenKind.text : TokenKind → String
  | .eof => "(eof)"
  | .error => "(error)"
  | .name => "(name)"
  | .variable => "(variable)"
  | .number => "(number)"
  | .string => "(string)"
  | .parenOpen => "("
  | .parenClose => ")"
  | .bracketOpen => "["
  | .bracketClose => "]"
  | .comma => ","
  | .bar => "|"
  | .stop => "(end)"

/-- All kinds in the order of their numbers. -/
def TokenKind.all : List TokenKind :=
  [.eof, .error, .name, .variable, .number, .string, .parenOpen, .parenClose, .bracketOpen,
    .bracketClose, .comma, .bar, .stop]

/-- The name of the kind with number `n`. -/
def TokenKind.textOf (n : Nat) : String :=
  match TokenKind.all[n]? with
  | some k => k.text
  | none => "(unknown)"

/-- A token: its kind, its text without quotes and escapes, and where it starts. -/
structure Token where
  /-- The kind. -/
  kind : TokenKind
  /-- The text, unquoted for quoted names and strings. -/
  value : String
  /-- The byte offset of its first character. -/
  position : Nat
  /-- White space or a comment stands before it. -/
  layout : Bool := false
  /-- The name was written between single quotes. -/
  quoted : Bool := false
  deriving DecidableEq, Repr, Inhabited

end PrologMachine
