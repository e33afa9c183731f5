/-
  PrologMachine.Token.Lexer ── **SOURCE TEXT TO TOKENS.**

  The lexer holds the text still to be read and the byte offset where it starts.  `Lexer.next`
  skips layout (white space, `%` comments, block comments) and takes one token off the front.  At
  the end of the text it returns the end token again and again; after a fault it returns an error
  token again and again.

    * `numberLexeme` is the longest number at the front of a text.
    * `tokens` is the whole token sequence, up to and including the end or error token.
-/
import PrologMachine.Error
import PrologMachine.Term.Writer

namespace PrologMachine

open PrologMachine.Text (isAlnum isAsciiDigit)

/-! ## §1. Character classes and lengths. -/

/-- The number of bytes that the text takes up in UTF-8. -/
def byteLength (cs : List Char) : Nat := cs.foldr (fun c n => c.utf8Size + n) 0

/-- White space between tokens. -/
def isLayoutChar (c : Char) : Bool :=
  c == ' ' || (9 ≤ c.toNat && c.toNat ≤ 13)

/-- Single characters that are atoms and never join their neighbours. -/
def isSolo (c : Char) : Bool := c == '!' || c == ';'

/-- The kind of a punctuation character. -/
def punctuation? (c : Char) : Option TokenKind :=
  match c with
  | '(' => some .parenOpen
  | ')' => some .parenClose
  | '[' => some .bracketOpen
  | ']' => some .bracketClose
  | ',' => some .comma
  | '|' => some .bar
  | _ => none

/-! ## §2. Layout. -/

/-- Where the layout in front of a token ends. -/
structure Gap where
  /-- The text from there on. -/
  rest : List Char
  /-- The byte offset of that place. -/
  position : Nat
  /-- A block comment starts there and never ends. -/
  unclosed : Bool
  deriving DecidableEq, Repr

/-- What kind of layout the skipper is in. -/
inductive LayoutMode where
  /-- White space, or between two comments. -/
  | plain
  /-- In a comment that ends with the line. -/
  | line
  /-- In a block comment; where it started, so that an unclosed one can be reported. -/
  | block (rest : List Char) (position : Nat)

/-- Skip white space and comments. -/
def skipLayout : LayoutMode → List Char → Nat → Gap
  | .plain, '%' :: cs, pos => skipLayout .line cs (pos + 1)
  | .plain, '/' :: '*' :: cs, pos =>
    skipLayout (.block ('/' :: '*' :: cs) pos) cs (pos + 2)
  | .plain, c :: cs, pos =>
    if isLayoutChar c then skipLayout .plain cs (pos + c.utf8Size) else ⟨c :: cs, pos, false⟩
  | .line, c :: cs, pos =>
    if c = '\n' then skipLayout .plain cs (pos + 1) else skipLayout .line cs (pos + c.utf8Size)
  | .block _ _, '*' :: '/' :: cs, pos => skipLayout .plain cs (pos + 2)
  | .block r p, c :: cs, pos => skipLayout (.block r p) cs (pos + c.utf8Size)
  | .plain, [], pos => ⟨[], pos, false⟩
  | .line, [], pos => ⟨[], pos, false⟩
  | .block r p, [], _ => ⟨r, p, true⟩

/-! ## §3. Lexemes. -/

/-- Split off the exponent of a number, an optional sign and digits after `e` or `E`; without
    digits there is none. -/
def splitExponent (cs : List Char) : List Char × List Char :=
  match cs with
  | [] => ([], [])
  | e :: r =>
    if e = 'e' || e = 'E' then
      let (sign, ds) := match r with
        | s :: t => if s = '+' || s = '-' then ([s], t) else ([], s :: t)
        | [] => ([], [])
      match ds.takeWhile isAsciiDigit with
      | [] => ([], cs)
      | digits => (e :: sign ++ digits, ds.dropWhile isAsciiDigit)
    else ([], cs)

/-- Split off the fraction of a number, digits after a point; without digits there is none. -/
def splitFraction (cs : List Char) : List Char × List Char :=
  match cs with
  | '.' :: r =>
    match r.takeWhile isAsciiDigit with
    | [] => ([], cs)
    | digits => ('.' :: digits, r.dropWhile isAsciiDigit)
  | _ => ([], cs)

/-- Split off the longest number: digits, then a fraction, then an exponent. -/
def numberLexeme (cs : List Char) : List Char × List Char :=
  let (fraction, r) := splitFraction (cs.dropWhile isAsciiDigit)
  let (exponent, r) := splitExponent r
  (cs.takeWhile isAsciiDigit ++ fraction ++ exponent, r)

/-- What an escaped character stands for. -/
def unescape (c : Char) : Char :=
  if c = 'n' then '\n' else if c = 't' then '\t' else c

/-- Quoted text after its opening quote: the text it stands for, the text after the closing
    quote, and the offset there.  A doubled quote stands for the quote, a backslash escapes the
    next character. -/
def quotedText (quote : Char) : List Char → Nat → Option (List Char × List Char × Nat)
  | [], _ => none
  | [c], pos => if c = quote then some ([], [], pos + c.utf8Size) else none
  | c :: d :: cs, pos =>
    if c = quote then
      if d = quote then
        match quotedText quote cs (pos + c.utf8Size + d.utf8Size) with
        | some (v, r) => some (quote :: v, r)
        | none => none
      else some ([], d :: cs, pos + c.utf8Size)
    else if c = '\\' then
      match quotedText quote cs (pos + c.utf8Size + d.utf8Size) with
      | some (v, r) => some (unescape d :: v, r)
      | none => none
    else
      match quotedText quote (d :: cs) (pos + c.utf8Size) with
      | some (v, r) => some (c :: v, r)
      | none => none

/-- The text after a full stop ends a clause there: layout, a line comment or nothing. -/
def endsClause : List Char → Bool
  | [] => true
  | c :: _ => isLayoutChar c || c == '%'

/-! ## §4. The lexer. -/

/-- The text still to be read, where it starts, and the fault that ended the reading. -/
structure Lexer where
  /-- The text not yet read. -/
  rest : List Char
  /-- Its byte offset. -/
  position : Nat
  /-- The first fault. -/
  fault : Option SyntaxError
  deriving DecidableEq, Repr

/-- A lexer at the start of a text. -/
def Lexer.ofText (source : String) : Lexer := ⟨source.toList, 0, none⟩

/-- The token made of `lexeme` at the front of the text, and the lexer after it. -/
def Lexer.lexeme (kind : TokenKind) (lexeme rest : List Char) (pos : Nat) : Token × Lexer :=
  ({ kind, value := String.ofList lexeme, position := pos },
    ⟨rest, pos + byteLength lexeme, none⟩)

/-- The error token for `lexeme` at the front of the text, and the lexer stopped after it. -/
def Lexer.stop (fault : SyntaxFault) (lexeme rest : List Char) (pos : Nat) : Token × Lexer :=
  let value := String.ofList lexeme
  ({ kind := .error, value, position := pos },
    ⟨rest, pos + byteLength lexeme, some ⟨fault, pos, value⟩⟩)

/-- The token for the quoted text after the opening quote of `c :: cs`. -/
def Lexer.quotedToken (kind : TokenKind) (c : Char) (cs : List Char) (pos : Nat) : Token × Lexer :=
  match quotedText c cs (pos + c.utf8Size) with
  | some (v, r, p) => ({ kind, value := String.ofList v, position := pos }, ⟨r, p, none⟩)
  | none => Lexer.stop .unclosedQuote (c :: cs) [] pos

/-- Take one token off the front of a text without layout there. -/
def Lexer.scan (cs : List Char) (pos : Nat) : Token × Lexer :=
  match cs with
  | [] => ({ kind := .eof, value := "", position := pos }, ⟨[], pos, none⟩)
  | c :: r =>
    match punctuation? c with
    | some kind => Lexer.lexeme kind [c] r pos
    | none =>
      if isSolo c then Lexer.lexeme .name [c] r pos
      else if Text.isLower c then
        Lexer.lexeme .name (c :: r.takeWhile isAlnum) (r.dropWhile isAlnum) pos
      else if Text.isUpper c || c = '_' then
        Lexer.lexeme .variable (c :: r.takeWhile isAlnum) (r.dropWhile isAlnum) pos
      else if isAsciiDigit c then
        let (number, r) := numberLexeme cs
        Lexer.lexeme .number number r pos
      else if c = '\'' then
        let (t, l) := Lexer.quotedToken .name c r pos
        ({ t with quoted := true }, l)
      else if c = '"' then Lexer.quotedToken .string c r pos
      else if c = '.' && endsClause r then Lexer.lexeme .stop [c] r pos
      else if isSymbolChar c then
        Lexer.lexeme .name (c :: r.takeWhile isSymbolChar) (r.dropWhile isSymbolChar) pos
      else Lexer.stop (.unexpectedChar c) [c] r pos

/-- The next token and the lexer after it. -/
def Lexer.next (l : Lexer) : Token × Lexer :=
  match l.fault with
  | some _ => ({ kind := .error, value := "", position := l.position }, l)
  | none =>
    let gap := skipLayout .plain l.rest l.position
    if gap.unclosed then
      ({ kind := .error, value := "", position := gap.position, layout := true },
        ⟨gap.rest, gap.position, some ⟨.unclosedComment, gap.position, ""⟩⟩)
    else
      let (t, l') := Lexer.scan gap.rest gap.position
      ({ t with layout := l.position < gap.position }, l')

/-! ## §5. The token sequence. -/

/-- The token ends the sequence: nothing but its like can follow. -/
def Token.isLast (t : Token) : Bool := t.kind == .eof || t.kind == .error

/-- The tokens up to the last one, at most `n` of them, and the lexer after them. -/
def Lexer.take : (n : Nat) → Lexer → List Token × Lexer
  | 0, l => ([], l)
  | n + 1, l =>
    let (t, l) := l.next
    if t.isLast then ([t], l)
    else
      let (ts, l) := Lexer.take n l
      (t :: ts, l)

/-- The whole token sequence.  Every token but the last takes up at least one character, so one
    more than there are characters is enough. -/
def Lexer.tokens (l : Lexer) : List Token × Lexer := l.take (l.rest.length + 1)

/-- `n` more tokens, whatever they are. -/
def Lexer.more : (n : Nat) → Lexer → List Token × Lexer
  | 0, l => ([], l)
  | n + 1, l =>
    let (t, l) := l.next
    let (ts, l) := Lexer.more n l
    (t :: ts, l)

end PrologMachine
