/-
  PrologMachine.Proofs.Reading.RoundTrip ── **WHAT IS WRITTEN IS READ BACK.**

  Terms are written in canonical form, and the tokens of the written text spell the term that was
  written: names are quoted where they have to be, lists are in brackets, and behind every name
  and every variable stands a character that ends it.

    * `Term.Writable`, `Term.nesting`: which terms are written so that they can be read back, and
      how deep they nest.
    * `Lexer.takes_name`: a written name is one token.
    * `Legible`: terms as they are read, their anonymous variables numbered through.
    * `Legible.prints`: the tokens of a written term spell it.
    * `readClause_text`: reading undoes writing.
-/
import PrologMachine.Proofs.Reading.Pieces
import PrologMachine.Proofs.Reading.Spelling

namespace PrologMachine

open PrologMachine.Text (isAlnum isAsciiDigit)

/-! ## §1. Terms that can be written. -/

/-- The name means itself when it is written: it is no pair of brackets, starts no comment, and has
    a backslash only where it needs no quotes. -/
structure WritableName (name : List Char) : Prop where
  /-- Brackets are the empty list. -/
  brackets : name ≠ ['[', ']']
  /-- Braces are no token. -/
  braces : name ≠ ['\x7b', '\x7d']
  /-- A comment hides what follows. -/
  comment : ¬ ['/', '*'] <+: name
  /-- Between quotes a backslash would escape the next character. -/
  backslash : '\\' ∈ name → ∀ c ∈ name, isSymbolChar c = true

/-- A name without slash, backslash, bracket and brace can be written. -/
theorem WritableName.of_plain {name : List Char} (hslash : '/' ∉ name) (hback : '\\' ∉ name)
    (hbracket : '[' ∉ name) (hbrace : '\x7b' ∉ name) : WritableName name where
  brackets h := hbracket (by simp [h])
  braces h := hbrace (by simp [h])
  comment h := hslash (h.subset (by simp))
  backslash h := absurd h hback

mutual

/-- The term contains no number, and all its names can be written. -/
def Term.Writable : Term → Prop
  | .const (.number _) _ => False
  | .const (.atom s) _ => WritableName s.toList
  | .app f args _ _ => WritableName f.toList ∧ Term.AllWritable args
  | _ => True

/-- All terms of a list can be written. -/
def Term.AllWritable : List Term → Prop
  | [] => True
  | t :: ts => t.Writable ∧ Term.AllWritable ts

end

mutual

/-- How deep parentheses and brackets are nested in the written term. -/
def Term.nesting : Term → Nat
  | .app "cons" [h, t] _ _ => max (h.nesting + 1) (Term.tailNesting t)
  | .app _ args _ _ => Term.argsNesting args
  | _ => 0

/-- How deep they are nested in the rest of a list behind its first element, the brackets of the
    list itself included. -/
def Term.tailNesting : Term → Nat
  | .const .nil _ => 0
  | .app "cons" [h, t] _ _ => max (h.nesting + 1) (Term.tailNesting t)
  | .app _ args _ _ => Term.argsNesting args + 1
  | _ => 1

/-- How deep they are nested in arguments, the parentheses around them included. -/
def Term.argsNesting : List Term → Nat
  | [] => 0
  | t :: ts => max (t.nesting + 1) (Term.argsNesting ts)

end

/-- The term is a list cell. -/
def Term.IsCell (t : Term) : Prop := ∃ h tail attrs pos, t = .app "cons" [h, tail] attrs pos

/-- A compound is written with its arguments in parentheses, unless it is a list cell. -/
theorem Term.chars_app {f : String} {arg : Term} {args : List Term} {attrs : Attrs} {pos : Int}
    (h : ¬ (Term.app f (arg :: args) attrs pos).IsCell) :
    (Term.app f (arg :: args) attrs pos).chars =
      atomChars f.toList ++ '(' :: arg.chars ++ Term.restChars args ++ [')'] := by
  rw [Term.chars]
  rintro t' rfl rfl
  exact h ⟨_, _, _, _, rfl⟩

/-- A term that is no list cell is as deep as its arguments. -/
theorem Term.nesting_app {f : String} {args : List Term} {attrs : Attrs} {pos : Int}
    (h : ¬ (Term.app f args attrs pos).IsCell) :
    (Term.app f args attrs pos).nesting = Term.argsNesting args := by
  rw [Term.nesting]
  rintro h' t' rfl rfl
  exact h ⟨_, _, _, _, rfl⟩

/-- A tail that is no list stands behind a bar. -/
theorem Term.tailChars_eq {t : Term} (hnil : ∀ pos, t ≠ .const .nil pos) (hcell : ¬ t.IsCell) :
    t.tailChars = '|' :: t.chars := by
  cases t with
  | var => rfl
  | absent => rfl
  | const a pos =>
    cases a with
    | nil => exact absurd rfl (hnil pos)
    | _ => rfl
  | app f args attrs pos =>
    cases args with
    | nil => rw [Term.tailChars, Term.chars]
    | cons arg args =>
      rw [Term.chars_app hcell, Term.tailChars]
      · simp
      · rintro t' rfl rfl
        exact hcell ⟨_, _, _, _, rfl⟩

/-- A tail that is neither a list cell nor the empty list stands behind a bar, one level down. -/
theorem Term.tailNesting_eq {t : Term} (hnil : ∀ pos, t ≠ .const .nil pos) (hcell : ¬ t.IsCell) :
    t.tailNesting = t.nesting + 1 := by
  cases t with
  | var => rfl
  | absent => rfl
  | const a pos =>
    cases a with
    | nil => exact absurd rfl (hnil pos)
    | _ => rfl
  | app f args attrs pos =>
    rw [Term.nesting_app hcell, Term.tailNesting]
    rintro h' t' rfl rfl
    exact hcell ⟨_, _, _, _, rfl⟩

/-! ## §2. Characters. -/

/-- What can stand behind a name, a variable or a whole term. -/
def Delimited (cs : List Char) : Prop :=
  ∃ c r, cs = c :: r ∧ c ∈ ['(', ')', ']', ',', '|', ' ']

/-- The character starts neither layout nor a token of its own. -/
structure Solid (c : Char) : Prop where
  /-- It is no punctuation. -/
  punctuation : punctuation? c = none
  /-- It is no atom by itself. -/
  solo : isSolo c = false
  /-- It starts no line comment. -/
  percent : c ≠ '%'
  /-- It is no white space. -/
  layout : isLayoutChar c = false

/-- Six characters are punctuation. -/
theorem punctuation?_some {c : Char} {kind : TokenKind} (h : punctuation? c = some kind) :
    c ∈ ['(', ')', '[', ']', ',', '|'] := by
  unfold punctuation? at h
  split at h
  case h_7 => cases h
  all_goals decide

/-- Letters and the underscore are neither layout nor tokens. -/
theorem Solid.of_range {c : Char} (h : 65 ≤ c.toNat ∧ c.toNat ≤ 90 ∨ c.toNat = 95 ∨
    97 ≤ c.toNat ∧ c.toNat ≤ 122 ∨ 128 ≤ c.toNat) : Solid c := by
  have hne (d : Char) (hd : d.toNat < 65 ∨ d.toNat = 91 ∨ d.toNat = 93 ∨ d.toNat = 124) :
      c ≠ d := by
    rintro rfl
    omega
  refine ⟨?_, ?_, hne _ (by decide), ?_⟩
  · cases hk : punctuation? c with
    | none => rfl
    | some kind =>
      have hall : ['(', ')', '[', ']', ',', '|'].all (fun d => d.toNat < 65 || d.toNat == 91 ||
          d.toNat == 93 || d.toNat == 124) = true := by decide
      have hc := List.all_eq_true.1 hall c (punctuation?_some hk)
      simp only [Bool.or_eq_true, decide_eq_true_eq, beq_iff_eq] at hc
      omega
  · simp [isSolo, hne '!' (by decide), hne ';' (by decide)]
  · have hspace := hne ' ' (by decide)
    simp only [isLayoutChar, beq_eq_false_iff_ne.2 hspace, Bool.false_or, Bool.and_eq_false_iff,
      decide_eq_false_iff_not]
    omega

/-- A small letter is solid. -/
theorem Solid.of_isLower {c : Char} (h : Text.isLower c = true) : Solid c := by
  refine .of_range ?_
  unfold Text.isLower at h
  split at h
  · have hrange := (Bool.and_eq_true _ _).mp (show (decide _ && decide _) = true from h)
    have hle : c.toNat ≤ 122 := of_decide_eq_true hrange.2
    have hge : 97 ≤ c.toNat := of_decide_eq_true hrange.1
    omega
  · omega

theorem Solid.of_isUpper {c : Char} (h : Text.isUpper c = true) : Solid c := by
  refine .of_range ?_
  unfold Text.isUpper at h
  split at h
  · have hrange := of_decide_eq_true (show decide (_ ∧ _) = true from h)
    have hle : c.toNat ≤ 90 := hrange.2
    have hge : 65 ≤ c.toNat := hrange.1
    omega
  · omega

/-- A symbol character is nothing but that. -/
structure SymbolOnly (c : Char) : Prop extends Solid c where
  /-- It starts no word. -/
  lower : Text.isLower c = false
  /-- It starts no variable. -/
  upper : Text.isUpper c = false
  /-- It starts no anonymous variable. -/
  underscore : c ≠ '_'
  /-- It starts no number. -/
  digit : isAsciiDigit c = false
  /-- It is no single quote. -/
  quote : c ≠ '\''
  /-- It is no double quote. -/
  string : c ≠ '"'

/-- A symbol character is nothing but that. -/
theorem isSymbolChar_only {c : Char} (h : isSymbolChar c = true) : SymbolOnly c := by
  have hall : "+-*/\\^<>=~:.?@#&$".toList.all (fun d => punctuation? d == none && !isSolo d &&
      d != '%' && !isLayoutChar d && !Text.isLower d && !Text.isUpper d && d != '_' &&
      !isAsciiDigit d && d != '\'' && d != '"') = true := by decide
  have hc := List.all_eq_true.1 hall c (by simpa [isSymbolChar] using h)
  simp only [Bool.and_eq_true, beq_iff_eq, Bool.not_eq_true', bne_iff_ne] at hc
  obtain ⟨⟨⟨⟨⟨⟨⟨⟨⟨h1, h2⟩, h3⟩, h4⟩, h5⟩, h6⟩, h7⟩, h8⟩, h9⟩, h10⟩ := hc
  exact ⟨⟨h1, h2, h3, h4⟩, h5, h6, h7, h8, h9, h10⟩

/-- A delimiter ends words, variables, symbols and quoted text. -/
theorem Delimited.exists_cons {cs : List Char} (h : Delimited cs) : ∃ c r, cs = c :: r ∧
    isAlnum c = false ∧ isSymbolChar c = false ∧ c ≠ '\'' ∧ c ≠ '%' ∧
      (isLayoutChar c = true → c = ' ') := by
  obtain ⟨c, r, rfl, hc⟩ := h
  have hall : ['(', ')', ']', ',', '|', ' '].all (fun d => !isAlnum d && !isSymbolChar d &&
      d != '\'' && d != '%' && (!isLayoutChar d || d == ' ')) = true := by decide
  have hd := List.all_eq_true.1 hall c hc
  simp only [Bool.and_eq_true, Bool.not_eq_true', bne_iff_ne, Bool.or_eq_true, beq_iff_eq] at hd
  obtain ⟨⟨⟨⟨h1, h2⟩, h3⟩, h4⟩, h5⟩ := hd
  exact ⟨c, r, rfl, h1, h2, h3, h4, fun h => h5.resolve_left (by simp [h])⟩

/-- A run of characters ends where a character does not belong to it. -/
theorem run_before {p : Char → Bool} {cs r : List Char} {c : Char} (hcs : ∀ x ∈ cs, p x = true)
    (hc : p c = false) :
    (cs ++ c :: r).takeWhile p = cs ∧ (cs ++ c :: r).dropWhile p = c :: r := by
  rw [List.takeWhile_append_of_pos hcs, List.dropWhile_append_of_pos hcs]
  simp [hc]

/-! ## §3. One token off the front. -/

namespace Lexer

/-- Wherever the text stands, its first token is right at the front and has the kind and the
    value, and `rest` is behind it. -/
def Takes (kind : TokenKind) (value : String) (cs rest : List Char) : Prop :=
  ∀ pos, ∃ t pos', Scans ⟨cs, pos, none⟩ [t] ⟨rest, pos', none⟩ ∧ t.kind = kind ∧
    t.value = value ∧ t.layout = false

/-- One scan after another. -/
theorem Scans.append {l l₁ l₂ : Lexer} {us vs : List Token} (h : l.Scans us l₁)
    (h₂ : l₁.Scans vs l₂) : l.Scans (us ++ vs) l₂ := by
  induction h with
  | done => exact h₂
  | more hlast _ ih => exact .more hlast (ih h₂)

/-- A solid character ends the layout. -/
theorem skipLayout_solid {c : Char} {cs : List Char} (hpercent : c ≠ '%')
    (hlayout : isLayoutChar c = false) (hcomment : ¬ ['/', '*'] <+: c :: cs) (pos : Nat) :
    skipLayout .plain (c :: cs) pos = ⟨c :: cs, pos, false⟩ := by
  rw [skipLayout]
  · simp [hlayout]
  · rintro rfl
    exact hpercent rfl
  · rintro cs' rfl rfl
    exact hcomment ⟨cs', rfl⟩

/-- A token is taken off the front when no layout stands there. -/
theorem Takes.of_scan {kind : TokenKind} {value : String} {c : Char} {cs rest : List Char}
    (hpercent : c ≠ '%') (hlayout : isLayoutChar c = false)
    (hcomment : ¬ ['/', '*'] <+: c :: cs) (heof : kind ≠ .eof) (herror : kind ≠ .error)
    (hscan : ∀ pos, ∃ t pos', scan (c :: cs) pos = (t, ⟨rest, pos', none⟩) ∧ t.kind = kind ∧
      t.value = value) : Takes kind value (c :: cs) rest := by
  intro pos
  obtain ⟨t, pos', ht, hkind, hvalue⟩ := hscan pos
  have hnext : next ⟨c :: cs, pos, none⟩ = ({ t with layout := false }, ⟨rest, pos', none⟩) := by
    rw [next_eq, skipLayout_solid hpercent hlayout hcomment, behind_closed rfl, ht]
    simp
  have hlast : (next ⟨c :: cs, pos, none⟩).1.isLast = false := by
    simp [hnext, Token.isLast, hkind, heof, herror]
  refine ⟨{ t with layout := false }, pos', ?_, hkind, hvalue, rfl⟩
  have hmore := Scans.more hlast (.done)
  rwa [hnext] at hmore

/-- A word that the scanner finds at a solid character is taken. -/
theorem takes_lexeme {kind : TokenKind} {c : Char} {cs word rest : List Char}
    (hpercent : c ≠ '%') (hlayout : isLayoutChar c = false)
    (hcomment : ¬ ['/', '*'] <+: c :: cs) (heof : kind ≠ .eof) (herror : kind ≠ .error)
    (hscan : ∀ pos, scan (c :: cs) pos = Lexer.lexeme kind word rest pos) :
    Takes kind (String.ofList word) (c :: cs) rest :=
  .of_scan hpercent hlayout hcomment heof herror fun pos => ⟨_, _, hscan pos, rfl, rfl⟩

/-- No comment starts with another character. -/
theorem not_comment {c : Char} {cs : List Char} (hc : c ≠ '/') : ¬ ['/', '*'] <+: c :: cs := by
  rintro ⟨r, hr⟩
  exact hc (List.cons.inj hr).1.symm

/-- Punctuation is taken as one token. -/
theorem takes_punctuation {c : Char} {kind : TokenKind} (h : punctuation? c = some kind)
    (rest : List Char) : Takes kind (String.ofList [c]) (c :: rest) rest := by
  have hall : ['(', ')', '[', ']', ',', '|'].all (fun d => d != '%' && !isLayoutChar d &&
      d != '/') = true := by decide
  have hc := List.all_eq_true.1 hall c (punctuation?_some h)
  simp only [Bool.and_eq_true, Bool.not_eq_true', bne_iff_ne] at hc
  obtain ⟨⟨hpercent, hlayout⟩, hslash⟩ := hc
  obtain ⟨heof, herror, -⟩ := punctuation?_kind h
  refine takes_lexeme hpercent hlayout (not_comment hslash) heof herror fun pos => ?_
  simp only [scan, h]

theorem takes_solo {c : Char} (h : c = '!' ∨ c = ';') (rest : List Char) :
    Takes .name (String.ofList [c]) (c :: rest) rest := by
  rcases h with rfl | rfl <;>
    exact takes_lexeme (by decide) (by decide) (not_comment (by decide)) (by decide) (by decide)
      fun pos => rfl

/-- A word of letters and digits is taken as far as it goes. -/
theorem takes_word {c : Char} {cs rest : List Char} (hc : Text.isLower c = true)
    (hcs : ∀ x ∈ cs, isAlnum x = true) (hrest : Delimited rest) :
    Takes .name (String.ofList (c :: cs)) (c :: cs ++ rest) rest := by
  have hsolid := Solid.of_isLower hc
  obtain ⟨d, r, rfl, hd, -⟩ := hrest.exists_cons
  obtain ⟨htake, hdrop⟩ := run_before (r := r) hcs hd
  have hslash : c ≠ '/' := by
    rintro rfl
    exact absurd hc (by decide)
  refine takes_lexeme hsolid.percent hsolid.layout (not_comment hslash) (by decide) (by decide)
    fun pos => ?_
  simp only [scan, hsolid.punctuation, hsolid.solo, hc, Bool.false_eq_true, if_false, if_true]
  rw [List.append_eq, htake, hdrop]

end Lexer

/-- The characters of a variable. -/
def IsVariable (cs : List Char) : Prop :=
  ∃ c r, cs = c :: r ∧ Text.isLower c = false ∧ (Text.isUpper c || c = '_') = true ∧
    ∀ x ∈ r, isAlnum x = true

namespace Lexer

theorem takes_variable {cs rest : List Char} (h : IsVariable cs) (hrest : Delimited rest) :
    Takes .variable (String.ofList cs) (cs ++ rest) rest := by
  obtain ⟨c, cs, rfl, hlower, hupper, hcs⟩ := h
  have hsolid : Solid c := by
    rcases Bool.or_eq_true_iff.1 hupper with h | h
    · exact .of_isUpper h
    · obtain rfl : c = '_' := by simpa using h
      exact .of_range (by decide)
  obtain ⟨d, r, rfl, hd, -⟩ := hrest.exists_cons
  obtain ⟨htake, hdrop⟩ := run_before (r := r) hcs hd
  have hslash : c ≠ '/' := by
    rintro rfl
    exact absurd hupper (by decide)
  refine takes_lexeme hsolid.percent hsolid.layout (not_comment hslash) (by decide) (by decide)
    fun pos => ?_
  simp only [scan, hsolid.punctuation, hsolid.solo, hlower, hupper, Bool.false_eq_true, if_false,
    if_true]
  rw [List.append_eq, htake, hdrop]

/-- Behind a full stop that is a name, or begins one, no clause ends. -/
theorem endsClause_symbols {c : Char} {cs rest : List Char}
    (hcs : ∀ x ∈ c :: cs, isSymbolChar x = true) (hrest : Delimited rest)
    (hdot : c :: cs = ['.'] → rest.head? ≠ some ' ') :
    (c = '.' && endsClause (cs ++ rest)) = false := by
  by_cases hc : c = '.'
  · subst hc
    cases cs with
    | nil =>
      obtain ⟨d, r, rfl, -, -, -, hpercent, hlayout⟩ := hrest.exists_cons
      have hspace : isLayoutChar d = false := by
        by_contra h
        exact hdot rfl (by rw [hlayout (by simpa using h)]; rfl)
      simp [endsClause, hspace, hpercent]
    | cons x cs =>
      have hx := isSymbolChar_only (hcs x (by simp))
      simp [endsClause, hx.layout, hx.percent]
  · simp [hc]

/-- Symbol characters are taken as far as they go, unless they open a comment or are a full stop. -/
theorem takes_symbols {c : Char} {cs rest : List Char}
    (hcs : ∀ x ∈ c :: cs, isSymbolChar x = true) (hcomment : ¬ ['/', '*'] <+: c :: cs)
    (hrest : Delimited rest) (hdot : c :: cs = ['.'] → rest.head? ≠ some ' ') :
    Takes .name (String.ofList (c :: cs)) (c :: cs ++ rest) rest := by
  have honly := isSymbolChar_only (hcs c (List.mem_cons_self ..))
  have hstop := endsClause_symbols hcs hrest hdot
  obtain ⟨d, r, rfl, -, hd, -⟩ := hrest.exists_cons
  obtain ⟨htake, hdrop⟩ :=
    run_before (r := r) (fun x hx => hcs x (List.mem_cons_of_mem c hx)) hd
  -- The symbols do not open a comment, with what follows either.
  have hopen : ¬ ['/', '*'] <+: c :: (cs ++ d :: r) := by
    rintro ⟨s, hs⟩
    obtain ⟨rfl, htail⟩ := List.cons.inj hs
    cases cs with
    | nil =>
      obtain ⟨rfl, -⟩ := List.cons.inj htail
      exact absurd hd (by decide)
    | cons x cs =>
      obtain ⟨rfl, -⟩ := List.cons.inj htail
      exact hcomment ⟨cs, rfl⟩
  refine takes_lexeme honly.percent honly.layout hopen (by decide) (by decide) fun pos => ?_
  simp only [scan, honly.punctuation, honly.solo, honly.lower, honly.upper, honly.underscore,
    honly.digit, honly.quote, honly.string, hcs c (List.mem_cons_self ..), List.append_eq, hstop,
    Bool.false_eq_true, decide_false, Bool.or_self, if_false, if_true, htake, hdrop]

/-- Between quotes a name is what its quotes are escaped in. -/
theorem quotedText_escaped {name rest : List Char} (hname : '\\' ∉ name) (hrest : Delimited rest)
    (pos : Nat) : ∃ pos', quotedText '\'' (name.flatMap escapeQuote ++ '\'' :: rest) pos =
      some (name, rest, pos') := by
  induction name generalizing pos with
  | nil =>
    obtain ⟨d, r, rfl, -, -, hd, -⟩ := hrest.exists_cons
    exact ⟨pos + '\''.utf8Size, by simp [quotedText, hd]⟩
  | cons c name ih =>
    obtain ⟨hc, hmem⟩ : '\\' ≠ c ∧ '\\' ∉ name := by simpa using hname
    obtain ⟨e, es, he⟩ : ∃ e es, name.flatMap escapeQuote ++ '\'' :: rest = e :: es :=
      List.exists_cons_of_ne_nil (by simp)
    by_cases hquote : c = '\''
    · subst hquote
      obtain ⟨pos', h⟩ := ih hmem (pos + '\\'.utf8Size + '\''.utf8Size)
      exact ⟨pos', by simp [quotedText, escapeQuote, h, unescape]⟩
    · obtain ⟨pos', h⟩ := ih hmem (pos + c.utf8Size)
      rw [he] at h
      refine ⟨pos', ?_⟩
      simp [quotedText, escapeQuote, hquote, Ne.symm hc, he, h]

/-- A quoted name is taken with its quotes. -/
theorem takes_quoted {name rest : List Char} (hname : '\\' ∉ name) (hrest : Delimited rest) :
    Takes .name (String.ofList name) ('\'' :: name.flatMap escapeQuote ++ ['\''] ++ rest) rest := by
  have htext : '\'' :: name.flatMap escapeQuote ++ ['\''] ++ rest =
      '\'' :: (name.flatMap escapeQuote ++ '\'' :: rest) := by simp
  rw [htext]
  refine .of_scan (by decide) (by decide) (not_comment (by decide)) (by decide) (by decide)
    fun pos => ?_
  obtain ⟨pos', h⟩ := quotedText_escaped hname hrest (pos + '\''.utf8Size)
  refine ⟨⟨.name, String.ofList name, pos, false, true⟩, pos', ?_, rfl, rfl⟩
  rw [scan_quote, quotedToken, h]

end Lexer

/-- A name of symbol characters needs no quotes. -/
theorem needsQuotes_symbols {name : List Char} (hne : name ≠ [])
    (h : ∀ c ∈ name, isSymbolChar c = true) : needsQuotes name = false := by
  have hall : name.all isSymbolChar = true := List.all_eq_true.2 h
  obtain ⟨c, r, rfl⟩ := List.exists_cons_of_ne_nil hne
  have hc := h c (List.mem_cons_self ..)
  have hcomma : c :: r ≠ [','] ∧ c :: r ≠ ['|'] := by
    constructor <;> rintro h <;> obtain ⟨rfl, -⟩ := List.cons.inj h <;> exact absurd hc (by decide)
  simp only [needsQuotes, hne, hcomma.1, hcomma.2, (isSymbolChar_only hc).lower, hall, if_false,
    Bool.false_eq_true, Bool.not_true, decide_false, Bool.or_self]
  split <;> rfl

/-- **A written name is one token**, which stands for the name. -/
theorem Lexer.takes_name {name rest : List Char} (hname : WritableName name)
    (hrest : Delimited rest) (hdot : name = ['.'] → rest.head? ≠ some ' ') :
    Takes .name (String.ofList name) (atomChars name ++ rest) rest := by
  -- The cases are those of `needsQuotes`: quotes for whatever would not be scanned as one name.
  unfold atomChars
  split
  · next hquotes =>
    refine takes_quoted (fun hmem => ?_) hrest
    rw [needsQuotes_symbols (List.ne_nil_of_mem hmem) (hname.backslash hmem)] at hquotes
    cases hquotes
  next hquotes =>
  cases name with
  | nil => exact absurd rfl hquotes
  | cons c r =>
    have hpair : c :: r ≠ "[]".toList := hname.brackets
    simp only [needsQuotes, reduceCtorEq, hpair, hname.braces, if_false, decide_false,
      Bool.false_or, Bool.or_false] at hquotes
    split at hquotes
    · next hsolo =>
      have hsolo' : c :: r = ['!'] ∨ c :: r = [';'] := by simpa using hsolo
      rcases hsolo' with h | h <;> rw [h]
      · exact takes_solo (.inl rfl) rest
      · exact takes_solo (.inr rfl) rest
    split at hquotes
    · exact absurd rfl hquotes
    split at hquotes
    · next hlower =>
      have hclass : (fun x => Text.isLetter x || Text.isDigit x || x == '_') = isAlnum := by
        funext x
        rw [Bool.or_comm, isAlnum, Bool.or_assoc]
      have hall : ∀ x ∈ c :: r, isAlnum x = true := by simpa [hclass] using hquotes
      exact takes_word hlower (fun x hx => hall x (List.mem_cons_of_mem c hx)) hrest
    · have hall : ∀ x ∈ c :: r, isSymbolChar x = true := by simpa using hquotes
      exact takes_symbols hall hname.comment hrest hdot

/-! ## §4. Terms as they are read. -/

mutual

/-- The term is one that is read: its variables can be written, and anonymous ones are numbered
    through from left to right, from behind the first number to the second one. -/
inductive Legible : Nat → Term → Nat → Prop where
  /-- A variable with a name. -/
  | named {n : Nat} {x : String} (hx : IsVariable x.toList) (hne : x ≠ "_") :
      Legible n (.var x 0) n
  /-- An anonymous variable. -/
  | anonymous {n : Nat} : Legible n (.var (anonymousName (n + 1)) 0) (n + 1)
  /-- A constant. -/
  | const {n : Nat} {a : Atomic} {pos : Int} : Legible n (.const a pos) n
  /-- A compound has an argument. -/
  | app {n n₁ n' : Nat} {f : String} {arg : Term} {args : List Term} {attrs : Attrs} {pos : Int}
      (harg : Legible n arg n₁) (hargs : LegibleAll n₁ args n') :
      Legible n (.app f (arg :: args) attrs pos) n'

/-- The terms of the list are read one after the other. -/
inductive LegibleAll : Nat → List Term → Nat → Prop where
  /-- No term. -/
  | nil {n : Nat} : LegibleAll n [] n
  /-- One more. -/
  | cons {n n₁ n' : Nat} {t : Term} {ts : List Term} (ht : Legible n t n₁)
      (hts : LegibleAll n₁ ts n') : LegibleAll n (t :: ts) n'

end

mutual

/-- The number of anonymous variables goes up. -/
theorem Legible.le {n n' : Nat} {t : Term} (h : Legible n t n') : n ≤ n' := by
  cases h with
  | anonymous => exact Nat.le_succ n
  | app harg hargs => exact Nat.le_trans harg.le hargs.le
  | _ => exact Nat.le_refl n

theorem LegibleAll.le {n n' : Nat} {ts : List Term} (h : LegibleAll n ts n') : n ≤ n' := by
  cases h with
  | nil => exact Nat.le_refl n
  | cons ht hts => exact Nat.le_trans ht.le hts.le

end

mutual

/-- Shaping renames compounds only. -/
theorem Legible.shape {n n' : Nat} {t : Term} (h : Legible n t n') : Legible n t.shape n' := by
  cases h with
  | app harg hargs =>
    simp only [Term.shape]
    split <;> exact .app harg.shape hargs.shapes
  | named hx hne => exact .named hx hne
  | anonymous => exact .anonymous
  | const => exact .const

/-- Shaped terms stay legible. -/
theorem LegibleAll.shapes {n n' : Nat} {ts : List Term} (h : LegibleAll n ts n') :
    LegibleAll n (Term.shapes ts) n' := by
  cases h with
  | nil => exact .nil
  | cons ht hts => exact .cons ht.shape hts.shapes

end

/-- A list is legible when its elements and its tail are. -/
theorem LegibleAll.ofList {n n₁ n' : Nat} {ts : List Term} {tail : Term}
    (h : LegibleAll n ts n₁) (htail : Legible n₁ tail n') : Legible n (Term.ofList ts tail) n' := by
  induction ts generalizing n with
  | nil =>
    cases h
    exact htail
  | cons t ts ih =>
    cases h with
    | cons ht hts => exact .app ht (.cons (ih hts) .nil)

/-- The tokens that are variables can be written. -/
def NamedWell (ts : List Token) : Prop :=
  ∀ t ∈ ts, t.kind = .variable → IsVariable t.value.toList

/-- Two rows of tokens are named well when both are. -/
theorem namedWell_append {ts us : List Token} :
    NamedWell (ts ++ us) ↔ NamedWell ts ∧ NamedWell us := by
  simp only [NamedWell, List.mem_append, or_imp, forall_and]

/-- The tokens behind the first one are named well. -/
theorem NamedWell.tail {t : Token} {ts : List Token} (h : NamedWell (t :: ts)) : NamedWell ts :=
  fun u hu => h u (List.mem_cons_of_mem t hu)

mutual

/-- **What is derived from tokens is legible.** -/
theorem Derives.legible {ops : OpTable} {n n' : Nat} {ts : List Token} {t : Term} {p : Int}
    (h : Derives ops n ts t p n') (hts : NamedWell ts) : Legible n t n' := by
  -- Each rule of the grammar hands out its anonymous variables from left to right, as reading does.
  cases h with
  | «variable» hkind hvalue => exact .named (hts _ (List.mem_cons_self ..) hkind) hvalue
  | anonymous hkind hvalue => exact .anonymous
  | compound hname hleft hlayout hargs hright =>
    obtain ⟨arg, args, n₁, rfl, harg, hrest⟩ :=
      hargs.legible (namedWell_append.1 hts.tail.tail).1
    exact .app harg hrest
  | parens hleft ht hp hright => exact ht.legible (namedWell_append.1 hts.tail).1
  | list hleft helements hright =>
    obtain ⟨arg, args, n₁, rfl, harg, hrest⟩ :=
      helements.legible (namedWell_append.1 hts.tail).1
    exact LegibleAll.ofList (.cons harg hrest) .const
  | partialList hleft helements hbar htail hp hright =>
    have hparts := namedWell_append.1 hts.tail
    obtain ⟨arg, args, n₁, rfl, harg, hrest⟩ := helements.legible hparts.1
    exact LegibleAll.ofList (.cons harg hrest)
      (htail.legible (namedWell_append.1 hparts.2.tail).1)
  | before hop hquoted hd harg hp => exact .app (harg.legible hts.tail) .nil
  | between hleft hp hop hright hq =>
    have hparts := namedWell_append.1 hts
    exact .app (hleft.legible hparts.1) (.cons (hright.legible hparts.2.tail) .nil)
  | _ => exact .const
termination_by (ts.length, 0)

/-- Arguments that are derived are legible. -/
theorem Arguments.legible {ops : OpTable} {n n' : Nat} {ts : List Token} {args : List Term}
    (h : Arguments ops n ts args n') (hts : NamedWell ts) :
    ∃ arg rest n₁, args = arg :: rest ∧ Legible n arg n₁ ∧ LegibleAll n₁ rest n' := by
  cases h with
  | last ht hp => exact ⟨_, [], _, rfl, ht.legible hts, .nil⟩
  | more ht hp hcomma hrest =>
    have hparts := namedWell_append.1 hts
    obtain ⟨arg, rest, n₁, rfl, harg, hmore⟩ := hrest.legible hparts.2.tail
    exact ⟨_, _, _, rfl, ht.legible hparts.1, .cons harg hmore⟩
termination_by (ts.length, 1)

end

namespace Lexer

theorem scan_variable (cs : List Char) (pos : Nat) (h : (scan cs pos).1.kind = .variable) :
    IsVariable (scan cs pos).1.value.toList := by
  have hquoted (kind : TokenKind) (hk : kind ≠ .variable) (c : Char) (r : List Char) :
      (quotedToken kind c r pos).1.kind ≠ .variable := by
    rcases quotedToken_kind kind c r pos with h | h <;> rw [h]
    · exact hk
    · decide
  -- Only the case of a variable gives a token of that kind; the other cases of the scanner are excluded
  -- one by one.
  unfold scan at h ⊢
  split at h
  · cases h
  next c r =>
  split at h
  · next hk => exact absurd h (punctuation?_kind hk).2.2
  split at h
  · cases h
  split at h
  · cases h
  split at h
  · next hpunct hsolo hlower hupper =>
    simp only
    rw [if_neg hsolo, if_neg hlower, if_pos hupper]
    exact ⟨c, _, String.toList_ofList, by simpa using hlower, hupper,
      List.all_eq_true.1 List.all_takeWhile⟩
  split at h
  · cases h
  split at h
  · exact absurd h (hquoted .name (by decide) c r)
  split at h
  · exact absurd h (hquoted .string (by decide) c r)
  split at h
  · cases h
  split at h <;> cases h

/-- The tokens of a text are named well. -/
theorem tokens_namedWell {l : Lexer} (hl : l.fault = none) : NamedWell l.tokens.1 := by
  intro t ht hkind
  obtain ⟨⟨cs, pos, fault⟩, hfault, rfl⟩ := mem_take _ l hl t ht
  obtain rfl : fault = none := hfault
  rw [next_eq] at hkind ⊢
  have hclosed : (skipLayout .plain cs pos).unclosed = false :=
    closed_of_kind (show (behind pos _).1.kind ≠ .error by rw [hkind]; decide)
  rw [behind_closed hclosed] at hkind ⊢
  exact scan_variable _ _ hkind

end Lexer

/-! ## §5. Written terms. -/

/-- The term without places and marks, its variables renamed. -/
def Term.bare (name : String → String) (t : Term) : Term :=
  t.restate name (fun _ => 0) (fun _ => .none)

/-- The tokens spell what follows the first element inside the brackets of a list: further
    elements, and a tail behind a bar unless it is the empty list. -/
inductive SpellsTail (d : Nat) : Nat → List Token → Term → Nat → Prop where
  /-- The list ends. -/
  | done {n : Nat} : SpellsTail d n [] (.const .nil (-1)) n
  /-- One more element. -/
  | more {n n₁ n' : Nat} {comma : Token} {us vs : List Token} {head tail : Term}
      (hcomma : comma.kind = .comma) (hhead : Spells d n us head n₁)
      (htail : SpellsTail d n₁ vs tail n') :
      SpellsTail d n (comma :: (us ++ vs)) (Term.cons head tail) n'
  /-- A tail behind a bar. -/
  | bar {n n' : Nat} {bar : Token} {us : List Token} {tail : Term} (hbar : bar.kind = .bar)
      (htail : Spells d n us tail n') : SpellsTail d n (bar :: us) tail n'

/-- The further elements come first; a bar and a tail may follow. -/
theorem SpellsTail.exists_rest {d n n' : Nat} {vs : List Token} {t : Term}
    (h : SpellsTail d n vs t n') :
    (∃ ts, SpellsRest d n vs ts n' ∧ t = Term.ofList ts (.const .nil (-1))) ∨
      ∃ us bar ws ts tail n₂, vs = us ++ bar :: ws ∧ SpellsRest d n us ts n₂ ∧ bar.kind = .bar ∧
        Spells d n₂ ws tail n' ∧ t = Term.ofList ts tail := by
  induction h with
  | done => exact .inl ⟨[], .done, rfl⟩
  | bar hbar htail => exact .inr ⟨[], _, _, [], _, _, rfl, .done, hbar, htail, rfl⟩
  | more hcomma hhead htail ih =>
    rcases ih with ⟨ts, hts, rfl⟩ | ⟨us, bar, ws, ts, tail, n₂, rfl, hts, hbar, hlast, rfl⟩
    · exact .inl ⟨_ :: ts, .more hcomma hhead hts, rfl⟩
    · refine .inr ⟨_, bar, ws, _ :: ts, tail, n₂, ?_, .more hcomma hhead hts, hbar, hlast, rfl⟩
      simp

/-- A list cell is spelt by its first element and what follows it. -/
theorem SpellsTail.cell {d n n₁ n' : Nat} {left right : Token} {us vs : List Token}
    {head tail : Term} (h : SpellsTail d n₁ vs tail n') (hleft : left.kind = .bracketOpen)
    (hhead : Spells d n us head n₁) (hright : right.kind = .bracketClose) :
    Spells (d + 1) n (left :: (us ++ vs ++ [right])) (Term.cons head tail) n' := by
  rcases h.exists_rest with ⟨ts, hts, rfl⟩ | ⟨ws, bar, xs, ts, tail, n₂, rfl, hts, hbar, htail, rfl⟩
  · exact .list hleft hhead hts hright
  · have hspells := Spells.partialList hleft hhead hts hbar htail hright
    simpa only [List.append_assoc, List.cons_append, Term.ofList, List.foldr_cons] using hspells

/-- A list cell, with names changed and everything else forgotten. -/
theorem Term.bare_cons {name : String → String} {head tail : Term} :
    (Term.cons head tail).bare name = .app "cons" [head.bare name, tail.bare name] .none 0 := rfl

theorem Term.bare_app {name : String → String} {f : String} {args : List Term} {attrs : Attrs}
    {pos : Int} :
    (Term.app f args attrs pos).bare name = .app f (args.map (Term.bare name)) .none 0 := by
  rw [Term.bare, Term.restate, Term.restates_eq_map]
  rfl

section Printing

variable {n m d k k' : Nat} {rest : List Char}

/-- A name that is written out is not anonymous. -/
theorem IsVariable.not_anonymous {x : String} (h : IsVariable x.toList) :
    isAnonymous x = false := by
  obtain ⟨c, r, hx, -, -, hr⟩ := h
  have hsharp : isAlnum '#' = false := by decide
  rw [isAnonymous, hx]
  cases r with
  | nil => simp [anonymousLead, List.isPrefixOf]
  | cons e r =>
    have he : '#' ≠ e := by
      rintro rfl
      exact absurd (hr '#' (List.mem_cons_self ..)) (by simp [hsharp])
    simp [anonymousLead, List.isPrefixOf, he]

/-- A variable is read back, an anonymous one with its new number. -/
theorem Legible.prints_var {x : String} {i : Int} (h : Legible (n + k) (.var x i) (n + k'))
    (hrest : Delimited rest) (pos : Nat) :
    ∃ us t' pos', Lexer.Scans ⟨varChars x i ++ rest, pos, none⟩ us ⟨rest, pos', none⟩ ∧
      Spells d (m + k) us t' (m + k') ∧ t'.bare id = (Term.var x i).bare (renumber n m) := by
  -- A name is written as it stands, and an anonymous variable as an underscore.
  generalize hn : n + k = a at h
  generalize hn' : n + k' = b at h
  cases h with
  | named hx hne =>
    obtain ⟨t, pos', hscan, hkind, hvalue, -⟩ := Lexer.takes_variable hx hrest pos
    have hname : t.value = x := hvalue.trans String.ofList_toList
    obtain rfl : k = k' := by omega
    refine ⟨[t], _, pos', ?_, .named hkind (by rwa [hname]), ?_⟩
    · simpa [varChars, hx.not_anonymous] using hscan
    · simp [Term.bare, Term.restate, renumber, hx.not_anonymous, hname]
  | anonymous =>
    have hx : IsVariable ['_'] := ⟨'_', [], rfl, by decide, by decide, by simp⟩
    obtain ⟨t, pos', hscan, hkind, hvalue, -⟩ := Lexer.takes_variable hx hrest pos
    obtain ⟨rfl, rfl⟩ : a = n + k ∧ k' = k + 1 := by omega
    refine ⟨[t], _, pos', ?_, .anonymous hkind hvalue, ?_⟩
    · simpa [varChars, isAnonymous_anonymousName] using hscan
    · simp [Term.bare, Term.restate, Nat.add_assoc, renumber_anonymousName]

/-- An atom is one token. -/
theorem prints_atom {s : String} {p : Int} (hs : WritableName s.toList) (hrest : Delimited rest)
    (hdot : s = "." → rest.head? ≠ some ' ') (pos : Nat) :
    ∃ us t' pos', Lexer.Scans ⟨atomChars s.toList ++ rest, pos, none⟩ us ⟨rest, pos', none⟩ ∧
      Spells d (m + k) us t' (m + k) ∧
      t'.bare id = (Term.const (.atom s) p).bare (renumber n m) := by
  have hdot' : s.toList = ['.'] → rest.head? ≠ some ' ' := fun h =>
    hdot (String.toList_injective h)
  obtain ⟨t, pos', hscan, hkind, hvalue, -⟩ := Lexer.takes_name hs hrest hdot' pos
  refine ⟨[t], _, pos', hscan, .atom hkind, ?_⟩
  simp [Token.atom, Term.bare, Term.restate, hvalue]

/-- The empty list is a pair of brackets. -/
theorem prints_nil {p : Int} (pos : Nat) :
    ∃ us t' pos', Lexer.Scans ⟨'[' :: ']' :: rest, pos, none⟩ us ⟨rest, pos', none⟩ ∧
      Spells d (m + k) us t' (m + k) ∧ t'.bare id = (Term.const .nil p).bare (renumber n m) := by
  obtain ⟨left, pos₁, hscan, hleft, -, -⟩ :=
    Lexer.takes_punctuation (c := '[') rfl (']' :: rest) pos
  obtain ⟨right, pos₂, hscan₂, hright, -, -⟩ :=
    Lexer.takes_punctuation (c := ']') rfl rest pos₁
  exact ⟨_, _, pos₂, hscan.append hscan₂, .nil hleft hright, rfl⟩

/-- Punctuation and the blank end a word. -/
theorem delimited_cons {c : Char} (hc : c ∈ ['(', ')', ']', ',', '|', ' ']) (r : List Char) :
    Delimited (c :: r) := ⟨c, r, rfl, hc⟩

/-- Behind an argument stands a comma or the closing parenthesis. -/
theorem delimited_restChars (args : List Term) (r : List Char) :
    Delimited (Term.restChars args ++ ')' :: r) ∧
      (Term.restChars args ++ ')' :: r).head? ≠ some ' ' := by
  cases args with
  | nil => exact ⟨delimited_cons (by decide) _, by simp [Term.restChars]⟩
  | cons => exact ⟨delimited_cons (by decide) _, by simp [Term.restChars]⟩

/-- Behind the first element of a list stands a comma, a bar or the closing bracket. -/
theorem delimited_tailChars {t : Term} (h : Legible n t k) (r : List Char) :
    Delimited (t.tailChars ++ ']' :: r) ∧ (t.tailChars ++ ']' :: r).head? ≠ some ' ' := by
  by_cases hnil : ∃ p, t = .const .nil p
  · obtain ⟨p, rfl⟩ := hnil
    exact ⟨delimited_cons (by decide) _, by simp [Term.tailChars]⟩
  by_cases hcell : t.IsCell
  · obtain ⟨head, tail, attrs, p, rfl⟩ := hcell
    exact ⟨delimited_cons (by decide) _, by simp [Term.tailChars]⟩
  · rw [Term.tailChars_eq (fun p hp => hnil ⟨p, hp⟩) hcell]
    exact ⟨delimited_cons (by decide) _, by simp⟩

/-- The first argument of a compound is read before the others. -/
theorem Legible.exists_args {f : String} {arg : Term} {args : List Term} {attrs : Attrs} {p : Int}
    (h : Legible (n + k) (.app f (arg :: args) attrs p) (n + k')) :
    ∃ k₁, Legible (n + k) arg (n + k₁) ∧ LegibleAll (n + k₁) args (n + k') := by
  cases h with
  | app harg hargs =>
    obtain ⟨j, rfl⟩ := Nat.exists_eq_add_of_le harg.le
    exact ⟨k + j, by rwa [← Nat.add_assoc], by rwa [← Nat.add_assoc]⟩

/-- Behind the first term the others are legible. -/
theorem LegibleAll.exists_cons {t : Term} {ts : List Term}
    (h : LegibleAll (n + k) (t :: ts) (n + k')) :
    ∃ k₁, Legible (n + k) t (n + k₁) ∧ LegibleAll (n + k₁) ts (n + k') := by
  cases h with
  | cons ht hts =>
    obtain ⟨j, rfl⟩ := Nat.exists_eq_add_of_le ht.le
    exact ⟨k + j, by rwa [← Nat.add_assoc], by rwa [← Nat.add_assoc]⟩

/-- The head and the tail of a legible list cell are legible in turn. -/
theorem Legible.exists_cell {head tail : Term} {attrs : Attrs} {p : Int}
    (h : Legible (n + k) (.app "cons" [head, tail] attrs p) (n + k')) :
    ∃ k₁, Legible (n + k) head (n + k₁) ∧ Legible (n + k₁) tail (n + k') := by
  obtain ⟨k₁, hhead, hrest⟩ := h.exists_args
  obtain ⟨k₂, htail, hnil⟩ := hrest.exists_cons
  generalize n + k₂ = b at htail hnil
  cases hnil
  exact ⟨k₁, hhead, htail⟩

/-- A constant hands out no anonymous variable. -/
theorem Legible.const_eq {a : Atomic} {p : Int} (h : Legible (n + k) (.const a p) (n + k')) :
    k = k' := by
  generalize hn : n + k = b at h
  generalize hn' : n + k' = c at h
  cases h
  omega

mutual

/-- **The tokens of a written term spell it**, up to places and marks, with its anonymous variables
    numbered on from `m` where they were from `n`. -/
theorem Legible.prints {t : Term} {n m d k k' : Nat} {rest : List Char}
    (h : Legible (n + k) t (n + k')) (hw : t.Writable) (hd : t.nesting ≤ d)
    (hrest : Delimited rest) (hdot : ∀ p, t = .const (.atom ".") p → rest.head? ≠ some ' ')
    (pos : Nat) :
    ∃ us t' pos', Lexer.Scans ⟨t.chars ++ rest, pos, none⟩ us ⟨rest, pos', none⟩ ∧
      Spells d (m + k) us t' (m + k') ∧ t'.bare id = t.bare (renumber n m) := by
  -- The induction is mutual over terms, tails of lists and further arguments, as the writer is.
  cases t with
  | var x i => exact h.prints_var hrest pos
  | absent => cases h
  | const a p =>
    obtain rfl := h.const_eq
    cases a with
    | number => cases hw
    | nil => exact prints_nil pos
    | atom s => exact prints_atom hw hrest (fun hs => hdot p (by rw [hs])) pos
  | app f args attrs p =>
    -- A list cell is written with brackets, and its elements one level down.
    by_cases hcell : (Term.app f args attrs p).IsCell
    · obtain ⟨head, tail, attrs', p', happ⟩ := hcell
      cases happ
      obtain ⟨k₁, hhead, htail⟩ := h.exists_cell
      obtain ⟨-, hwhead, hwtail, -⟩ := hw
      rw [Term.nesting] at hd
      obtain ⟨d, rfl⟩ : ∃ e, d = e + 1 := ⟨d - 1, by omega⟩
      obtain ⟨hdelim, hspace⟩ := delimited_tailChars htail rest
      obtain ⟨left, pos₁, hscan, hleft, -, -⟩ :=
        Lexer.takes_punctuation (c := '[') rfl (head.chars ++ (tail.tailChars ++ ']' :: rest)) pos
      obtain ⟨us, head', pos₂, hscan₁, hus, hhead'⟩ :=
        hhead.prints (m := m) (d := d) hwhead (by omega) hdelim (fun _ _ => hspace) pos₁
      obtain ⟨vs, tail', pos₃, hscan₂, hvs, htail'⟩ :=
        htail.printsTail (m := m) (d := d) hwtail (by omega) pos₂
      obtain ⟨right, pos₄, hscan₃, hright, -, -⟩ :=
        Lexer.takes_punctuation (c := ']') rfl rest pos₃
      refine ⟨left :: (us ++ vs ++ [right]), _, pos₄, ?_, hvs.cell hleft hus hright, ?_⟩
      · simpa [Term.chars] using ((hscan.append hscan₁).append hscan₂).append hscan₃
      · rw [Term.bare_cons, hhead', htail', Term.bare_app]
        rfl
    cases args with
    | nil => cases h
    | cons arg args =>
      obtain ⟨k₁, harg, hargs⟩ := h.exists_args
      obtain ⟨hname, hwarg, hwargs⟩ := hw
      rw [Term.nesting_app hcell, Term.argsNesting] at hd
      obtain ⟨d, rfl⟩ : ∃ e, d = e + 1 := ⟨d - 1, by omega⟩
      obtain ⟨hdelim, hspace⟩ := delimited_restChars args rest
      -- Any other compound term is its name, its first argument and the others, between parentheses.
      obtain ⟨name, pos₀, hscan, hkind, hvalue, -⟩ := Lexer.takes_name hname
        (delimited_cons (c := '(') (by decide)
          (arg.chars ++ (Term.restChars args ++ ')' :: rest))) (fun _ => by simp) pos
      obtain ⟨left, pos₁, hscan₀, hleft, -, hlayout⟩ := Lexer.takes_punctuation (c := '(') rfl
        (arg.chars ++ (Term.restChars args ++ ')' :: rest)) pos₀
      obtain ⟨us, arg', pos₂, hscan₁, hus, harg'⟩ :=
        harg.prints (m := m) (d := d) hwarg (by omega) hdelim (fun _ _ => hspace) pos₁
      obtain ⟨vs, args', pos₃, hscan₂, hvs, hargs'⟩ :=
        hargs.prints (m := m) (d := d) hwargs (by omega) pos₂
      obtain ⟨right, pos₄, hscan₃, hright, -, -⟩ :=
        Lexer.takes_punctuation (c := ')') rfl rest pos₃
      refine ⟨name :: left :: (us ++ vs ++ [right]), _, pos₄, ?_,
        .compound hkind hleft hlayout hus hvs hright, ?_⟩
      · rw [Term.chars_app hcell]
        simpa using (((hscan.append hscan₀).append hscan₁).append hscan₂).append hscan₃
      · rw [Term.bare_app, Term.bare_app, hvalue, String.ofList_toList, List.map_cons, harg',
          hargs', List.map_cons]
termination_by (sizeOf t, 0)

/-- The tokens of the rest of a written list spell it. -/
theorem Legible.printsTail {t : Term} {n m d k k' : Nat} {rest : List Char}
    (h : Legible (n + k) t (n + k')) (hw : t.Writable) (hd : t.tailNesting ≤ d + 1) (pos : Nat) :
    ∃ us t' pos', Lexer.Scans ⟨t.tailChars ++ ']' :: rest, pos, none⟩ us
        ⟨']' :: rest, pos', none⟩ ∧
      SpellsTail d (m + k) us t' (m + k') ∧ t'.bare id = t.bare (renumber n m) := by
  -- The tail of a list is nothing at the end, a comma and an element, or a bar and what is no list.
  by_cases hnil : ∃ p, t = .const .nil p
  · obtain ⟨p, rfl⟩ := hnil
    obtain rfl := h.const_eq
    exact ⟨[], _, pos, .done, .done, rfl⟩
  by_cases hcell : t.IsCell
  · obtain ⟨head, tail, attrs, p, rfl⟩ := hcell
    obtain ⟨k₁, hhead, htail⟩ := h.exists_cell
    obtain ⟨-, hwhead, hwtail, -⟩ := hw
    rw [Term.tailNesting] at hd
    obtain ⟨hdelim, hspace⟩ := delimited_tailChars htail rest
    obtain ⟨comma, pos₁, hscan, hcomma, -, -⟩ :=
      Lexer.takes_punctuation (c := ',') rfl (head.chars ++ (tail.tailChars ++ ']' :: rest)) pos
    obtain ⟨us, head', pos₂, hscan₁, hus, hhead'⟩ :=
      hhead.prints (m := m) (d := d) hwhead (by omega) hdelim (fun _ _ => hspace) pos₁
    obtain ⟨vs, tail', pos₃, hscan₂, hvs, htail'⟩ :=
      htail.printsTail (m := m) (d := d) hwtail (by omega) pos₂
    refine ⟨comma :: (us ++ vs), _, pos₃, ?_, .more hcomma hus hvs, ?_⟩
    · simpa [Term.tailChars] using (hscan.append hscan₁).append hscan₂
    · rw [Term.bare_cons, hhead', htail', Term.bare_app]
      rfl
  · have hother : ∀ p, t ≠ .const .nil p := fun p hp => hnil ⟨p, hp⟩
    rw [Term.tailNesting_eq hother hcell] at hd
    rw [Term.tailChars_eq hother hcell]
    obtain ⟨bar, pos₁, hscan, hbar, -, -⟩ :=
      Lexer.takes_punctuation (c := '|') rfl (t.chars ++ ']' :: rest) pos
    obtain ⟨us, t', pos₂, hscan₁, hus, ht'⟩ :=
      h.prints (m := m) (d := d) hw (by omega) (delimited_cons (c := ']') (by decide) rest)
        (fun _ _ => by simp) pos₁
    exact ⟨bar :: us, t', pos₂, hscan.append hscan₁, .bar hbar hus, ht'⟩
termination_by (sizeOf t, 1)

/-- The tokens of written arguments behind the first one spell them. -/
theorem LegibleAll.prints {ts : List Term} {n m d k k' : Nat} {rest : List Char}
    (h : LegibleAll (n + k) ts (n + k')) (hw : Term.AllWritable ts)
    (hd : Term.argsNesting ts ≤ d + 1) (pos : Nat) :
    ∃ vs ts' pos', Lexer.Scans ⟨Term.restChars ts ++ ')' :: rest, pos, none⟩ vs
        ⟨')' :: rest, pos', none⟩ ∧
      SpellsRest d (m + k) vs ts' (m + k') ∧
      ts'.map (Term.bare id) = ts.map (Term.bare (renumber n m)) := by
  cases ts with
  -- No argument is left.
  | nil =>
    obtain rfl : k = k' := by
      generalize hn : n + k = b at h
      generalize hn' : n + k' = c at h
      cases h
      omega
    exact ⟨[], [], pos, .done, .done, rfl⟩
  | cons t ts =>
    obtain ⟨k₁, ht, hts⟩ := h.exists_cons
    obtain ⟨hwt, hwts⟩ := hw
    rw [Term.argsNesting] at hd
    obtain ⟨hdelim, hspace⟩ := delimited_restChars ts rest
    -- A comma, the next argument, and then the others.
    obtain ⟨comma, pos₁, hscan, hcomma, -, -⟩ :=
      Lexer.takes_punctuation (c := ',') rfl (t.chars ++ (Term.restChars ts ++ ')' :: rest)) pos
    obtain ⟨us, t', pos₂, hscan₁, hus, ht'⟩ :=
      ht.prints (m := m) (d := d) hwt (by omega) hdelim (fun _ _ => hspace) pos₁
    obtain ⟨vs, ts', pos₃, hscan₂, hvs, hts'⟩ :=
      hts.prints (m := m) (d := d) hwts (by omega) pos₂
    refine ⟨comma :: (us ++ vs), t' :: ts', pos₃, ?_, .more hcomma hus hvs, ?_⟩
    · simpa [Term.restChars] using (hscan.append hscan₁).append hscan₂
    · rw [List.map_cons, ht', hts', List.map_cons]
termination_by (sizeOf ts, 0)

end

end Printing

/-! ## §6. Shaping again. -/

/-- The internal name of a compound written `name/arity`. -/
def internalName (name : String) (arity : Nat) : String :=
  ((internalForm name arity).map Prod.fst).getD name

/-- Internal names are not renamed further. -/
theorem internalName_internalName (name : String) (arity : Nat) :
    internalName (internalName name arity) arity = internalName name arity := by
  cases h : internalForm name arity with
  | none =>
    have hname : internalName name arity = name := by rw [internalName, h]; rfl
    rw [hname, hname]
  | some form =>
    have hname : internalName name arity = form.1 := by rw [internalName, h]; rfl
    rw [hname]
    by_cases hsame : form.1 = name
    · rw [hsame, hname, hsame]
    unfold internalForm at h
    repeat' split at h
    all_goals cases h <;> first | exact absurd rfl hsame | rfl

/-- Shaping a compound term gives it its internal name, and shapes its arguments. -/
theorem Term.bare_shape_app {name : String → String} {f : String} {args : List Term}
    {attrs : Attrs} {pos : Int} : (Term.app f args attrs pos).shape.bare name =
      .app (internalName f args.length) ((Term.shapes args).map (Term.bare name)) .none 0 := by
  simp only [Term.shape, internalName]
  cases internalForm f args.length with
  | none => exact Term.bare_app
  | some form => exact Term.bare_app

/-- Shaping keeps the number of terms. -/
theorem Term.length_shapes (ts : List Term) : (Term.shapes ts).length = ts.length := by
  induction ts with
  | nil => rfl
  | cons t ts ih => rw [Term.shapes, List.length_cons, ih, List.length_cons]

mutual

/-- A term that equals a shaped one up to places and marks is shaped itself. -/
theorem Term.bare_shape {t u : Term} {name : String → String}
    (h : u.bare id = t.shape.bare name) : u.shape.bare id = t.shape.bare name := by
  cases t with
  | app f args attrs pos =>
    rw [Term.bare_shape_app] at h ⊢
    cases u with
    | app g us attrs' pos' =>
      rw [Term.bare_app] at h
      obtain ⟨rfl, hus⟩ := (Term.app.inj h).imp_right And.left
      have hlength : us.length = args.length := by
        have hmap := congrArg List.length hus
        rwa [List.length_map, List.length_map, Term.length_shapes] at hmap
      rw [Term.bare_shape_app, hlength, internalName_internalName, Term.bare_shapes hus]
    | _ => cases h
  | _ =>
    cases u with
    | app => cases h
    | _ => exact h
termination_by sizeOf t

/-- Terms that are shaped alike, up to names, are shaped alike again. -/
theorem Term.bare_shapes {ts us : List Term} {name : String → String}
    (h : us.map (Term.bare id) = (Term.shapes ts).map (Term.bare name)) :
    (Term.shapes us).map (Term.bare id) = (Term.shapes ts).map (Term.bare name) := by
  cases ts with
  | nil =>
    obtain rfl : us = [] := List.map_eq_nil_iff.1 h
    rfl
  | cons t ts =>
    cases us with
    | nil => cases h
    | cons u us =>
      obtain ⟨hu, hus⟩ := List.cons.inj h
      rw [Term.shapes, Term.shapes, List.map_cons, List.map_cons, Term.bare_shape hu,
        Term.bare_shapes hus]
termination_by sizeOf ts

end

/-! ## §7. Clauses. -/

/-- A term that is read is legible. -/
theorem readClause_legible {D : Int} {source : String} {n : Nat} {t : Term}
    (h : readClause ⟨.standard, D⟩ source n = .ok t) :
    ∃ raw n', t = Term.shape raw ∧ Legible n raw n' := by
  -- The variables of the text have the names that they were scanned with.
  have hnamed : NamedWell (Cursor.ofText source n).tokens := by
    rw [Cursor.ofText_tokens]
    exact Lexer.tokens_namedWell rfl
  simp only [readClause] at h
  split at h
  · cases h
  rcases hnext : (Cursor.ofText source n).next ⟨.standard, D⟩ with ⟨_ | u, c⟩ <;> rw [hnext] at h
  · cases h
  obtain rfl : u = t := by
    simp only at h
    split at h
    · exact Except.ok.inj h
    · cases h
  -- The clause was read from a derivation, whose term is legible.
  obtain ⟨raw, c₁, ⟨p, hp, ts, htokens, hder⟩, -, -, rfl⟩ :=
    (Cursor.next_reads OpTable.positive_standard (Cursor.ofText_sound source n).closed).2 u
      (by rw [hnext])
  rw [Cursor.ofText_anonymous] at hder
  rw [htokens] at hnamed
  exact ⟨raw, _, rfl, hder.legible (namedWell_append.1 hnamed).1⟩

/-- A space and a full stop are one token, and the text ends. -/
theorem Lexer.tokens_stop (pos : Nat) : ∃ stop eof l,
    Lexer.tokens ⟨[' ', '.'], pos, none⟩ = ([stop, eof], l) ∧ stop.kind = .stop ∧
      eof.kind = .eof := by
  refine ⟨_, _, _, rfl, rfl, rfl⟩

/-- **Reading undoes writing.**  A term that was read by the standard operators, with no number in
    it, names that can be written and more than a full stop, is read back from its written form: it
    comes out the same up to places and marks, with its anonymous variables numbered on. -/
theorem readClause_text {D₀ D : Int} {source : String} {n : Nat} (m : Nat) {t : Term}
    (h : readClause ⟨.standard, D₀⟩ source n = .ok t) (hw : t.Writable)
    (hdot : ∀ p, t ≠ .const (.atom ".") p) (hdepth : (t.nesting : Int) ≤ D) :
    ∃ t', readClause ⟨.standard, D⟩ (t.text ++ " .") m = .ok t' ∧
      t'.bare id = t.bare (renumber n m) := by
  obtain ⟨raw, n', rfl, hraw⟩ := readClause_legible h
  obtain ⟨k, rfl⟩ := Nat.exists_eq_add_of_le hraw.le
  obtain ⟨us, u, pos', hscan, hspells, hu⟩ :=
    Legible.prints (m := m) (k := 0) hraw.shape hw (Nat.le_refl _)
      (show Delimited [' ', '.'] from delimited_cons (by decide) _)
      (fun p hp => absurd hp (hdot p)) 0
  obtain ⟨stop, eof, l, htokens, hstop, heof⟩ := Lexer.tokens_stop pos'
  have htext : Lexer.ofText (raw.shape.text ++ " .") =
      ⟨raw.shape.chars ++ [' ', '.'], 0, none⟩ := by
    simp [Lexer.ofText, Term.text]
  refine ⟨u.shape, hspells.readClause (l := l) ?_ hstop heof hdepth,
    Term.bare_shape hu⟩
  rw [htext, hscan.tokens, htokens]

/-- A rule with an operator before its operand, a list with an anonymous tail and an atom that
    needs quotes. -/
theorem readClause_text_rule :
    ∃ t, readClause ⟨.standard, 1000⟩ "p(_, 'it''s') :- \\+ q([X|_])." 0 = .ok t ∧ t.Writable ∧
      t.text = "rule(p(_,'it\\'s'),not(q([X|_])))" ∧
      ∃ t', readClause ⟨.standard, 4⟩ (t.text ++ " .") 7 = .ok t' ∧
        t'.bare id = t.bare (renumber 0 7) := by
  have hread : readClause ⟨.standard, 1000⟩ "p(_, 'it''s') :- \\+ q([X|_])." 0 = .ok
      (.app "rule" [.app "p" [.var (anonymousName 1) 0, .const (.atom "it's") 5] .none 0,
        .app "not" [.app "q" [Term.cons (.var "X" 0) (.var (anonymousName 2) 0)] .none 20]
          .none 17] .none 14) := by
    with_unfolding_all rfl
  have hw : Term.Writable (.app "rule" [.app "p" [.var (anonymousName 1) 0,
      .const (.atom "it's") 5] .none 0, .app "not" [.app "q" [Term.cons (.var "X" 0)
        (.var (anonymousName 2) 0)] .none 20] .none 17] .none 14) := by
    refine ⟨.of_plain ?_ ?_ ?_ ?_, ⟨.of_plain ?_ ?_ ?_ ?_, trivial, .of_plain ?_ ?_ ?_ ?_, trivial⟩,
      ⟨.of_plain ?_ ?_ ?_ ?_, ⟨.of_plain ?_ ?_ ?_ ?_, ⟨.of_plain ?_ ?_ ?_ ?_, trivial, trivial,
        trivial⟩, trivial⟩, trivial⟩, trivial⟩ <;> decide
  exact ⟨_, hread, hw, by with_unfolding_all rfl,
    readClause_text 7 hread hw (fun p hp => by cases hp) (by decide)⟩

end PrologMachine
