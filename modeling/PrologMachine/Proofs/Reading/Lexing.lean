/-
  PrologMachine.Proofs.Reading.Lexing ── **THE TOKENS OF A TEXT THAT GOES ON.**

  A line break ends every token that could go on.  So the tokens in front of one are the same
  whatever follows it, except for quoted text and comments that were never closed.  The offset at
  which a text starts moves its tokens and does nothing else.

    * `Lexer.Scans`: tokens taken off the front of a text, one after the other.
    * `Lexer.next_continued`, `Lexer.next_behind`: the next token of a text that goes on behind a
      line break, and the one behind its end.
    * `Lexer.Coherent`: faults come with error tokens, and no variable is named like an anonymous
      one.
    * `Lexer.tokens_continued`, `Lexer.tokens_kept`, `Lexer.tokens_moved`: whole texts.
-/
import PrologMachine.Proofs.Derivation

namespace PrologMachine

open PrologMachine.Text (isAlnum isAsciiDigit)

/-! ## §1. Lists of characters. -/

section Pieces

variable {p : Char → Bool} {x : Char} {cs s : List Char}

/-- What is taken ends at the first character that does not belong. -/
theorem takeWhile_before (hx : p x = false) :
    (cs ++ x :: s).takeWhile p = cs.takeWhile p := by
  induction cs with
  | nil => simp [hx]
  | cons c cs ih => by_cases hc : p c = true <;> simp [hc, ih]

/-- What stands in front of a stop does not depend on what stands behind it. -/
theorem dropWhile_before (hx : p x = false) :
    (cs ++ x :: s).dropWhile p = cs.dropWhile p ++ x :: s := by
  induction cs with
  | nil => simp [hx]
  | cons c cs ih => by_cases hc : p c = true <;> simp [hc, ih]

end Pieces

@[simp] theorem byteLength_nil : byteLength [] = 0 := rfl

@[simp] theorem byteLength_cons (c : Char) (cs : List Char) :
    byteLength (c :: cs) = c.utf8Size + byteLength cs := rfl

@[simp] theorem byteLength_append (cs ds : List Char) :
    byteLength (cs ++ ds) = byteLength cs + byteLength ds := by
  induction cs with
  | nil => simp
  | cons c cs ih => simp only [List.cons_append, byteLength_cons, ih]; omega

/-- No byte is lost between the two halves. -/
theorem byteLength_takeWhile (p : Char → Bool) (cs : List Char) :
    byteLength (cs.takeWhile p) + byteLength (cs.dropWhile p) = byteLength cs := by
  rw [← byteLength_append, List.takeWhile_append_dropWhile]

variable {b : List Char} {d : Nat}

/-! ## §2. Pieces of a text in front of a line break. -/

/-- Where a block comment started matters only when it is never closed. -/
theorem skipLayout_block (cs s : List Char) (r r' : List Char) (p p' pos : Nat)
    (hclosed : (skipLayout (.block r p) cs pos).unclosed = false) :
    skipLayout (.block r p) (cs ++ s) pos = skipLayout (.block r' p') (cs ++ s) pos := by
  match cs with
  | [] => simp [skipLayout] at hclosed
  | [c] => simp [skipLayout] at hclosed
  | c :: d :: cs =>
    by_cases hend : c = '*' ∧ d = '/'
    · obtain ⟨rfl, rfl⟩ := hend
      rfl
    · have hstep : ∀ r p cs, skipLayout (.block r p) (c :: d :: cs) pos =
          skipLayout (.block r p) (d :: cs) (pos + c.utf8Size) := by
        intro r p cs
        rw [skipLayout]
        rintro cs' rfl hcs
        cases hcs
        exact hend ⟨rfl, rfl⟩
      rw [hstep] at hclosed
      simp only [List.cons_append, hstep]
      exact skipLayout_block (d :: cs) s r r' p p' _ hclosed

/-- The layout of a text that goes on behind a line break: it ends where it did, or the line break
    is part of it. -/
def Gap.continued (b : List Char) (g : Gap) : Gap :=
  match g.rest with
  | [] => skipLayout .plain b (g.position + 1)
  | c :: cs => { g with rest := c :: cs ++ '\n' :: b }

/-- No pair of characters begins where a text ends, unless the next character is the second one. -/
theorem pair_continued {c x y z : Char} {cs : List Char} (hy : y ≠ z)
    (h : ∀ ds, c = x → cs = y :: ds → False) :
    ∀ ds, c = x → cs ++ z :: b = y :: ds → False := by
  rintro ds hc hcs
  cases cs with
  | nil => exact hy (List.cons.inj hcs).1.symm
  | cons d cs => exact h cs hc (by rw [(List.cons.inj hcs).1])

/-- Layout that is closed and goes on behind a line break. -/
theorem skipLayout_continued (mode : LayoutMode) (cs : List Char) (pos : Nat)
    (hclosed : (skipLayout mode cs pos).unclosed = false) :
    skipLayout mode (cs ++ '\n' :: b) pos = (skipLayout mode cs pos).continued b := by
  -- The induction is on the layout, which is closed, so a line break behind the text goes on with it.
  fun_induction skipLayout mode cs pos with
  | case1 cs pos ih => exact ih hclosed
  | case2 cs pos ih =>
    rw [← ih hclosed]
    exact (skipLayout_block cs _ _ _ _ _ _ hclosed).symm
  | case3 c cs pos hline hblock hlayout ih =>
    rw [List.cons_append, skipLayout, if_pos hlayout]
    · exact ih hclosed
    · exact hline
    · exact pair_continued (by decide) hblock
  | case4 c cs pos hline hblock hlayout =>
    rw [List.cons_append, skipLayout, if_neg hlayout]
    · rfl
    · exact hline
    · exact pair_continued (by decide) hblock
  | case5 cs pos ih => exact ih hclosed
  | case6 c cs pos hc ih =>
    rw [List.cons_append, skipLayout, if_neg hc]
    exact ih hclosed
  | case7 r p cs pos ih => exact ih hclosed
  | case8 r p c cs pos hend ih =>
    rw [List.cons_append, skipLayout]
    · exact ih hclosed
    · exact pair_continued (by decide) hend
  | case9 pos => rfl
  | case10 pos => rfl
  | case11 r p pos => cases hclosed

/-- Quoted text that is closed is the same whatever follows, unless that is another quote. -/
theorem quotedText_continued {quote x : Char} (hq : quote ≠ x) (cs : List Char) (pos : Nat)
    {v r : List Char} {p : Nat} (h : quotedText quote cs pos = some (v, r, p)) :
    quotedText quote (cs ++ x :: b) pos = some (v, r ++ x :: b, p) := by
  -- The induction is on the quoted text; what stands behind the closing quote does not matter.
  fun_induction quotedText quote cs pos generalizing v r p with
  | case1 => cases h
  | case2 pos =>
    cases h
    simp [quotedText, hq.symm]
  | case3 => cases h
  | case4 cs pos v r hin ih =>
    cases h
    simp [quotedText, ih hin]
  | case5 => cases h
  | case6 d cs pos hd =>
    cases h
    simp [quotedText, hd]
  | case7 d cs pos v r hq' hin ih =>
    cases h
    simp [quotedText, ih hin, hq']
  | case8 => cases h
  | case9 c d cs pos hc hb v r hin ih =>
    cases h
    have := ih hin
    simp only [List.cons_append] at this
    simp [quotedText, this, hc, hb]
  | case10 => cases h

/-- A number does not go on with the text `x :: b`. -/
structure EndsNumber (x : Char) (b : List Char) : Prop where
  /-- It begins with no digit. -/
  digit : isAsciiDigit x = false
  /-- Nor with an exponent. -/
  exponent : (decide (x = 'e') || decide (x = 'E')) = false
  /-- Nor with a sign behind one. -/
  sign : (decide (x = '+') || decide (x = '-')) = false
  /-- Nor with a fraction. -/
  fraction : x = '.' → b.takeWhile isAsciiDigit = []

/-- A line break ends every number. -/
theorem endsNumber_newline : EndsNumber '\n' b := ⟨by decide, by decide, by decide, nofun⟩

section Numbers

variable {x : Char}

/-- The fraction of a number ends where the number ends. -/
theorem splitFraction_continued (hx : EndsNumber x b) (cs : List Char) :
    splitFraction (cs ++ x :: b) = ((splitFraction cs).1, (splitFraction cs).2 ++ x :: b) := by
  -- Nothing is left of the number, or it goes on with a point or something else.
  cases cs with
  | nil =>
    rw [List.nil_append]
    unfold splitFraction
    split
    · next r heq =>
      obtain ⟨rfl, rfl⟩ := List.cons.inj heq
      simp [hx.fraction rfl]
    · rfl
  | cons c cs =>
    by_cases hc : c = '.'
    · subst hc
      simp only [List.cons_append, splitFraction, takeWhile_before hx.digit,
        dropWhile_before hx.digit]
      split <;> rfl
    · have hplain : ∀ r, splitFraction (c :: r) = ([], c :: r) := fun r => by
        rw [splitFraction]
        rintro r' heq
        exact hc (List.cons.inj heq).1
      rw [List.cons_append, hplain, hplain]
      rfl

theorem splitExponent_continued (hx : EndsNumber x b) (cs : List Char) :
    splitExponent (cs ++ x :: b) = ((splitExponent cs).1, (splitExponent cs).2 ++ x :: b) := by
  have hd := hx.digit
  -- An exponent may lack its digits, its sign or both.
  cases cs with
  | nil => simp [splitExponent, hx.exponent]
  | cons e r =>
    cases r with
    | nil =>
      simp only [splitExponent, List.cons_append, List.nil_append]
      split <;> simp [hd, hx.sign]
    | cons s t =>
      simp only [splitExponent, List.cons_append]
      split
      · by_cases hs : (s = '+' || s = '-') = true
        · simp only [hs, if_true, takeWhile_before hd, dropWhile_before hd]
          split <;> rfl
        · rw [Bool.not_eq_true] at hs
          simp only [hs, Bool.false_eq_true, if_false, ← List.cons_append, takeWhile_before hd,
            dropWhile_before hd]
          split <;> rfl
      · rfl

theorem numberLexeme_continued (hx : EndsNumber x b) (cs : List Char) :
    numberLexeme (cs ++ x :: b) = ((numberLexeme cs).1, (numberLexeme cs).2 ++ x :: b) := by
  simp only [numberLexeme, takeWhile_before hx.digit, dropWhile_before hx.digit,
    splitFraction_continued hx, splitExponent_continued hx]

end Numbers

/-! ## §3. No byte is lost. -/

/-- Skipping layout loses no byte. -/
theorem skipLayout_bytes (mode : LayoutMode) (cs : List Char) (pos : Nat)
    (hclosed : (skipLayout mode cs pos).unclosed = false) :
    (skipLayout mode cs pos).position + byteLength (skipLayout mode cs pos).rest =
      pos + byteLength cs := by
  have hsize : '%'.utf8Size = 1 ∧ '/'.utf8Size = 1 ∧ '*'.utf8Size = 1 ∧ '\n'.utf8Size = 1 := by
    decide
  fun_induction skipLayout mode cs pos <;> simp_all <;> omega

theorem skipLayout_position (mode : LayoutMode) (cs : List Char) (pos : Nat)
    (hclosed : (skipLayout mode cs pos).unclosed = false) :
    pos ≤ (skipLayout mode cs pos).position := by
  fun_induction skipLayout mode cs pos <;> simp_all <;> omega

theorem quotedText_bytes {quote : Char} (cs : List Char) (pos : Nat) {v r : List Char} {p : Nat}
    (h : quotedText quote cs pos = some (v, r, p)) : p + byteLength r = pos + byteLength cs := by
  fun_induction quotedText quote cs pos generalizing v r p <;>
    grind [byteLength_cons, byteLength_nil]

/-- A fraction is split off the front. -/
theorem splitFraction_append (cs : List Char) :
    (splitFraction cs).1 ++ (splitFraction cs).2 = cs := by
  unfold splitFraction
  split
  · next r =>
    split
    · rfl
    · next digits _ => rw [List.cons_append, List.takeWhile_append_dropWhile]
  · rfl

theorem splitExponent_append (cs : List Char) :
    (splitExponent cs).1 ++ (splitExponent cs).2 = cs := by
  unfold splitExponent
  grind [List.takeWhile_append_dropWhile]

/-- A number and what is left make up the text. -/
theorem numberLexeme_append (cs : List Char) :
    (numberLexeme cs).1 ++ (numberLexeme cs).2 = cs := by
  simp only [numberLexeme, List.append_assoc, splitExponent_append, splitFraction_append,
    List.takeWhile_append_dropWhile]

theorem numberLexeme_bytes (cs : List Char) :
    byteLength (numberLexeme cs).1 + byteLength (numberLexeme cs).2 = byteLength cs := by
  rw [← byteLength_append, numberLexeme_append]

/-! ## §4. The same text at another offset. -/

/-- The token at another offset. -/
def Token.moved (d : Nat) (t : Token) : Token := { t with position := t.position + d }

/-- The error at another offset. -/
def SyntaxError.moved (d : Nat) (e : SyntaxError) : SyntaxError :=
  { e with position := e.position + d }

/-- The lexer at another offset. -/
def Lexer.moved (d : Nat) (l : Lexer) : Lexer :=
  ⟨l.rest, l.position + d, l.fault.map (SyntaxError.moved d)⟩

/-- The mode of a skipper at another offset. -/
def LayoutMode.moved (d : Nat) : LayoutMode → LayoutMode
  | .block rest position => .block rest (position + d)
  | mode => mode

/-- Skipping layout does not look at the offset. -/
theorem skipLayout_moved (mode : LayoutMode) (cs : List Char) (pos : Nat) :
    skipLayout (mode.moved d) cs (pos + d) =
      { skipLayout mode cs pos with position := (skipLayout mode cs pos).position + d } := by
  fun_induction skipLayout mode cs pos <;>
    simp_all [LayoutMode.moved, skipLayout, Nat.add_right_comm]

theorem quotedText_moved (quote : Char) (cs : List Char) (pos : Nat) :
    quotedText quote cs (pos + d) =
      (quotedText quote cs pos).map (fun (v, r, p) => (v, r, p + d)) := by
  fun_induction quotedText quote cs pos <;>
    simp_all [quotedText, Nat.add_right_comm]

/-! ## §5. One token. -/

/-- The lexer of a text that goes on behind a line break. -/
def Lexer.continued (b : List Char) (l : Lexer) : Lexer := { l with rest := l.rest ++ '\n' :: b }

namespace Lexer

theorem scan_quote (cs : List Char) (pos : Nat) : scan ('\'' :: cs) pos =
    ({ (quotedToken .name '\'' cs pos).1 with quoted := true },
      (quotedToken .name '\'' cs pos).2) := rfl

theorem scan_string (cs : List Char) (pos : Nat) :
    scan ('"' :: cs) pos = quotedToken .string '"' cs pos := rfl

/-- Quoted text that ends is the same in front of a line break. -/
theorem quotedToken_continued {kind : TokenKind} {c : Char} {cs : List Char} {pos : Nat}
    (hc : c ≠ '\n') (h : (quotedToken kind c cs pos).2.fault = none) :
    quotedToken kind c (cs ++ '\n' :: b) pos =
      ((quotedToken kind c cs pos).1, (quotedToken kind c cs pos).2.continued b) := by
  unfold quotedToken at h ⊢
  split at h
  · next v r p hq => simp only [quotedText_continued hc _ _ hq, continued]
  · cases h

/-- What is at fault in quoted text is that it does not end. -/
theorem quotedToken_fault {kind : TokenKind} {c : Char} {cs : List Char} {pos : Nat}
    (h : ∀ e, (quotedToken kind c cs pos).2.fault = some e → e.incomplete = false) :
    (quotedToken kind c cs pos).2.fault = none := by
  unfold quotedToken at h ⊢
  split
  · rfl
  · next hq =>
    rw [hq] at h
    cases h _ rfl

/-- A token in front of a line break is the same whatever follows it, unless it is quoted text
    that is never closed. -/
theorem scan_continued {c : Char} {cs : List Char} {pos : Nat}
    (h : ∀ e, (scan (c :: cs) pos).2.fault = some e → e.incomplete = false) :
    scan (c :: cs ++ '\n' :: b) pos =
      ((scan (c :: cs) pos).1, (scan (c :: cs) pos).2.continued b) := by
  have halnum : isAlnum '\n' = false := by decide
  have hsymbol : isSymbolChar '\n' = false := by decide
  have hends : endsClause (cs ++ '\n' :: b) = endsClause cs := by cases cs <;> rfl
  -- Quoted text may go over a line break, any other token ends in front of it.
  by_cases hquote : c = '\''
  · subst hquote
    rw [scan_quote] at h
    rw [List.cons_append, scan_quote, scan_quote,
      quotedToken_continued (by decide) (quotedToken_fault h)]
  by_cases hstring : c = '"'
  · subst hstring
    rw [scan_string] at h
    rw [List.cons_append, scan_string, scan_string,
      quotedToken_continued (by decide) (quotedToken_fault h)]
  rw [List.cons_append]
  unfold scan
  simp only [hends, takeWhile_before halnum, dropWhile_before halnum, takeWhile_before hsymbol,
    dropWhile_before hsymbol, hquote, hstring, if_false]
  -- Each of the other kinds of tokens takes characters that a line break is none of.
  split
  · rfl
  split
  · rfl
  split
  · rfl
  split
  · rfl
  split
  · rw [← List.cons_append, numberLexeme_continued endsNumber_newline]
    rfl
  split
  · rfl
  split
  · rfl
  · rfl

/-- A token and the rest are the text. -/
theorem lexeme_bytes (kind : TokenKind) (lexeme rest : List Char) (pos : Nat) :
    (Lexer.lexeme kind lexeme rest pos).2.position +
        byteLength (Lexer.lexeme kind lexeme rest pos).2.rest =
      pos + (byteLength lexeme + byteLength rest) := by
  simp only [Lexer.lexeme]
  omega

theorem quotedToken_bytes {kind : TokenKind} {c : Char} {cs : List Char} {pos : Nat} :
    (quotedToken kind c cs pos).2.position + byteLength (quotedToken kind c cs pos).2.rest =
      pos + byteLength (c :: cs) := by
  unfold quotedToken
  split
  · next hq =>
    have := quotedText_bytes _ _ hq
    simp only [byteLength_cons]
    omega
  · simp [stop]

/-- Reading a token loses no byte. -/
theorem scan_bytes (cs : List Char) (pos : Nat) :
    (scan cs pos).2.position + byteLength (scan cs pos).2.rest = pos + byteLength cs := by
  -- A token of one class takes the longest run of its characters.
  have hwhile (p : Char → Bool) (c : Char) (r : List Char) :
      byteLength (c :: r.takeWhile p) + byteLength (r.dropWhile p) = byteLength (c :: r) := by
    have := byteLength_takeWhile p r
    simp only [byteLength_cons]
    omega
  unfold scan
  split
  · rfl
  next c r =>
  have hone : byteLength [c] + byteLength r = byteLength (c :: r) := by simp
  split
  · rw [lexeme_bytes, hone]
  split
  · rw [lexeme_bytes, hone]
  split
  · rw [lexeme_bytes, hwhile]
  split
  · rw [lexeme_bytes, hwhile]
  split
  · have := numberLexeme_bytes (c :: r)
    simp only
    rw [lexeme_bytes, this]
  split
  · exact quotedToken_bytes
  split
  · exact quotedToken_bytes
  split
  · rw [lexeme_bytes, hone]
  split
  · rw [lexeme_bytes, hwhile]
  · simp only [stop]
    omega

/-- A token does not look at the offset. -/
theorem lexeme_moved (kind : TokenKind) (lexeme rest : List Char) (pos : Nat) :
    Lexer.lexeme kind lexeme rest (pos + d) =
      ((Lexer.lexeme kind lexeme rest pos).1.moved d,
        (Lexer.lexeme kind lexeme rest pos).2.moved d) := by
  simp only [Lexer.lexeme, Token.moved, Lexer.moved, Nat.add_right_comm, Option.map_none]

theorem stop_moved (fault : SyntaxFault) (lexeme rest : List Char) (pos : Nat) :
    Lexer.stop fault lexeme rest (pos + d) =
      ((Lexer.stop fault lexeme rest pos).1.moved d,
        (Lexer.stop fault lexeme rest pos).2.moved d) := by
  simp only [Lexer.stop, Token.moved, Lexer.moved, Nat.add_right_comm, Option.map_some,
    SyntaxError.moved]

theorem quotedToken_moved (kind : TokenKind) (c : Char) (cs : List Char) (pos : Nat) :
    quotedToken kind c cs (pos + d) =
      ((quotedToken kind c cs pos).1.moved d, (quotedToken kind c cs pos).2.moved d) := by
  unfold quotedToken
  rw [Nat.add_right_comm, quotedText_moved]
  cases quotedText c cs (pos + c.utf8Size) with
  | none => exact stop_moved _ _ _ _
  | some r => rfl

theorem scan_moved (cs : List Char) (pos : Nat) :
    scan cs (pos + d) = ((scan cs pos).1.moved d, (scan cs pos).2.moved d) := by
  unfold scan
  -- The cases are the kinds of tokens, in the order in which the lexer tries them.
  split
  · rfl
  split
  · exact lexeme_moved _ _ _ _
  split
  · exact lexeme_moved _ _ _ _
  split
  · exact lexeme_moved _ _ _ _
  split
  · exact lexeme_moved _ _ _ _
  split
  · exact lexeme_moved _ _ _ _
  split
  · rw [quotedToken_moved]
    rfl
  split
  · exact quotedToken_moved _ _ _ _
  split
  · exact lexeme_moved _ _ _ _
  split
  · exact lexeme_moved _ _ _ _
  · exact stop_moved _ _ _ _

/-! ## §6. Kinds of tokens. -/

/-- Punctuation is no end, no fault and no variable. -/
theorem punctuation?_kind {c : Char} {kind : TokenKind} (h : punctuation? c = some kind) :
    kind ≠ .eof ∧ kind ≠ .error ∧ kind ≠ .variable := by
  unfold punctuation? at h
  split at h <;> cases h <;> decide

/-- A token and the lexer behind it agree: a fault comes with an error token and only with one, and
    no variable is named like an anonymous one. -/
structure Coherent (r : Token × Lexer) : Prop where
  /-- An error token has a fault. -/
  error : r.1.kind = .error → ∃ e, r.2.fault = some e ∧ e.fault ≠ .cutShort
  /-- No other token has one. -/
  fault : r.1.kind ≠ .error → r.2.fault = none
  /-- Variables have names of their own. -/
  named : r.1.kind = .variable → isAnonymous r.1.value = false

/-- A token that is no fault and no variable makes sense. -/
theorem lexeme_coherent {kind : TokenKind} (hk : kind ≠ .error) (hv : kind ≠ .variable)
    (lexeme rest : List Char) (pos : Nat) : Coherent (Lexer.lexeme kind lexeme rest pos) where
  error h := absurd h hk
  fault _ := rfl
  named h := absurd h hv

/-- A variable does not go on with a sharp sign. -/
theorem variable_coherent (c : Char) (cs rest : List Char) (pos : Nat) :
    Coherent (Lexer.lexeme .variable (c :: cs.takeWhile isAlnum) rest pos) where
  error h := nomatch h
  fault _ := rfl
  named _ := by
    have hsharp : isAlnum '#' = false := by decide
    cases cs with
    | nil => simp [Lexer.lexeme, isAnonymous, anonymousLead, List.isPrefixOf]
    | cons e r =>
      by_cases he : e = '#'
      · subst he
        simp [Lexer.lexeme, isAnonymous, anonymousLead, List.isPrefixOf, hsharp]
      · by_cases ha : isAlnum e = true <;>
          simp [Lexer.lexeme, isAnonymous, anonymousLead, List.isPrefixOf, ha, Ne.symm he]

theorem stop_coherent {fault : SyntaxFault} (hf : fault ≠ .cutShort) (lexeme rest : List Char)
    (pos : Nat) : Coherent (Lexer.stop fault lexeme rest pos) where
  error _ := ⟨_, rfl, hf⟩
  fault h := absurd rfl h
  named h := nomatch h

theorem quotedToken_coherent {kind : TokenKind} (hk : kind ≠ .error) (hv : kind ≠ .variable)
    (c : Char) (cs : List Char) (pos : Nat) : Coherent (quotedToken kind c cs pos) := by
  unfold quotedToken
  split
  · exact ⟨fun h => absurd h hk, fun _ => rfl, fun h => absurd h hv⟩
  · exact stop_coherent (by simp) _ _ _

theorem scan_coherent (cs : List Char) (pos : Nat) : Coherent (scan cs pos) := by
  unfold scan
  split
  -- At the end of the text there is a token of its own.
  · exact ⟨nofun, fun _ => rfl, nofun⟩
  next c r =>
  split
  · next hk => exact lexeme_coherent (punctuation?_kind hk).2.1 (punctuation?_kind hk).2.2 _ _ _
  split
  · exact lexeme_coherent (by simp) (by simp) _ _ _
  split
  · exact lexeme_coherent (by simp) (by simp) _ _ _
  split
  · exact variable_coherent c r _ pos
  split
  · exact lexeme_coherent (by simp) (by simp) _ _ _
  split
  · have h : Coherent (quotedToken .name c r pos) :=
      quotedToken_coherent (by simp) (by simp) c r pos
    exact ⟨h.error, h.fault, h.named⟩
  split
  · exact quotedToken_coherent (by simp) (by simp) _ _ _
  split
  · exact lexeme_coherent (by simp) (by simp) _ _ _
  split
  · exact lexeme_coherent (by simp) (by simp) _ _ _
  · exact stop_coherent (by simp) _ _ _

/-- Quoted text is what it is meant to be, or a fault. -/
theorem quotedToken_kind (kind : TokenKind) (c : Char) (cs : List Char) (pos : Nat) :
    (quotedToken kind c cs pos).1.kind = kind ∨ (quotedToken kind c cs pos).1.kind = .error := by
  unfold quotedToken
  split
  · exact .inl rfl
  · exact .inr rfl

/-- Only at the end of a text there is no token left. -/
theorem scan_cons_kind (c : Char) (cs : List Char) (pos : Nat) :
    (scan (c :: cs) pos).1.kind ≠ .eof := by
  have hquoted (kind : TokenKind) (hk : kind ≠ .eof) :
      (quotedToken kind c cs pos).1.kind ≠ .eof := by
    rcases quotedToken_kind kind c cs pos with h | h <;> rw [h]
    · exact hk
    · decide
  unfold scan
  -- Where a character is left, the token is made of it, whatever its kind.
  simp only
  split
  · next hk => exact (punctuation?_kind hk).1
  split
  · simp [lexeme]
  split
  · simp [lexeme]
  split
  · simp [lexeme]
  split
  · simp [lexeme]
  split
  · exact hquoted .name (by simp)
  split
  · exact hquoted .string (by simp)
  split
  · simp [lexeme]
  split
  · simp [lexeme]
  · simp [stop]

/-! ## §7. The next token. -/

/-- The token behind a gap that began at `pos`. -/
def behind (pos : Nat) (g : Gap) : Token × Lexer :=
  if g.unclosed then
    ({ kind := .error, value := "", position := g.position, layout := true },
      ⟨g.rest, g.position, some ⟨.unclosedComment, g.position, ""⟩⟩)
  else
    ({ (scan g.rest g.position).1 with layout := pos < g.position }, (scan g.rest g.position).2)

/-- The next token stands behind the layout. -/
theorem next_eq (cs : List Char) (pos : Nat) :
    next ⟨cs, pos, none⟩ = behind pos (skipLayout .plain cs pos) := rfl

/-- A comment that does not end is a fault. -/
theorem behind_unclosed {pos : Nat} {g : Gap} (h : g.unclosed = true) : behind pos g =
    ({ kind := .error, value := "", position := g.position, layout := true },
      ⟨g.rest, g.position, some ⟨.unclosedComment, g.position, ""⟩⟩) := if_pos h

/-- Otherwise the token is scanned there. -/
theorem behind_closed {pos : Nat} {g : Gap} (h : g.unclosed = false) : behind pos g =
    ({ (scan g.rest g.position).1 with layout := pos < g.position },
      (scan g.rest g.position).2) := if_neg (by simp [h])

/-- Behind a gap that is not closed stands an error token. -/
theorem closed_of_kind {pos : Nat} {g : Gap} (h : (behind pos g).1.kind ≠ .error) :
    g.unclosed = false := by
  by_contra hopen
  rw [Bool.not_eq_false] at hopen
  rw [behind_unclosed hopen] at h
  exact h rfl

/-- What stands behind the layout makes sense. -/
theorem behind_coherent (pos : Nat) (g : Gap) : Coherent (behind pos g) := by
  unfold behind
  split
  · exact ⟨fun _ => ⟨_, rfl, by simp⟩, fun h => absurd rfl h, nofun⟩
  · have h := scan_coherent g.rest g.position
    exact ⟨h.error, h.fault, h.named⟩

theorem next_coherent {l : Lexer} (hl : l.fault = none) : Coherent l.next := by
  obtain ⟨cs, pos, fault⟩ := l
  obtain rfl : fault = none := hl
  exact behind_coherent _ _

/-- The next token does not look at the offset. -/
theorem behind_moved (pos : Nat) (g : Gap) :
    behind (pos + d) { g with position := g.position + d } =
      ((behind pos g).1.moved d, (behind pos g).2.moved d) := by
  unfold behind
  simp only [scan_moved, Nat.add_lt_add_iff_right]
  split <;> rfl

/-- The same text at another offset. -/
theorem next_moved (l : Lexer) : (l.moved d).next = (l.next.1.moved d, l.next.2.moved d) := by
  rcases l with ⟨cs, pos, _ | e⟩
  · rw [next_eq, ← behind_moved, ← skipLayout_moved]
    rfl
  · rfl

/-- The next token is the same in front of a line break, unless it is the end or a fault that more text
    can mend. -/
theorem behind_continued {pos : Nat} {g : Gap} (hclosed : g.unclosed = false)
    (hkind : (behind pos g).1.kind ≠ .eof)
    (hfault : ∀ e, (behind pos g).2.fault = some e → e.incomplete = false) :
    behind pos (g.continued b) = ((behind pos g).1, (behind pos g).2.continued b) := by
  rcases g with ⟨_ | ⟨c, cs⟩, position, unclosed⟩
  · obtain rfl : unclosed = false := hclosed
    exact absurd rfl hkind
  · obtain rfl : unclosed = false := hclosed
    show behind pos ⟨c :: cs ++ '\n' :: b, position, false⟩ = _
    have h : scan (c :: cs ++ '\n' :: b) position = _ := scan_continued hfault
    rw [behind_closed rfl, behind_closed rfl]
    simp only [h]

/-- A token in front of a line break is the same whatever follows it, unless it was never closed. -/
theorem next_continued {l : Lexer} (hl : l.fault = none) (hkind : l.next.1.kind ≠ .eof)
    (hfault : ∀ e, l.next.2.fault = some e → e.incomplete = false) :
    (l.continued b).next = (l.next.1, l.next.2.continued b) := by
  obtain ⟨cs, pos, fault⟩ := l
  obtain rfl : fault = none := hl
  rw [next_eq] at hkind hfault ⊢
  have hclosed : (skipLayout .plain cs pos).unclosed = false := by
    by_contra hopen
    rw [Bool.not_eq_false] at hopen
    rw [behind_unclosed hopen] at hfault
    cases hfault _ rfl
  rw [Lexer.continued, next_eq, skipLayout_continued _ _ _ hclosed]
  exact behind_continued hclosed hkind hfault

/-- In front of the end of a text there is layout only. -/
theorem skipLayout_eof {cs : List Char} {pos : Nat}
    (hkind : (next ⟨cs, pos, none⟩).1.kind = .eof) :
    (skipLayout .plain cs pos).unclosed = false ∧ (skipLayout .plain cs pos).rest = [] := by
  rw [next_eq] at hkind
  have hclosed := closed_of_kind (by rw [hkind]; decide)
  refine ⟨hclosed, ?_⟩
  cases hrest : (skipLayout .plain cs pos).rest with
  | nil => rfl
  | cons c r =>
    rw [behind_closed hclosed, hrest] at hkind
    exact absurd hkind (scan_cons_kind c r _)

/-- Behind the end of a text the next line begins; there is layout in front of its first token. -/
theorem next_behind {l : Lexer} (hl : l.fault = none) (hkind : l.next.1.kind = .eof) :
    (l.continued b).next =
      ({ (next ⟨b, l.position + byteLength l.rest + 1, none⟩).1 with layout := true },
        (next ⟨b, l.position + byteLength l.rest + 1, none⟩).2) := by
  obtain ⟨cs, pos, fault⟩ := l
  obtain rfl : fault = none := hl
  obtain ⟨hclosed, hrest⟩ := skipLayout_eof hkind
  have hbytes := skipLayout_bytes _ _ _ hclosed
  rw [hrest, byteLength_nil, Nat.add_zero] at hbytes
  rw [Lexer.continued, next_eq, next_eq, skipLayout_continued _ _ _ hclosed]
  simp only [Gap.continued, hrest, hbytes]
  unfold behind
  split
  · rfl
  · next hopen =>
    have hle := skipLayout_position _ _ _ (Bool.not_eq_true _ ▸ hopen)
    have hlt : pos < (skipLayout .plain b (pos + byteLength cs + 1)).position := by omega
    simp [hlt]

/-- Taking a token loses no byte. -/
theorem next_bytes {l : Lexer} (hl : l.fault = none) (hlast : l.next.1.isLast = false) :
    l.next.2.position + byteLength l.next.2.rest = l.position + byteLength l.rest := by
  obtain ⟨cs, pos, fault⟩ := l
  obtain rfl : fault = none := hl
  rw [next_eq] at hlast ⊢
  have hclosed : (skipLayout .plain cs pos).unclosed = false := by
    refine closed_of_kind fun hkind : (behind pos _).1.kind = .error => ?_
    rw [Token.isLast, hkind] at hlast
    cases hlast
  rw [behind_closed hclosed]
  exact (scan_bytes _ _).trans (skipLayout_bytes _ _ _ hclosed)

/-! ## §8. All tokens. -/

/-- The tokens are taken off the front of a text one after the other; none of them is the last. -/
inductive Scans : Lexer → List Token → Lexer → Prop where
  /-- No token is taken. -/
  | done {l : Lexer} : Scans l [] l
  /-- The next token, and more behind it. -/
  | more {l l' : Lexer} {ts : List Token} (hlast : l.next.1.isLast = false)
      (hrest : Scans l.next.2 ts l') : Scans l (l.next.1 :: ts) l'

/-- More room than there are characters makes no difference. -/
theorem take_stable (n : Nat) : ∀ (m : Nat) (l : Lexer), l.rest.length < n → l.rest.length < m →
    l.take n = l.take m := by
  induction n with
  | zero => intro m l h; exact absurd h (Nat.not_lt_zero _)
  | succ n ih =>
    intro m l hn hm
    obtain ⟨m, rfl⟩ : ∃ k, m = k + 1 := ⟨m - 1, by omega⟩
    simp only [take]
    split
    · rfl
    · next hlast =>
      have hlt := next_length l (by simpa using hlast)
      rw [ih m l.next.2 (by omega) (by omega)]

/-- Every token is the first one of some text. -/
theorem mem_take (n : Nat) : ∀ l : Lexer, l.fault = none → ∀ t ∈ (l.take n).1,
    ∃ l₁ : Lexer, l₁.fault = none ∧ l₁.next.1 = t := by
  induction n with
  | zero => intro l _ t ht; cases ht
  | succ n ih =>
    intro l hl t ht
    simp only [take] at ht
    split at ht
    · exact ⟨l, hl, (List.mem_singleton.1 ht).symm⟩
    · next hlast =>
      rcases List.mem_cons.1 ht with rfl | ht
      · exact ⟨l, hl, rfl⟩
      · refine ih l.next.2 ((next_coherent hl).fault fun he => ?_) t ht
        simp [Token.isLast, he] at hlast

/-- The last token is alone. -/
theorem tokens_last {l : Lexer} (h : l.next.1.isLast = true) :
    l.tokens = ([l.next.1], l.next.2) := by
  simp only [tokens, take, h, if_true]

theorem tokens_more {l : Lexer} (h : l.next.1.isLast = false) :
    l.tokens = (l.next.1 :: l.next.2.tokens.1, l.next.2.tokens.2) := by
  have hlt := next_length l h
  rw [tokens, take]
  simp only [h, Bool.false_eq_true, if_false]
  rw [tokens, take_stable _ (l.next.2.rest.length + 1) l.next.2 hlt (by omega)]

/-- The tokens of a text end. -/
theorem exists_scans (l : Lexer) : ∃ us l', l.Scans us l' ∧ l'.next.1.isLast = true := by
  induction hn : l.rest.length using Nat.strongRecOn generalizing l with
  | _ n ih =>
    cases hlast : l.next.1.isLast with
    | true => exact ⟨[], l, .done, hlast⟩
    | false =>
      obtain ⟨us, l', hs, hl'⟩ := ih _ (hn ▸ next_length l hlast) l.next.2 rfl
      exact ⟨_, l', .more hlast hs, hl'⟩

namespace Scans

variable {l l' l'' : Lexer} {us vs : List Token}

/-- The tokens that are taken come first. -/
theorem tokens (h : l.Scans us l') : l.tokens = (us ++ l'.tokens.1, l'.tokens.2) := by
  induction h with
  | done => rfl
  | more hlast _ ih => rw [tokens_more hlast, ih]; rfl

/-- No token that is taken has a fault. -/
theorem fault (h : l.Scans us l') (hl : l.fault = none) : l'.fault = none := by
  induction h with
  | done => exact hl
  | more hlast _ ih =>
    refine ih ((next_coherent hl).fault fun hkind => ?_)
    rw [Token.isLast, hkind] at hlast
    cases hlast

/-- The tokens that were scanned and the rest are the text. -/
theorem bytes (h : l.Scans us l') (hl : l.fault = none) :
    l'.position + byteLength l'.rest = l.position + byteLength l.rest := by
  induction h with
  | done => rfl
  | more hlast hrest ih =>
    rw [← next_bytes hl hlast]
    exact ih (fault (.more hlast .done) hl)

/-- **Tokens in front of a line break are the same whatever follows it.** -/
theorem continued (h : l.Scans us l') (hl : l.fault = none) :
    (l.continued b).Scans us (l'.continued b) := by
  induction h with
  | done => exact .done
  | @more l l' ts hlast hrest ih =>
    have hfault := fault (.more hlast .done) hl
    have hkind : l.next.1.kind ≠ .eof := fun hkind => by
      rw [Token.isLast, hkind] at hlast
      cases hlast
    have hnext := next_continued (b := b) hl hkind (by simp [hfault])
    have hmore : (l.continued b).Scans ((l.continued b).next.1 :: ts) (l'.continued b) := by
      refine .more (by rw [hnext]; exact hlast) ?_
      rw [hnext]
      exact ih hfault
    rwa [hnext] at hmore

end Scans

/-- There is layout in front of the first token. -/
def setOff : List Token → List Token
  | [] => []
  | t :: ts => { t with layout := true } :: ts

/-- Behind a text without fault and a line break, the tokens of the next lines follow. -/
theorem tokens_continued {l l' : Lexer} {us : List Token} (hl : l.fault = none)
    (hs : l.Scans us l') (hkind : l'.next.1.kind = .eof) :
    (l.continued b).tokens =
      (us ++ setOff (tokens ⟨b, l.position + byteLength l.rest + 1, none⟩).1,
        (tokens ⟨b, l.position + byteLength l.rest + 1, none⟩).2) := by
  have hnext := next_behind (b := b) (hs.fault hl) hkind
  rw [hs.bytes hl] at hnext
  rw [(hs.continued hl).tokens]
  generalize (⟨b, l.position + byteLength l.rest + 1, none⟩ : Lexer) = m at hnext ⊢
  cases hlast : m.next.1.isLast with
  | true =>
    rw [tokens_last hlast, tokens_last (by rw [hnext]; exact hlast), hnext]
    rfl
  | false =>
    rw [tokens_more hlast, tokens_more (by rw [hnext]; exact hlast), hnext]
    rfl

/-- Behind a fault that more text cannot mend, there is nothing to be read. -/
theorem tokens_kept {l l' : Lexer} {us : List Token} (hl : l.fault = none) (hs : l.Scans us l')
    (hkind : l'.next.1.kind = .error)
    (hfault : ∀ e, l'.next.2.fault = some e → e.incomplete = false) :
    (l.continued b).tokens = (l.tokens.1, l.tokens.2.continued b) := by
  have hnext := next_continued (b := b) (hs.fault hl) (by rw [hkind]; decide) hfault
  have hlast : l'.next.1.isLast = true := by simp [Token.isLast, hkind]
  rw [(hs.continued hl).tokens, hs.tokens, tokens_last hlast,
    tokens_last (by rw [hnext]; exact hlast), hnext]

/-- The tokens of the same text at another offset. -/
theorem tokens_moved (l : Lexer) :
    (l.moved d).tokens = (l.tokens.1.map (Token.moved d), l.tokens.2.moved d) := by
  have htake : ∀ (n : Nat) (l : Lexer),
      (l.moved d).take n = ((l.take n).1.map (Token.moved d), (l.take n).2.moved d) := by
    intro n
    induction n with
    | zero => intro l; rfl
    | succ n ih =>
      intro l
      simp only [take, next_moved, ih]
      split <;> simp_all [Token.isLast, Token.moved]
  exact htake _ l

end Lexer

end PrologMachine
