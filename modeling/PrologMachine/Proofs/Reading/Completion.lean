/-
  PrologMachine.Proofs.Reading.Completion ── **THE FULL STOP MAY BE LEFT OUT.**

  A question without a full stop gets one right behind its text.  That reads as the text does with a
  full stop on a line of its own, unless the text ends in a symbol, which takes the full stop up, or
  in a comment that goes on to the end of the line, which hides it.

    * `Reading.Agrees`: where a full stop stands does not matter to a reader.
    * `Lexer.TakesStop`: the text ends where a full stop can be put.
    * `Session.readClause_questionText`: both texts read as the same clause.
-/
import Mathlib.Data.List.TakeWhile
import PrologMachine.Proofs.Reading.RoundTrip
import PrologMachine.Proofs.Reading.Tiling
import PrologMachine.Session.Basic

namespace PrologMachine

/-! ## §1. Full stops elsewhere. -/

/-- The token, of which the place does not matter if it is a full stop or the end of the text. -/
def Token.loose (t : Token) : Token :=
  if t.kind = .stop ∨ t.kind = .eof then { t with position := 0, layout := false } else t

namespace Token

@[simp] theorem loose_kind (t : Token) : t.loose.kind = t.kind := by
  unfold loose
  split <;> rfl

@[simp] theorem loose_value (t : Token) : t.loose.value = t.value := by
  unfold loose
  split <;> rfl

/-- Only the last token of a clause or of a text is loosened. -/
theorem loose_eq {t : Token} (hs : t.kind ≠ .stop) (he : t.kind ≠ .eof) : t.loose = t :=
  if_neg fun h => h.elim hs he

end Token

namespace Cursor

/-- The cursor over tokens with loose full stops. -/
def loose (c : Cursor) : Cursor :=
  { c with current := c.current.loose, rest := c.rest.map Token.loose }

@[simp] theorem loose_current (c : Cursor) : c.loose.current = c.current.loose := rfl

@[simp] theorem loose_atEnd (c : Cursor) : c.loose.atEnd = c.atEnd := by
  simp [atEnd]

@[simp] theorem loose_bound (c : Cursor) : c.loose.bound = c.bound := by
  simp [bound, loose]

/-- Loosening goes through to the next token. -/
theorem loose_advance (c : Cursor) : c.loose.advance = c.advance.loose := by
  obtain ⟨t, _ | ⟨u, us⟩, fault, anonymous⟩ := c <;> rfl

end Cursor

namespace Reading

variable {α β : Type}

/-- The first action yields at a cursor what the second one yields where full stops are loose, and
    comes equally far, or both fail. -/
def Agrees (x x' : Reading α) : Prop := ∀ c,
  (∃ a c₁, x.run.run c = (.ok a, c₁) ∧ x'.run.run c.loose = (.ok a, c₁.loose)) ∨
    ∃ e c₁ e' c₁', x.run.run c = (.error e, c₁) ∧ x'.run.run c.loose = (.error e', c₁')

namespace Agrees

protected theorem pure {a : α} : Agrees (pure a) (pure a) := fun c => .inl ⟨a, c, rfl, rfl⟩

protected theorem throw {e e' : SyntaxError} : Agrees (throw e : Reading α) (throw e') :=
  fun c => .inr ⟨e, c, e', c.loose, rfl, rfl⟩

protected theorem fail {f f' : SyntaxFault} :
    Agrees (Reading.fail f : Reading α) (Reading.fail f') :=
  fun c => .inr ⟨c.error f, c, c.loose.error f', c.loose, rfl, rfl⟩

protected theorem bind {x x' : Reading α} {k k' : α → Reading β} (hx : Agrees x x')
    (hk : ∀ a, Agrees (k a) (k' a)) : Agrees (x >>= k) (x' >>= k') := by
  intro c
  rcases hx c with ⟨a, c₁, hrun, hrun'⟩ | ⟨e, c₁, e', c₁', hrun, hrun'⟩
  · rw [run_bind_ok hrun, run_bind_ok hrun']
    exact hk a c₁
  · rw [run_bind_error hrun, run_bind_error hrun']
    exact .inr ⟨e, c₁, e', c₁', rfl, rfl⟩

/-- Two that look at the tokens agree when they do after loosening. -/
protected theorem get_bind {k k' : Cursor → Reading β}
    (hk : ∀ c : Cursor, Agrees (k c) (k' c.loose)) :
    Agrees (get >>= k) (get >>= k') := fun c => hk c c

/-- Two that look at the current token agree when they do after loosening. -/
protected theorem current_bind {k k' : Token → Reading β}
    (hk : ∀ t : Token, Agrees (k t) (k' t.loose)) :
    Agrees (Reading.current >>= k) (Reading.current >>= k') := fun c => hk c.current c

/-- Both go on to the next token. -/
protected theorem advance : Agrees Reading.advance Reading.advance := fun c =>
  .inl ⟨(), c.advance, rfl, congrArg (Prod.mk (Except.ok ())) c.loose_advance⟩

protected theorem ite {p : Prop} [Decidable p] {x x' y y' : Reading α} (hx : p → Agrees x x')
    (hy : ¬ p → Agrees y y') : Agrees (if p then x else y) (if p then x' else y') := by
  split
  · next h => exact hx h
  · next h => exact hy h

protected theorem expect (kind : TokenKind) : Agrees (Reading.expect kind) (Reading.expect kind) := by
  refine .current_bind fun t => ?_
  simp only [Token.loose_kind]
  refine .ite (fun _ => .advance) fun _ => ?_
  split
  · exact .fail
  · exact .get_bind fun _ => .throw
  · exact .fail

end Agrees

/-- A variable is read alike. -/
theorem variableTerm_agrees (t : Token) : Agrees (variableTerm t) (variableTerm t) :=
  .ite (fun _ c => .inl ⟨_, { c with anonymous := c.anonymous + 1 }, rfl, rfl⟩) fun _ => .pure

theorem numberTerm_agrees (t : Token) (negative : Bool) :
    Agrees (numberTerm t negative) (numberTerm t negative) := by
  unfold numberTerm
  split
  · exact .pure
  · exact .throw

end Reading

namespace Grammar

open Reading

variable {g : Grammar} {n : Nat}

/-- The four readers with this count. -/
structure AgreesAt (g : Grammar) (n : Nat) : Prop where
  /-- A term. -/
  term : ∀ max depth, Agrees (g.term n max depth) (g.term n max depth)
  /-- A term behind its left operand. -/
  climb : ∀ left priority max depth,
    Agrees (g.climb n left priority max depth) (g.climb n left priority max depth)
  /-- An operand. -/
  operand : ∀ max depth, Agrees (g.operand n max depth) (g.operand n max depth)
  /-- Arguments. -/
  elements : ∀ depth, Agrees (g.elements n depth) (g.elements n depth)

/-- An infix operator is none of the last tokens. -/
theorem between?_loose (t : Token) : g.between? t.loose = g.between? t := by
  simp only [between?, Token.loose_kind, Token.loose_value]

/-- A token that is an infix operator is not loosened. -/
theorem loose_of_between? {t : Token} {d : OpDef} (h : g.between? t = some d) : t.loose = t := by
  refine Token.loose_eq (fun hk => ?_) fun hk => ?_
  all_goals
    rw [between?, hk] at h
    cases h

/-- The same tokens begin a term. -/
theorem startsTerm_loose (t : Token) : g.startsTerm t.loose = g.startsTerm t := by
  simp only [startsTerm, Token.loose_kind, Token.loose_value]

/-- Climbing the operators agrees. -/
theorem climb_agrees (ih : g.AgreesAt n) (left : Term) (priority max depth : Int) :
    Agrees (g.climb (n + 1) left priority max depth) (g.climb (n + 1) left priority max depth) := by
  refine .current_bind fun t => ?_
  rw [between?_loose]
  cases hd : g.between? t with
  | none => exact .pure
  | some d =>
    rw [loose_of_between? hd]
    exact .ite (fun _ => .pure) fun _ => .ite (fun _ => .fail) fun _ => Agrees.advance.bind fun _ =>
      (ih.term _ _).bind fun right => ih.climb _ _ _ _

/-- An operand behind the name it starts with. -/
theorem named_agrees (ih : g.AgreesAt n) (t : Token) (max depth : Int) :
    let x : Reading (Term × Int) := do
      let next ← current
      if next.kind = .parenOpen && !next.layout then do
        advance
        let args ← g.elements n depth
        expect .parenClose
        return (Term.app t.value args .none t.position, (0 : Int))
      else if t.quoted then return (t.atom, 0)
      else if t.value = "-" && next.kind = .number && !next.layout then do
        advance
        return (← numberTerm next true, 0)
      else match g.operators.before? t.value with
        | some d =>
          if d.priority ≤ max && g.startsTerm next then do
            let arg ← g.term n d.rightMax (depth + 1)
            return (.app t.value [arg] .none t.position, d.priority)
          else return (t.atom, 0)
        | none => return (t.atom, 0)
    Agrees x x := by
  refine .current_bind fun next => ?_
  -- The two tests look at a token that is not the last one, or fail on both sides.
  have hopen : (decide (next.loose.kind = .parenOpen) && !next.loose.layout) =
      (decide (next.kind = .parenOpen) && !next.layout) := by
    by_cases hk : next.kind = .parenOpen
    · rw [Token.loose_eq (by simp [hk]) (by simp [hk])]
    · simp [hk]
  have hnumber : (decide (t.value = "-") && decide (next.loose.kind = .number) &&
      !next.loose.layout) = (decide (t.value = "-") && decide (next.kind = .number) &&
      !next.layout) := by
    by_cases hk : next.kind = .number
    · rw [Token.loose_eq (by simp [hk]) (by simp [hk])]
    · simp [hk]
  simp only [hopen, hnumber, startsTerm_loose]
  refine .ite (fun _ => ?_) fun _ => .ite (fun _ => .pure) fun _ => .ite (fun h => ?_) fun _ => ?_
  · exact Agrees.advance.bind fun _ => (ih.elements depth).bind fun args =>
      (Agrees.expect _).bind fun _ => .pure
  · have hk : next.kind = .number := by simp_all
    rw [Token.loose_eq (by simp [hk]) (by simp [hk])]
    exact Agrees.advance.bind fun _ => (numberTerm_agrees next true).bind fun _ => .pure
  · split
    · exact .ite (fun _ => (ih.term _ _).bind fun _ => .pure) fun _ => .pure
    · exact .pure

/-- Operands are read alike. -/
theorem operand_agrees (ih : g.AgreesAt n) (max depth : Int) :
    Agrees (g.operand (n + 1) max depth) (g.operand (n + 1) max depth) := by
  -- A token that has been looked at by its kind is no last one, so both sides go on with the same token.
  refine .ite (fun _ => .fail) fun _ => .current_bind fun t => ?_
  simp only [Token.loose_kind]
  split
  · exact .fail
  · exact .get_bind fun _ => .throw
  · next hk =>
    rw [Token.loose_eq (by simp [hk]) (by simp [hk])]
    exact Agrees.advance.bind fun _ => (numberTerm_agrees t false).bind fun _ => .pure
  · next hk =>
    rw [Token.loose_eq (by simp [hk]) (by simp [hk])]
    exact Agrees.advance.bind fun _ => (variableTerm_agrees t).bind fun _ => .pure
  · next hk =>
    rw [Token.loose_eq (by simp [hk]) (by simp [hk])]
    exact Agrees.advance.bind fun _ => .pure
  · exact Agrees.advance.bind fun _ => (ih.term _ _).bind fun _ => (Agrees.expect _).bind fun _ =>
      .pure
  · refine Agrees.advance.bind fun _ => .current_bind fun u => ?_
    simp only [Token.loose_kind]
    refine .ite (fun _ => Agrees.advance.bind fun _ => .pure) fun _ =>
      (ih.elements depth).bind fun es => .current_bind fun v => ?_
    simp only [Token.loose_kind]
    refine .ite (fun _ => Agrees.advance.bind fun _ => (ih.term _ _).bind fun tail => ?_) fun _ =>
      Agrees.pure.bind fun tail => ?_
    all_goals exact (Agrees.expect _).bind fun _ => .pure
  · next hk =>
    rw [Token.loose_eq (by simp [hk]) (by simp [hk])]
    exact Agrees.advance.bind fun _ => named_agrees ih t max depth
  · exact .fail

/-- **Where full stops stand matters to no reader**, by induction on the count. -/
theorem agrees (g : Grammar) (n : Nat) : g.AgreesAt n := by
  induction n with
  | zero =>
    exact ⟨fun _ _ => .fail, fun _ _ _ _ => .fail, fun _ _ => .fail, fun _ => .fail⟩
  | succ n ih =>
    refine ⟨fun max depth => (ih.operand max depth).bind fun r => ih.climb _ _ _ _,
      climb_agrees ih, operand_agrees ih, fun depth => ?_⟩
    refine (ih.term _ _).bind fun first => .current_bind fun t => ?_
    simp only [Token.loose_kind]
    exact .ite (fun _ => Agrees.advance.bind fun _ => (ih.elements depth).bind fun _ => .pure)
      fun _ => .pure

/-- Clauses are read alike. -/
theorem clause_agrees (g : Grammar) : Agrees g.clause g.clause := by
  refine .get_bind fun c => ?_
  simp only [Cursor.loose_current, Token.loose_kind, Cursor.loose_bound]
  split
  · exact .throw
  · exact .fail
  · exact ((g.agrees _).term _ _).bind fun _ => (Agrees.expect _).bind fun _ => .pure

end Grammar

/-- The clause that a text is, read where full stops are loose. -/
theorem readClause_ok_iff {g : Grammar} {source : String} {n : Nat} {t : Term} :
    readClause g source n = .ok t ↔ (Cursor.ofText source n).loose.atEnd = false ∧
      ∃ c, (Cursor.ofText source n).loose.next g = (.ok t, c) ∧ c.atEnd = true := by
  unfold readClause
  generalize Cursor.ofText source n = c
  have hnext (c : Cursor) : c.next g =
      ((g.clause.run.run c).1.map Term.shape, (g.clause.run.run c).2) := rfl
  rw [Cursor.loose_atEnd]
  cases hend : c.atEnd with
  | true => simp [hend]
  | false =>
    rw [if_neg (by simp [hend])]
    rcases g.clause_agrees c with ⟨u, c₁, hrun, hrun'⟩ | ⟨e, c₁, e', c₁', hrun, hrun'⟩
    · rw [hnext, hnext, hrun, hrun']
      cases hend₁ : c₁.atEnd <;> simp [Except.map, hend₁, and_assoc]
    · rw [hnext, hnext, hrun, hrun']
      simp [Except.map]

/-! ## §2. A full stop behind a text. -/

open PrologMachine.Text (isAlnum isAsciiDigit)

section Lexemes

variable {p : Char → Bool} {cs s : List Char}

/-- The last character of two texts is that of the second, if there is one. -/
theorem getLast?_append_ne_nil (h : s ≠ []) : (cs ++ s).getLast? = s.getLast? := by
  rw [List.getLast?_append, List.getLast?_eq_some_getLast h, Option.some_or]

/-- What ends within the first text is taken from it. -/
theorem takeWhile_within (h : ∃ x ∈ cs, p x = false) : (cs ++ s).takeWhile p = cs.takeWhile p := by
  obtain ⟨x, hx, hp⟩ := h
  obtain ⟨before, after, rfl⟩ := List.append_of_mem hx
  rw [List.append_assoc, List.cons_append, takeWhile_before hp, takeWhile_before hp]

/-- What ends within the first text leaves the rest of it and the second. -/
theorem dropWhile_within (h : ∃ x ∈ cs, p x = false) :
    (cs ++ s).dropWhile p = cs.dropWhile p ++ s := by
  obtain ⟨x, hx, hp⟩ := h
  obtain ⟨before, after, rfl⟩ := List.append_of_mem hx
  rw [List.append_assoc, List.cons_append, dropWhile_before hp, dropWhile_before hp,
    List.append_assoc, List.cons_append]

end Lexemes

/-- A full stop at the very end ends a number. -/
theorem endsNumber_stop : EndsNumber '.' [] := ⟨by decide, by decide, by decide, fun _ => rfl⟩

/-- Layout in front of a token is the same whatever follows the token. -/
theorem skipLayout_before {x c : Char} {b r : List Char} {p : Nat} (hx : x ≠ '*' ∧ x ≠ '/')
    (mode : LayoutMode) (cs : List Char) (pos : Nat)
    (h : skipLayout mode cs pos = ⟨c :: r, p, false⟩) :
    skipLayout mode (cs ++ x :: b) pos = ⟨c :: r ++ x :: b, p, false⟩ := by
  -- A character that neither closes nor opens a comment changes nothing about the layout before it.
  fun_induction skipLayout mode cs pos with
  | case1 cs pos ih => exact ih h
  | case2 cs pos ih =>
    rw [← ih h]
    exact (skipLayout_block cs _ _ _ _ _ _ (by rw [h])).symm
  | case3 c' cs pos hline hblock hlayout ih =>
    rw [List.cons_append, skipLayout, if_pos hlayout]
    · exact ih h
    · exact hline
    · exact pair_continued hx.1.symm hblock
  | case4 c' cs pos hline hblock hlayout =>
    obtain ⟨⟨rfl, rfl⟩, rfl, -⟩ : (c' = c ∧ cs = r) ∧ pos = p ∧ True := by simpa using h
    rw [List.cons_append, skipLayout, if_neg hlayout]
    · exact hline
    · exact pair_continued hx.1.symm hblock
  | case5 cs pos ih => exact ih h
  | case6 c' cs pos hc ih =>
    rw [List.cons_append, skipLayout, if_neg hc]
    exact ih h
  | case7 r' p' cs pos ih => exact ih h
  | case8 r' p' c' cs pos hend ih =>
    rw [List.cons_append, skipLayout]
    · exact ih h
    · exact pair_continued hx.2.symm hend
  | case9 pos => cases h
  | case10 pos => cases h
  | case11 r' p' pos => cases h

/-- A comment goes on to the end of its line. -/
theorem skipLayout_line {body : List Char} (hbody : '\n' ∉ body) (cs : List Char) :
    ∀ pos, skipLayout .line (body ++ '\n' :: cs) pos =
      skipLayout .plain cs (pos + byteLength body + 1) := by
  induction body with
  | nil => exact fun pos => by simp [skipLayout]
  | cons c body ih =>
    intro pos
    obtain ⟨hc, hbody⟩ : '\n' ≠ c ∧ '\n' ∉ body := by simpa using hbody
    rw [List.cons_append, skipLayout, if_neg (Ne.symm hc), ih hbody, byteLength_cons,
      Nat.add_assoc pos]

/-- A block comment goes on to where it is first closed. -/
theorem skipLayout_closed {body : List Char} (hbody : ¬ ['*', '/'] <:+: body ++ ['*'])
    (r cs : List Char) (p : Nat) : ∀ pos, skipLayout (.block r p) (body ++ '*' :: '/' :: cs) pos =
      skipLayout .plain cs (pos + byteLength body + 2) := by
  induction body with
  | nil => exact fun pos => rfl
  | cons c body ih =>
    intro pos
    have hlater : ¬ ['*', '/'] <:+: body ++ ['*'] := fun h =>
      hbody (h.trans (List.infix_cons (List.infix_refl _)))
    have hstep : skipLayout (.block r p) (c :: (body ++ '*' :: '/' :: cs)) pos =
        skipLayout (.block r p) (body ++ '*' :: '/' :: cs) (pos + c.utf8Size) := by
      rw [skipLayout]
      rintro ds rfl hds
      cases body with
      | nil => cases hds
      | cons d body =>
        obtain ⟨rfl, -⟩ := List.cons.inj hds
        exact hbody ⟨[], body ++ ['*'], rfl⟩
    rw [List.cons_append, hstep, ih hlater, byteLength_cons, Nat.add_assoc pos]

/-- Layout in front of a full stop does not end in one itself. -/
theorem Layout.getLast?_ne {gap : List Char} (h : Layout ['.'] gap) : gap.getLast? ≠ some '.' := by
  have hcons : ∀ {c : Char} {gap : List Char}, c ≠ '.' → gap.getLast? ≠ some '.' →
      (c :: gap).getLast? ≠ some '.' := by
    intro c gap hc hgap
    cases gap with
    | nil => simpa using hc
    | cons d gap => rwa [List.getLast?_cons_cons]
  induction h with
  | nil => nofun
  | @blank c gap hc _ ih =>
    refine hcons ?_ ih
    rintro rfl
    exact absurd hc (by decide)
  | line _ _ ih =>
    rw [getLast?_append_ne_nil (List.cons_ne_nil _ _)]
    exact hcons (by decide) ih
  | lastLine _ hrest => cases hrest
  | block _ _ ih =>
    rw [getLast?_append_ne_nil (List.cons_ne_nil _ _)]
    exact hcons (by decide) (hcons (by decide) ih)

/-- **Layout in front of a full stop is skipped**, also in front of the end or of another token. -/
theorem skipLayout_gap {gap s : List Char} (h : Layout ['.'] gap)
    (hs : ∀ pos, skipLayout .plain s pos = ⟨s, pos, false⟩) :
    ∀ pos, skipLayout .plain (gap ++ s) pos = ⟨s, pos + byteLength gap, false⟩ := by
  induction h with
  | nil => exact hs
  | @blank c gap hc _ ih =>
    intro pos
    rw [List.cons_append, skipLayout, if_pos hc, ih, byteLength_cons, Nat.add_assoc]
    · rintro rfl
      exact absurd hc (by decide)
    · rintro _ rfl
      exact absurd hc (by decide)
  | line hbody _ ih =>
    intro pos
    have hcs := fun gap : List Char => skipLayout_line hbody (gap ++ s) (pos + 1)
    simp only [List.cons_append, List.append_assoc, skipLayout, hcs, ih, byteLength_cons,
      byteLength_append]
    congr 1
    -- The positions count bytes; these characters have one each.
    have : ('%').utf8Size = 1 ∧ ('\n').utf8Size = 1 := by decide
    omega
  | lastLine _ hrest => cases hrest
  | block hbody _ ih =>
    intro pos
    have hcs := fun (r gap : List Char) p => skipLayout_closed hbody r (gap ++ s) p (pos + 2)
    simp only [List.cons_append, List.append_assoc, skipLayout, hcs, ih, byteLength_cons,
      byteLength_append]
    congr 1
    have : ('*').utf8Size = 1 ∧ ('/').utf8Size = 1 := by decide
    omega

namespace Lexer

/-- The lexer of the text with a full stop right behind it. -/
def stopped (l : Lexer) : Lexer := { l with rest := l.rest ++ ['.'] }

variable {l l' : Lexer} {us : List Token}

/-- A quoted token that is closed does not see the full stop. -/
theorem quotedToken_stopped {kind : TokenKind} {c : Char} {cs : List Char} {pos : Nat}
    (hc : c ≠ '.') (h : (quotedToken kind c cs pos).1.isLast = false) :
    quotedToken kind c (cs ++ ['.']) pos =
      ((quotedToken kind c cs pos).1, (quotedToken kind c cs pos).2.stopped) := by
  unfold quotedToken at h ⊢
  split at h
  · next v r p hq => simp only [quotedText_continued hc _ _ hq, stopped]
  · cases h

/-- Symbols that go on to the end of the text are one token. -/
theorem scan_symbols {c : Char} {cs : List Char} (h : ∀ x ∈ c :: cs, isSymbolChar x = true)
    (pos : Nat) : (scan (c :: cs) pos).2.rest = [] := by
  have honly := isSymbolChar_only (h c List.mem_cons_self)
  have hcs : ∀ x ∈ cs, isSymbolChar x = true := fun x hx => h x (List.mem_cons_of_mem c hx)
  simp only [scan, honly.punctuation, honly.solo, honly.lower, honly.upper, honly.underscore,
    honly.digit, honly.quote, honly.string, h c List.mem_cons_self, Bool.false_eq_true,
    decide_false, Bool.or_self, if_false, if_true]
  split
  · next hstop =>
    cases cs with
    | nil => rfl
    | cons x cs =>
      have hx := isSymbolChar_only (hcs x List.mem_cons_self)
      simp [endsClause, hx.layout, hx.percent] at hstop
  · exact List.dropWhile_eq_nil_iff.2 hcs

/-- A token in front of the full stop is the same, unless it is a symbol that goes on to the end of
    the text, or quoted text that is never closed. -/
theorem scan_stopped {c : Char} {cs : List Char} {pos : Nat}
    (hlast : (scan (c :: cs) pos).1.isLast = false)
    (hsymbol : ∃ x ∈ c :: cs, isSymbolChar x = false) :
    scan (c :: cs ++ ['.']) pos = ((scan (c :: cs) pos).1, (scan (c :: cs) pos).2.stopped) := by
  have halnum : isAlnum '.' = false := by decide
  -- Quoted tokens end at their own quote, so the full stop stays behind them.
  by_cases hquote : c = '\''
  · subst hquote
    rw [scan_quote] at hlast
    rw [List.cons_append, scan_quote, scan_quote, quotedToken_stopped (by decide) hlast]
  by_cases hstring : c = '"'
  · subst hstring
    rw [scan_string] at hlast
    rw [List.cons_append, scan_string, scan_string, quotedToken_stopped (by decide) hlast]
  -- A full stop may not end the clause earlier than before: it is behind at least one more character.
  have hends : (decide (c = '.') && endsClause (cs ++ ['.'])) =
      (decide (c = '.') && endsClause cs) := by
    cases cs with
    | nil =>
      obtain ⟨x, hx, hplain⟩ := hsymbol
      have hc : c ≠ '.' := by
        rintro rfl
        rw [List.mem_singleton.1 hx] at hplain
        exact absurd hplain (by decide)
      simp [hc]
    | cons x cs => rfl
  rw [List.cons_append]
  unfold scan at hlast ⊢
  simp only [takeWhile_before halnum, dropWhile_before halnum, hquote, hstring, hends,
    if_false] at hlast ⊢
  split
  · rfl
  split
  · rfl
  split
  · rfl
  split
  · rfl
  split
  · rw [← List.cons_append, numberLexeme_continued endsNumber_stop]
    rfl
  split
  · rfl
  split
  · next hc =>
    have hrest : ∃ x ∈ cs, isSymbolChar x = false := by
      obtain ⟨x, hx, hplain⟩ := hsymbol
      rcases List.mem_cons.1 hx with rfl | hx
      · rw [hc] at hplain
        cases hplain
      · exact ⟨x, hx, hplain⟩
    -- A run of symbol characters ends before the text does, so the full stop is not taken into it.
    rw [takeWhile_within hrest, dropWhile_within hrest]
    rfl
  · next hc =>
    simp_all [Lexer.stop, Token.isLast]

/-- **The next token is the same.** -/
theorem next_stopped (hl : l.fault = none) (hlast : l.next.1.isLast = false)
    (hsymbol : l.next.2.rest = [] → ∀ x ∈ l.rest.getLast?, isSymbolChar x = false) :
    l.stopped.next = (l.next.1, l.next.2.stopped) := by
  obtain ⟨cs, pos, fault⟩ := l
  obtain rfl : fault = none := hl
  have hkind : (next ⟨cs, pos, none⟩).1.kind ≠ .eof ∧ (next ⟨cs, pos, none⟩).1.kind ≠ .error := by
    simpa [Token.isLast] using hlast
  rw [next_eq] at hlast hkind hsymbol ⊢
  have hclosed := closed_of_kind hkind.2
  rw [behind_closed hclosed] at hlast hkind hsymbol ⊢
  obtain ⟨gap, hcs, -, -⟩ := exists_gap cs pos hclosed
  rcases hgap : skipLayout .plain cs pos with ⟨_ | ⟨c, r⟩, p, unclosed⟩
  · rw [hgap] at hkind
    exact absurd rfl hkind.1
  obtain rfl : unclosed = false := by
    rw [hgap] at hclosed
    exact hclosed
  rw [hgap] at hcs hlast hsymbol
  -- The token does not reach the end of the text as symbol characters only: the full stop would be taken
  -- into it.
  have hplain : ∃ x ∈ c :: r, isSymbolChar x = false := by
    by_contra hall
    have hall' : ∀ x ∈ c :: r, isSymbolChar x = true := by simpa using hall
    obtain ⟨x, hx⟩ : ∃ x, (c :: r).getLast? = some x :=
      ⟨_, List.getLast?_eq_some_getLast (by simp)⟩
    have hsym := hsymbol (scan_symbols hall' p) x (by rw [hcs, List.getLast?_append, hx]; rfl)
    rw [hall' x (List.mem_of_getLast? hx)] at hsym
    cases hsym
  rw [stopped, next_eq, skipLayout_before (by decide) .plain cs pos hgap, behind_closed rfl]
  simp only [scan_stopped hlast hplain]

namespace Scans

/-- **Tokens in front of the full stop are the same**, unless the last one is a symbol that goes on to
    the end of the text. -/
theorem stopped (h : l.Scans us l') (hl : l.fault = none)
    (hsymbol : l'.rest = [] → ∀ x ∈ l.rest.getLast?, isSymbolChar x = false) :
    l.stopped.Scans us l'.stopped := by
  induction h with
  | done => exact .done
  | @more l l' ts hlast hrest ih =>
    have hfault := fault (.more hlast .done) hl
    obtain ⟨x, -, htext, -⟩ := exists_tile hl hlast
    have hend : l.next.2.rest = [] → l'.rest = [] := fun hnil => by
      have hle := hrest.length_le
      rw [hnil, List.length_nil] at hle
      exact List.eq_nil_of_length_eq_zero (by omega)
    have hnext := next_stopped hl hlast fun hnil => hsymbol (hend hnil)
    have hmore : l.stopped.Scans (l.stopped.next.1 :: ts) l'.stopped := by
      refine .more (by rw [hnext]; exact hlast) ?_
      rw [hnext]
      refine ih hfault fun hnil y hy => hsymbol hnil y ?_
      rw [htext, List.getLast?_append, hy]
      rfl
    rwa [hnext] at hmore

end Scans

/-- A full stop behind the text is read as one: behind the last token there is no comment that it
    could belong to, and no symbol right in front of it. -/
structure TakesStop (l : Lexer) (us : List Token) (l' : Lexer) : Prop where
  /-- The tokens of the text. -/
  scans : l.Scans us l'
  /-- What is left of it is layout, also in front of a full stop. -/
  gap : Layout ['.'] l'.rest
  /-- When the text ends with a token, it ends in no symbol. -/
  plain : l'.rest = [] → ∀ x ∈ l.rest.getLast?, isSymbolChar x = false

/-- A full stop and the end of the text, wherever they stand. -/
def fullStop : List Token :=
  [{ kind := .stop, value := ".", position := 0 }, { kind := .eof, value := "", position := 0 }]

/-- A full stop that stands alone is read as one, whatever layout is in front of it. -/
theorem tokens_fullStop (pos : Nat) :
    (setOff (tokens ⟨['.'], pos, none⟩).1).map Token.loose = fullStop ∧
      (tokens ⟨['.'], pos, none⟩).2.fault = none := by
  have hmore : (next ⟨['.'], pos, none⟩).1.isLast = false := rfl
  have hend : (next (next ⟨['.'], pos, none⟩).2).1.isLast = true := rfl
  rw [tokens_more hmore, tokens_last hend]
  exact ⟨rfl, rfl⟩

/-- A comment that is closed leaves room for a full stop. -/
example : (ofText "p /* one */").TakesStop [{ kind := .name, value := "p", position := 0 }]
    ⟨" /* one */".toList, 1, none⟩ where
  scans := .more rfl .done
  gap := .blank rfl (@Layout.block _ " one ".toList _ (by decide) .nil)
  plain := nofun

/-- **A full stop right behind the text.** -/
theorem TakesStop.tokens_stopped (h : l.TakesStop us l') (hl : l.fault = none) :
    l.stopped.tokens.1.map Token.loose = us.map Token.loose ++ fullStop ∧
      l.stopped.tokens.2.fault = none := by
  rw [(h.scans.stopped hl h.plain).tokens, List.map_append]
  obtain ⟨cs, pos, fault⟩ := l'
  obtain rfl : fault = none := h.scans.fault hl
  -- The full stop is the next token, and the one behind it is the end.
  have hnext : next ⟨cs ++ ['.'], pos, none⟩ =
      ({ kind := .stop, value := ".", position := pos + byteLength cs
         layout := pos < pos + byteLength cs }, ⟨[], pos + byteLength cs + 1, none⟩) := by
    rw [next_eq, skipLayout_gap h.gap fun _ => rfl, behind_closed rfl]
    rfl
  have hmore : (next ⟨cs ++ ['.'], pos, none⟩).1.isLast = false := by
    rw [hnext]
    rfl
  have hend : (next (next ⟨cs ++ ['.'], pos, none⟩).2).1.isLast = true := by
    rw [hnext]
    rfl
  show _ ++ (Lexer.tokens ⟨cs ++ ['.'], pos, none⟩).1.map Token.loose = _ ∧
    (Lexer.tokens ⟨cs ++ ['.'], pos, none⟩).2.fault = none
  rw [tokens_more hmore, tokens_last hend, hnext]
  exact ⟨rfl, rfl⟩

/-- The text ends behind its last token. -/
theorem TakesStop.ends (h : l.TakesStop us l') (hl : l.fault = none) : l'.next.1.kind = .eof := by
  have hfault := h.scans.fault hl
  have hgap := skipLayout_gap h.gap
    (fun _ => rfl : ∀ pos, skipLayout .plain [] pos = ⟨[], pos, false⟩)
  obtain ⟨cs, pos, fault⟩ := l'
  obtain rfl : fault = none := hfault
  rw [next_eq, ← List.append_nil cs, hgap]
  rfl

/-- **A full stop on a line of its own.** -/
theorem TakesStop.tokens_continued (h : l.TakesStop us l') (hl : l.fault = none) :
    (l.continued ['.']).tokens.1.map Token.loose = us.map Token.loose ++ fullStop ∧
      (l.continued ['.']).tokens.2.fault = none := by
  obtain ⟨htokens, hfault⟩ := tokens_fullStop (l.position + byteLength l.rest + 1)
  rw [Lexer.tokens_continued hl h.scans (h.ends hl), List.map_append, htokens]
  exact ⟨rfl, hfault⟩

end Lexer

/-- Reading a text with other last tokens is reading it loosened. -/
theorem Cursor.loose_ofText {source source' : String} (n : Nat)
    (htokens : (Lexer.ofText source).tokens.1.map Token.loose =
      (Lexer.ofText source').tokens.1.map Token.loose)
    (hfault : (Lexer.ofText source).tokens.2.fault = (Lexer.ofText source').tokens.2.fault) :
    (ofText source n).loose = (ofText source' n).loose := by
  rw [← ofText_tokens source n, ← ofText_tokens source' n] at htokens
  obtain ⟨hcurrent, hrest⟩ := List.cons.inj htokens
  have hanonymous := (ofText_anonymous source n).trans (ofText_anonymous source' n).symm
  rw [← ofText_fault source n, ← ofText_fault source' n] at hfault
  simp only [loose, hcurrent, hrest, hfault, hanonymous]

/-! ## §3. Questions. -/

/-- **The full stop may stand right behind the text or on a line of its own.** -/
theorem readClause_stopped {g : Grammar} {cs : List Char} {n : Nat} {t : Term} {us : List Token}
    {l' : Lexer} (h : (Lexer.ofText (String.ofList cs)).TakesStop us l') :
    readClause g (String.ofList (cs ++ ['.'])) n = .ok t ↔
      readClause g (String.ofList (cs ++ ['\n', '.'])) n = .ok t := by
  have hstopped : Lexer.ofText (String.ofList (cs ++ ['.'])) =
      (Lexer.ofText (String.ofList cs)).stopped := by
    simp [Lexer.ofText, Lexer.stopped]
  have hcontinued : Lexer.ofText (String.ofList (cs ++ ['\n', '.'])) =
      (Lexer.ofText (String.ofList cs)).continued ['.'] := by
    simp [Lexer.ofText, Lexer.continued]
  obtain ⟨htokens, hfault⟩ := h.tokens_stopped rfl
  obtain ⟨htokens', hfault'⟩ := h.tokens_continued rfl
  rw [readClause_ok_iff, readClause_ok_iff, Cursor.loose_ofText n]
  · rw [hstopped, hcontinued, htokens, htokens']
  · rw [hstopped, hcontinued, hfault, hfault']

namespace Session

open PrologMachine.Text (isBlank trimBy trimBlanks)

variable {s : Session} {source : String} {us : List Token} {l' : Lexer} {t : Term}

/-- A trimmed text begins with no blank. -/
theorem head_trimBlanks {xs cs : List Char} {c : Char} (h : trimBlanks xs = c :: cs) :
    isBlank c = false := by
  unfold trimBlanks trimBy at h
  have hprefix : c :: cs <+: xs.dropWhile isBlank := by
    rw [← h, ← List.reverse_suffix, List.reverse_reverse]
    exact List.dropWhile_suffix isBlank
  obtain ⟨rest, hrest⟩ := hprefix
  have hhead := List.head?_dropWhile_not isBlank xs
  rw [← hrest] at hhead
  simpa using hhead

/-- The question of a text that ends where a full stop can be put. -/
theorem questionText_stopped
    (h : (Lexer.ofText (String.ofList (trimBlanks source.toList))).TakesStop us l') :
    questionText source = String.ofList (trimBlanks source.toList ++ ['.']) := by
  obtain ⟨tiles, -, htext, -⟩ := h.scans.exists_tiles rfl
  have hrest : (Lexer.ofText (String.ofList (trimBlanks source.toList))).rest =
      trimBlanks source.toList := by
    simp [Lexer.ofText]
  have hlast : (trimBlanks source.toList).getLast? ≠ some '.' := by
    intro hdot
    by_cases hnil : l'.rest = []
    · have hplain := h.plain hnil '.' (by rw [hrest, hdot]; rfl)
      exact absurd hplain (by decide)
    · rw [← hrest, htext, getLast?_append_ne_nil hnil] at hdot
      exact h.gap.getLast?_ne hdot
  rw [questionText, if_neg hlast]

/-- The question of the text with a full stop on a line of its own. -/
theorem questionText_continued (h : trimBlanks source.toList ≠ []) :
    questionText (String.ofList (trimBlanks source.toList ++ ['\n', '.'])) =
      String.ofList (trimBlanks source.toList ++ ['\n', '.']) := by
  obtain ⟨c, cs, hcs⟩ := List.exists_cons_of_ne_nil h
  have hc := head_trimBlanks hcs
  have hdot : isBlank '.' = false := by decide
  have htrim : trimBlanks (c :: cs ++ ['\n', '.']) = c :: cs ++ ['\n', '.'] := by
    simp [trimBlanks, trimBy, hc, hdot]
  have hlast : (c :: cs ++ ['\n', '.']).getLast? = some '.' := getLast?_append_ne_nil nofun
  rw [hcs, questionText, String.toList_ofList, htrim, if_pos hlast]

/-- **THE FULL STOP OF A QUESTION MAY BE LEFT OUT**, where the text ends so that a full stop can be
    put right behind it: when the text is a question with a full stop on a line of its own, a session
    does the same for both. -/
theorem query_completed
    (h : (Lexer.ofText (String.ofList (trimBlanks source.toList))).TakesStop us l')
    (hcache : s.cache = none)
    (hread : readClause {} (String.ofList (trimBlanks source.toList ++ ['\n', '.'])) 0 = .ok t) :
    s.query source = s.query (String.ofList (trimBlanks source.toList ++ ['\n', '.'])) := by
  have hstopped := (readClause_stopped h).2 hread
  have hsome : trimBlanks source.toList ≠ [] := by
    intro hnil
    rw [hnil] at hread
    have hempty : readClause {} (String.ofList ['\n', '.']) 0 =
        .error ⟨.unexpectedToken, 1, "."⟩ := by
      with_unfolding_all rfl
    rw [List.nil_append, hempty] at hread
    cases hread
  have hsame : s.compiledQuestion (questionText source) = s.compiledQuestion
      (questionText (String.ofList (trimBlanks source.toList ++ ['\n', '.']))) := by
    rw [questionText_stopped h, questionText_continued hsome]
    simp only [compiledQuestion, hcache, compileQuestion, hstopped, hread]
  rw [query, hsame]
  rfl

/-- A full stop behind a comment to the end of the line belongs to the comment. -/
example : questionText "p % one" = "p % one." ∧
    readClause {} "p % one." 0 = .error ⟨.expectedBeforeEnd .stop, 8, ""⟩ ∧
    readClause {} "p % one\n." 0 = .ok (.const (.atom "p") 0) := by
  refine ⟨?_, ?_, ?_⟩ <;> with_unfolding_all rfl

end Session

end PrologMachine
