/-
  PrologMachine.Proofs.Reading ── **WHAT IS READ IS PROPER.**

  A variable is written with a capital letter or an underline in front, so none has the name of a
  machine register, and the reader leaves no argument out.  The marks on compounds come from the
  written operators alone.

    * `Token.Clear`, `Cursor.Clear`: no variable token reads like a register.
    * `Grammar.clause_plain`: a clause is read plain, whatever the operators.
    * `readProgram_proper`, `readClause_proper`: what the compiler is given.
-/
import PrologMachine.Proofs.Code.Emission
import PrologMachine.Proofs.Derivation

namespace PrologMachine

/-! ## §1. Tokens. -/

/-- A variable token does not read like a register. -/
def Token.Clear (t : Token) : Prop := t.kind = .variable → isRegister t.value = false

/-- A text that does not start with a dollar sign names no register. -/
theorem isRegister_ofList {c : Char} {cs : List Char} (hc : c ≠ '$') :
    isRegister (String.ofList (c :: cs)) = false := by
  simp [isRegister, List.isPrefixOf, hc.symm]

namespace Lexer

variable {cs : List Char} {pos : Nat}

/-- A token that is no variable is clear. -/
theorem lexeme_clear {kind : TokenKind} {rest : List Char} (hk : kind ≠ .variable) :
    (Lexer.lexeme kind cs rest pos).1.Clear := fun h => (hk h).elim

theorem stop_clear {fault : SyntaxFault} {rest : List Char} :
    (Lexer.stop fault cs rest pos).1.Clear := fun h => by simp [Lexer.stop] at h

theorem quotedToken_clear {kind : TokenKind} {c : Char} (hk : kind ≠ .variable) :
    (Lexer.quotedToken kind c cs pos).1.Clear := by
  unfold Lexer.quotedToken
  split
  · exact fun h => (hk h).elim
  · exact stop_clear

/-- Punctuation is no variable. -/
theorem punctuation?_ne_variable {c : Char} {kind : TokenKind} (h : punctuation? c = some kind) :
    kind ≠ .variable := by
  unfold punctuation? at h
  split at h <;> first | (obtain rfl := Option.some.inj h; simp) | cases h

/-- The token at the front of a text. -/
theorem scan_clear (cs : List Char) (pos : Nat) : (Lexer.scan cs pos).1.Clear := by
  unfold Lexer.scan
  split
  · intro h; cases h
  next c r =>
  split
  · next kind hk => exact lexeme_clear (punctuation?_ne_variable hk)
  split
  · exact lexeme_clear (by simp)
  split
  · exact lexeme_clear (by simp)
  split
  -- A variable begins with a capital letter or an underscore, and a register with a dollar sign.
  · next hvar =>
    intro _
    apply isRegister_ofList
    rintro rfl
    exact absurd hvar (by decide)
  split
  · exact lexeme_clear (by simp)
  split
  · exact fun h => (quotedToken_clear (by simp) : (Lexer.quotedToken .name c r pos).1.Clear) h
  split
  · exact quotedToken_clear (by simp)
  split
  · exact lexeme_clear (by simp)
  split
  · exact lexeme_clear (by simp)
  · exact stop_clear

/-- The next token is clear. -/
theorem next_clear (l : Lexer) : l.next.1.Clear := by
  unfold Lexer.next
  split
  · intro h; cases h
  · simp only
    split
    · intro h; cases h
    · exact fun h => scan_clear _ _ h

/-- All tokens of a text are clear. -/
theorem take_clear (n : Nat) : ∀ l : Lexer, ∀ t ∈ (l.take n).1, t.Clear := by
  induction n with
  | zero => intro l t ht; simp [Lexer.take] at ht
  | succ n ih =>
    intro l t ht
    simp only [Lexer.take] at ht
    split at ht
    · obtain rfl := List.mem_singleton.1 ht
      exact next_clear l
    · rcases List.mem_cons.1 ht with rfl | ht
      · exact next_clear l
      · exact ih _ t ht

end Lexer

/-! ## §2. Plain terms. -/

mutual

/-- A term as it is read: no variable is named like a register, nothing is missing and nothing is
    marked. -/
def Term.Plain : Term → Prop
  | .var name _ => isRegister name = false
  | .const _ _ => True
  | .app _ args attrs _ => attrs = .none ∧ Term.AllPlain args
  | .absent => False

/-- All terms of a list are plain. -/
def Term.AllPlain : List Term → Prop
  | [] => True
  | t :: ts => t.Plain ∧ Term.AllPlain ts

end

/-- Written operators get the mark of comparisons only when they compare. -/
theorem internalForm_marks {name internal : String} {arity : Nat} {marks : Attrs}
    (h : internalForm name arity = some (internal, marks)) :
    (Attrs.none.union marks).has .boolean = true →
      ∀ o, Operator.ofName? internal ≠ some (.value o) := by
  have hcompare : ∀ s, s ∈ ["<", ">", "=<", ">=", "=:=", "=\\="] →
      ∀ o, Operator.ofName? s ≠ some (.value o) := by
    intro s hs o
    simp only [List.mem_cons, List.not_mem_nil, or_false] at hs
    rcases hs with rfl | rfl | rfl | rfl | rfl | rfl <;> simp [Operator.ofName?]
  unfold internalForm at h
  repeat' split at h
  all_goals cases h
  all_goals first
    | exact fun hb => absurd hb (by decide)
    | exact fun _ => hcompare _ (List.contains_iff_mem.1 ‹List.contains _ _ = true›)

mutual

/-- **Shaping a plain term makes it proper.** -/
theorem Term.shape_proper : (t : Term) → t.Plain → t.shape.Proper
  | .var name id, h => by simp only [Term.shape]; exact h
  | .const a pos, _ => by simp only [Term.shape]; trivial
  | .app name args attrs pos, ⟨hattrs, hargs⟩ => by
    subst hattrs
    have hshapes := Term.shapes_proper args hargs
    rw [Term.shape]
    split
    · next hform => exact ⟨internalForm_marks hform, hshapes⟩
    · exact ⟨fun hb => absurd hb (by decide), hshapes⟩
  | .absent, h => h.elim

/-- Shaping plain terms makes them proper. -/
theorem Term.shapes_proper : (ts : List Term) → Term.AllPlain ts → Term.AllProper (Term.shapes ts)
  | [], _ => by simp [Term.shapes, Term.AllProper]
  | t :: ts, ⟨ht, hts⟩ => by
    rw [Term.shapes]
    exact ⟨Term.shape_proper t ht, Term.shapes_proper ts hts⟩

end

/-! ## §3. Reading. -/

/-- No token that is left reads like a register. -/
def Cursor.Clear (c : Cursor) : Prop := c.current.Clear ∧ ∀ t ∈ c.rest, t.Clear

/-- The tokens behind the current one are clear. -/
theorem Cursor.Clear.advance {c : Cursor} (h : c.Clear) : c.advance.Clear := by
  unfold Cursor.advance
  split
  · exact h
  · next t ts hrest => exact ⟨h.2 t (by simp [hrest]), fun u hu => h.2 u (by simp [hrest, hu])⟩

/-- The tokens of a text are clear. -/
theorem Cursor.ofText_clear (source : String) (anonymous : Nat) :
    (Cursor.ofText source anonymous).Clear := by
  have h := Lexer.take_clear ((Lexer.ofText source).rest.length + 1) (Lexer.ofText source)
  rcases hts : (Lexer.ofText source).take ((Lexer.ofText source).rest.length + 1) with
    ⟨_ | ⟨t, ts⟩, l⟩ <;> rw [hts] at h
  · rw [Cursor.ofText, Lexer.tokens, hts]
    refine ⟨fun h => ?_, by simp⟩
    cases h
  · rw [Cursor.ofText, Lexer.tokens, hts]
    exact ⟨h t (by simp), fun u hu => h u (List.mem_cons_of_mem _ hu)⟩

/-- From clear tokens the action leaves clear tokens, and what it yields has the property. -/
def Reading.Yields {α : Type} (x : Reading α) (P : α → Prop) : Prop :=
  ∀ c : Cursor, c.Clear → (x.run.run c).2.Clear ∧ ∀ a, (x.run.run c).1 = .ok a → P a

namespace Reading.Yields

variable {α β : Type} {P : α → Prop} {Q : β → Prop}

protected theorem pure {a : α} (ha : P a) : Reading.Yields (pure a) P := by
  intro c hc
  refine ⟨hc, fun b hb => ?_⟩
  obtain rfl : a = b := Except.ok.inj hb
  exact ha

protected theorem bind {x : Reading α} {k : α → Reading β} (hx : x.Yields P)
    (hk : ∀ a, P a → (k a).Yields Q) : (x >>= k).Yields Q := by
  intro c hc
  obtain ⟨hclear, hval⟩ := hx c hc
  rcases hxc : x.run.run c with ⟨e | a, c₁⟩ <;> rw [hxc] at hclear hval
  · rw [Reading.run_bind_error hxc]
    exact ⟨hclear, fun b hb => by cases hb⟩
  · rw [Reading.run_bind_ok hxc]
    exact hk a (hval a rfl) c₁ hclear

protected theorem throw (e : SyntaxError) : Reading.Yields (throw e) P :=
  fun c hc => ⟨hc, fun a ha => by cases ha⟩

protected theorem fail (fault : SyntaxFault) : Reading.Yields (Reading.fail fault) P :=
  fun c hc => ⟨hc, fun a ha => by cases ha⟩

protected theorem get : Reading.Yields (get : Reading Cursor) Cursor.Clear := by
  intro c hc
  refine ⟨hc, fun a ha => ?_⟩
  obtain rfl : c = a := Except.ok.inj ha
  exact hc

/-- The current token is clear. -/
protected theorem current : Reading.Yields Reading.current Token.Clear := by
  intro c hc
  refine ⟨hc, fun a ha => ?_⟩
  obtain rfl : c.current = a := Except.ok.inj ha
  exact hc.1

/-- Going on yields nothing of interest. -/
protected theorem advance : Reading.Yields Reading.advance (fun _ => True) :=
  fun _ hc => ⟨hc.advance, fun _ _ => trivial⟩

protected theorem ite {c : Prop} [Decidable c] {x y : Reading α} (hx : x.Yields P)
    (hy : y.Yields P) : Reading.Yields (if c then x else y) P := by
  split <;> assumption

protected theorem expect (kind : TokenKind) :
    Reading.Yields (Reading.expect kind) (fun _ => True) := by
  refine Reading.Yields.current.bind fun t _ => .ite .advance ?_
  split
  · exact .fail _
  · exact Reading.Yields.get.bind fun _ _ => .throw _
  · exact .fail _

end Reading.Yields

open Reading

/-- A clear token gives a plain variable. -/
theorem variableTerm_plain {t : Token} (ht : t.Clear) (hk : t.kind = .variable) :
    (variableTerm t).Yields Term.Plain := by
  refine .ite ?_ (.pure (ht hk))
  intro c hc
  refine ⟨hc, fun a ha => ?_⟩
  obtain rfl := Except.ok.inj ha
  exact isRegister_ofList (by decide)

/-- A number is a plain term. -/
theorem numberTerm_plain (t : Token) (negative : Bool) :
    (numberTerm t negative).Yields Term.Plain := by
  unfold numberTerm
  split
  · exact .pure trivial
  · exact .throw _

/-- A list of plain terms is plain. -/
theorem Term.ofList_plain {elements : List Term} {tail : Term} (he : Term.AllPlain elements)
    (ht : tail.Plain) : (Term.ofList elements tail).Plain := by
  induction elements with
  | nil => exact ht
  | cons t ts ih => exact ⟨rfl, he.1, ih he.2, trivial⟩

namespace Grammar

/-- What the four readers yield with a given count. -/
structure ReadsPlain (g : Grammar) (n : Nat) : Prop where
  /-- Terms. -/
  term : ∀ max depth, (g.term n max depth).Yields Term.Plain
  /-- Terms behind a left operand. -/
  climb : ∀ left priority max depth, left.Plain →
    (g.climb n left priority max depth).Yields Term.Plain
  /-- Operands. -/
  operand : ∀ max depth, (g.operand n max depth).Yields (fun r => r.1.Plain)
  /-- Arguments. -/
  elements : ∀ depth, (g.elements n depth).Yields Term.AllPlain

/-- Climbing the operators yields plain terms. -/
theorem climb_plain {g : Grammar} {n : Nat} (ih : g.ReadsPlain n) {left : Term}
    (priority max depth : Int) (hleft : left.Plain) :
    (g.climb (n + 1) left priority max depth).Yields Term.Plain := by
  refine Reading.Yields.current.bind fun t _ => ?_
  split
  · exact .pure hleft
  · refine .ite (.pure hleft) (.ite (.fail _) ?_)
    exact Reading.Yields.advance.bind fun _ _ => (ih.term _ _).bind fun right hright =>
      ih.climb _ _ _ _ ⟨rfl, hleft, hright, trivial⟩

/-- A bracketed list behind its opening bracket. -/
theorem list_plain {g : Grammar} {n : Nat} (ih : g.ReadsPlain n) (depth : Int) :
    Reading.Yields (do
      let elements ← g.elements n depth
      let tail ← if (← current).kind = .bar then do
          advance
          g.term n 999 (depth + 1)
        else pure (.const .nil (-1))
      expect .bracketClose
      return (Term.ofList elements tail, (0 : Int))) (fun r => r.1.Plain) := by
  refine (ih.elements depth).bind fun elements helements =>
    Reading.Yields.current.bind fun t _ => ?_
  refine .ite ?_ ?_
  · exact Reading.Yields.advance.bind fun _ _ => (ih.term _ _).bind fun tail htail =>
      (Reading.Yields.expect _).bind fun _ _ => .pure (Term.ofList_plain helements htail)
  · exact Reading.Yields.bind (P := Term.Plain) (.pure trivial) fun tail htail =>
      (Reading.Yields.expect _).bind fun _ _ => .pure (Term.ofList_plain helements htail)

/-- An operand that starts with the name `t`. -/
theorem named_plain {g : Grammar} {n : Nat} (ih : g.ReadsPlain n) (t : Token)
    (max depth : Int) :
    Reading.Yields (do
      let next ← current
      if next.kind = .parenOpen && !next.layout then do
        advance
        let args ← g.elements n depth
        expect .parenClose
        return (Term.app t.value args .none t.position, (0 : Int))
      else if t.quoted then return (t.atom, 0)
      else if t.value = "-" && next.kind = .number && !next.layout then do
        advance
        return (← numberTerm next true, 0)
      else match g.operators.before? t.value with
        | some d =>
          if d.priority ≤ max && g.startsTerm next then do
            let arg ← g.term n d.rightMax (depth + 1)
            return (.app t.value [arg] .none t.position, d.priority)
          else return (t.atom, 0)
        | none => return (t.atom, 0)) (fun r => r.1.Plain) := by
  -- The branches are those of the parser: a compound term, a quoted atom, a negative number, a prefix
  -- operator, an atom.
  refine Reading.Yields.current.bind fun next _ => ?_
  refine .ite ?_ (.ite (.pure trivial) (.ite ?_ ?_))
  · exact Reading.Yields.advance.bind fun _ _ => (ih.elements _).bind fun args hargs =>
      (Reading.Yields.expect _).bind fun _ _ => .pure ⟨rfl, hargs⟩
  · exact Reading.Yields.advance.bind fun _ _ => (numberTerm_plain _ _).bind fun _ h => .pure h
  · split
    · refine .ite ?_ (.pure trivial)
      exact (ih.term _ _).bind fun arg harg => .pure ⟨rfl, harg, trivial⟩
    · exact .pure trivial

theorem operand_plain {g : Grammar} {n : Nat} (ih : g.ReadsPlain n) (max depth : Int) :
    (g.operand (n + 1) max depth).Yields (fun r => r.1.Plain) := by
  refine .ite (.fail _) (Reading.Yields.current.bind fun t ht => ?_)
  split
  · exact .fail _
  · exact Reading.Yields.get.bind fun _ _ => .throw _
  · exact Reading.Yields.advance.bind fun _ _ => (numberTerm_plain _ _).bind fun _ h => .pure h
  · next hk =>
    exact Reading.Yields.advance.bind fun _ _ =>
      (variableTerm_plain ht hk).bind fun _ h => .pure h
  · exact Reading.Yields.advance.bind fun _ _ => .pure trivial
  · exact Reading.Yields.advance.bind fun _ _ => (ih.term _ _).bind fun inner hinner =>
      (Reading.Yields.expect _).bind fun _ _ => .pure hinner
  · refine Reading.Yields.advance.bind fun _ _ => Reading.Yields.current.bind fun _ _ => .ite ?_ ?_
    · exact Reading.Yields.advance.bind fun _ _ => .pure trivial
    · exact list_plain ih depth
  · exact Reading.Yields.advance.bind fun _ _ => named_plain ih t max depth
  · exact .fail _

/-- **Whatever the operators and the count, plain terms are read.** -/
theorem readsPlain (g : Grammar) (n : Nat) : g.ReadsPlain n := by
  induction n with
  | zero =>
    exact ⟨fun _ _ => .fail _, fun _ _ _ _ _ => .fail _, fun _ _ => .fail _, fun _ => .fail _⟩
  | succ n ih =>
    refine ⟨fun max depth => ?_, fun _ p m d h => climb_plain ih p m d h,
      fun max depth => operand_plain ih max depth, fun depth => ?_⟩
    · exact (ih.operand max depth).bind fun r hr => ih.climb r.1 r.2 max depth hr
    · refine (ih.term _ _).bind fun first hfirst => Reading.Yields.current.bind fun _ _ => ?_
      refine .ite ?_ (.pure ⟨hfirst, trivial⟩)
      exact Reading.Yields.advance.bind fun _ _ => (ih.elements depth).bind fun rest hrest =>
        .pure ⟨hfirst, hrest⟩

theorem clause_plain (g : Grammar) : g.clause.Yields Term.Plain := by
  refine Reading.Yields.get.bind fun c _ => ?_
  split
  · exact .throw _
  · exact .fail _
  · exact ((g.readsPlain _).term _ _).bind fun t ht =>
      (Reading.Yields.expect _).bind fun _ _ => .pure ht

end Grammar

/-! ## §4. Clauses and programs. -/

/-- The next clause is proper, and the tokens behind it are clear. -/
theorem Cursor.next_proper {g : Grammar} {c : Cursor} (hc : c.Clear) :
    (c.next g).2.Clear ∧ ∀ t, (c.next g).1 = .ok t → t.Proper := by
  obtain ⟨hclear, hplain⟩ := g.clause_plain c hc
  refine ⟨hclear, fun t ht => ?_⟩
  cases h : (g.clause.run.run c).1 with
  | error e =>
    have : (c.next g).1 = .error e := congrArg (Except.map Term.shape) h
    rw [this] at ht
    cases ht
  | ok s =>
    have : (c.next g).1 = .ok s.shape := congrArg (Except.map Term.shape) h
    rw [this] at ht
    obtain rfl := Except.ok.inj ht
    exact s.shape_proper (hplain s h)

theorem Cursor.clauses_proper {g : Grammar} (n : Nat) : ∀ {c : Cursor} {ts : List Term},
    c.Clear → c.clauses g n = .ok ts → ∀ t ∈ ts, t.Proper := by
  induction n with
  | zero =>
    intro c ts _ h t ht
    obtain rfl := Except.ok.inj h
    cases ht
  | succ n ih =>
    intro c ts hc h t ht
    -- The clause at the front is proper, and the others are read from clear tokens.
    obtain ⟨hclear, hproper⟩ := Cursor.next_proper (g := g) hc
    rw [Cursor.clauses] at h
    split at h
    · obtain rfl := Except.ok.inj h
      cases ht
    split at h
    · cases h
    next s c' hnext =>
    rw [hnext] at hclear hproper
    split at h
    · cases h
    next rest hrest =>
    obtain rfl := Except.ok.inj h
    rcases List.mem_cons.1 ht with rfl | ht
    · exact hproper _ rfl
    · exact ih hclear hrest t ht

/-- **Every clause of a program that is read is proper.** -/
theorem readProgram_proper {g : Grammar} {source : String} {anonymous : Nat} {ts : List Term}
    (h : readProgram g source anonymous = .ok ts) : ∀ t ∈ ts, t.Proper :=
  Cursor.clauses_proper _ (Cursor.ofText_clear source anonymous) h

/-- **A clause that is read by itself is proper.** -/
theorem readClause_proper {g : Grammar} {source : String} {anonymous : Nat} {t : Term}
    (h : readClause g source anonymous = .ok t) : t.Proper := by
  have hproper := (Cursor.next_proper (g := g) (Cursor.ofText_clear source anonymous)).2
  simp only [readClause] at h
  split at h
  · cases h
  split at h
  · cases h
  next s c hnext =>
  split at h
  · obtain rfl := Except.ok.inj h
    exact hproper _ (by rw [hnext])
  · cases h

end PrologMachine
