/-
  PrologMachine.Proofs.Reading.Count ── **THE COUNT OF THE READER IS ENOUGH.**

  The four readers call each other at most three deep before a token is consumed.  So a count of
  three for every token that is left is enough, whatever the tokens are, and no clause is ever cut
  short by it.

    * `Cursor.Sound`: the tokens end, and every error token has a fault of its own.
    * `Reading.Settles`: an action comes to its own end, having consumed so many tokens.
    * `Grammar.settles`: the count that each of the four readers needs.
    * `Cursor.next_settles`: no clause is cut short, and each takes up a token.
    * `Cursor.program_more`: the clauses of a program, one after the other.
-/
import PrologMachine.Proofs.Reading.Lexing

namespace PrologMachine

/-! ## §1. Cursors over the tokens of a text. -/

/-- The tokens end with the last one, and an error token has a fault of its own. -/
structure Cursor.Sound (c : Cursor) : Prop where
  /-- Only the last token has none behind it. -/
  closed : ClosedTokens c.tokens
  /-- A fault comes with every error token. -/
  faulty : ∀ t ∈ c.tokens, t.kind = .error → ∃ e, c.fault = some e ∧ e.fault ≠ .cutShort

namespace Cursor

/-- Going on does not change the fault. -/
theorem advance_fault (c : Cursor) : c.advance.fault = c.fault := by
  unfold advance
  split <;> rfl

/-- The tokens behind the current one are in order. -/
theorem Sound.advance {c : Cursor} (h : c.Sound) : c.advance.Sound where
  closed := h.closed.of_suffix c.advance_tokens_suffix (List.cons_ne_nil _ _)
  faulty t ht hk := by
    rw [advance_fault]
    exact h.faulty t (c.advance_tokens_suffix.subset ht) hk

/-- The number of anonymous variables does not matter. -/
theorem Sound.rename {c : Cursor} (h : c.Sound) (n : Nat) : { c with anonymous := n }.Sound :=
  ⟨h.closed, h.faulty⟩

/-- One token less is left. -/
theorem Sound.advance_rest {c : Cursor} (h : c.Sound) (hlast : c.current.isLast = false) :
    c.advance.rest.length + 1 = c.rest.length := by
  have := congrArg List.length (tokens_eq_advance h.closed hlast)
  simp only [tokens, List.length_cons] at this
  omega

/-- The error at an error token is that of the text. -/
theorem Sound.lexicalError {c : Cursor} (h : c.Sound) (hk : c.current.kind = .error) :
    c.fault = some c.lexicalError ∧ c.lexicalError.fault ≠ .cutShort := by
  obtain ⟨e, he, hcut⟩ := h.faulty _ (List.mem_cons_self ..) hk
  rw [Cursor.lexicalError, he]
  exact ⟨rfl, hcut⟩

end Cursor

/-- An error token of a text has a fault. -/
theorem Lexer.take_faulty (n : Nat) : ∀ l : Lexer, l.fault = none → ∀ t ∈ (l.take n).1,
    t.kind = .error → ∃ e, (l.take n).2.fault = some e ∧ e.fault ≠ .cutShort := by
  induction n with
  | zero => intro l _ t ht; cases ht
  | succ n ih =>
    intro l hl t ht hk
    have hnext := next_coherent hl
    simp only [take] at ht ⊢
    split at ht
    · next hlast =>
      obtain rfl := List.mem_singleton.1 ht
      rw [if_pos hlast]
      exact hnext.error hk
    · next hlast =>
      rw [if_neg hlast]
      rcases List.mem_cons.1 ht with rfl | ht
      · simp [Token.isLast, hk] at hlast
      · refine ih l.next.2 (hnext.fault fun he => ?_) t ht hk
        simp [Token.isLast, he] at hlast

/-- The fault is that of the text. -/
theorem Cursor.ofText_fault (source : String) (anonymous : Nat) :
    (ofText source anonymous).fault = (Lexer.ofText source).tokens.2.fault := by
  unfold ofText
  rcases (Lexer.ofText source).tokens with ⟨_ | ⟨t, ts⟩, l⟩ <;> rfl

/-- The number of anonymous variables is the given one. -/
theorem Cursor.ofText_anonymous (source : String) (anonymous : Nat) :
    (ofText source anonymous).anonymous = anonymous := by
  unfold ofText
  rcases (Lexer.ofText source).tokens with ⟨_ | ⟨t, ts⟩, l⟩ <;> rfl

/-- The tokens of a text are in order. -/
theorem Cursor.ofText_sound (source : String) (anonymous : Nat) :
    (ofText source anonymous).Sound where
  closed := by
    rw [ofText_tokens]
    exact Lexer.tokens_closed _
  faulty := by
    rw [ofText_tokens, ofText_fault]
    exact Lexer.take_faulty _ _ rfl

/-! ## §2. Actions. -/

/-- Begun at `c` the action is not cut short, and a value that it yields has taken up at least `m`
    tokens. -/
def Reading.Settles {α : Type} (x : Reading α) (c : Cursor) (m : Nat) : Prop :=
  c.Sound → (∀ e, (x.run.run c).1 = .error e → e.fault ≠ .cutShort) ∧
    ∀ a, (x.run.run c).1 = .ok a →
      (x.run.run c).2.Sound ∧ (x.run.run c).2.rest.length + m ≤ c.rest.length

namespace Reading.Settles

variable {α β : Type} {c : Cursor} {m k : Nat}

protected theorem pure {a : α} : Reading.Settles (pure a) c 0 :=
  fun hc => ⟨fun _ he => (nomatch he), fun _ _ => ⟨hc, Nat.le_refl _⟩⟩

/-- An error settles, unless it says that tokens were missing. -/
protected theorem throw {e : SyntaxError} (he : c.Sound → e.fault ≠ .cutShort) :
    Reading.Settles (throw e : Reading α) c m := by
  refine fun hc => ⟨fun e' h => ?_, fun _ h => nomatch h⟩
  obtain rfl : e = e' := Except.error.inj h
  exact he hc

protected theorem fail {fault : SyntaxFault} (hf : fault ≠ .cutShort) :
    Reading.Settles (Reading.fail fault : Reading α) c m := by
  refine fun _ => ⟨fun e' h => ?_, fun _ h => nomatch h⟩
  obtain rfl : c.error fault = e' := Except.error.inj h
  exact hf

/-- The tokens that two actions take up add up.  The second one may rely on the first one having
    taken up its own. -/
protected theorem bind {x : Reading α} {f : α → Reading β} (hx : x.Settles c m)
    (hf : ∀ a c₁, c₁.rest.length + m ≤ c.rest.length → (f a).Settles c₁ k) :
    (x >>= f).Settles c (m + k) := by
  intro hc
  obtain ⟨herror, hval⟩ := hx hc
  rcases hxc : x.run.run c with ⟨e | a, c₁⟩ <;> rw [hxc] at herror hval
  · rw [Reading.run_bind_error hxc]
    refine ⟨fun e' h => ?_, fun b h => by cases h⟩
    obtain rfl : e = e' := Except.error.inj h
    exact herror e rfl
  · obtain ⟨hsound, hle⟩ := hval a rfl
    rw [Reading.run_bind_ok hxc]
    simp only at hsound hle
    obtain ⟨hcut, hnext⟩ := hf a c₁ hle hsound
    refine ⟨hcut, fun b hb => ?_⟩
    obtain ⟨hs, hl⟩ := hnext b hb
    exact ⟨hs, by omega⟩

/-- Reading the tokens takes none. -/
protected theorem get_bind {f : Cursor → Reading β} (h : (f c).Settles c m) :
    Reading.Settles (get >>= f) c m := h

/-- Looking at the current token takes none. -/
protected theorem current_bind {f : Token → Reading β} (h : (f c.current).Settles c m) :
    Reading.Settles (Reading.current >>= f) c m := h

protected theorem mono {x : Reading α} (hx : x.Settles c m) (h : k ≤ m) : x.Settles c k :=
  fun hc => (hx hc).imp_right fun hval a ha => (hval a ha).imp_right fun hl => by omega

protected theorem ite {p : Prop} [Decidable p] {x y : Reading α} (hx : p → x.Settles c m)
    (hy : ¬ p → y.Settles c m) : Reading.Settles (if p then x else y) c m := by
  split
  · next h => exact hx h
  · next h => exact hy h

/-- Going on takes one token, if it is not the last. -/
protected theorem advance (hlast : c.current.isLast = false) :
    Reading.Settles Reading.advance c 1 := fun hc =>
  ⟨fun _ he => (nomatch he), fun _ _ => ⟨hc.advance, Nat.le_of_eq (hc.advance_rest hlast)⟩⟩

/-- The error at an error token. -/
protected theorem lexical (hk : c.current.kind = .error) :
    Reading.Settles (throw c.lexicalError : Reading α) c m :=
  .throw fun hc => (hc.lexicalError hk).2

protected theorem expect {kind : TokenKind} (hkind : kind ≠ .eof) (herror : kind ≠ .error) :
    Reading.Settles (Reading.expect kind) c 1 := by
  refine .current_bind (.ite (fun hk => ?_) fun _ => ?_)
  · exact .advance (by simp [Token.isLast, hk, hkind, herror])
  · split
    · exact .fail (by simp)
    · next hk => exact .get_bind (.lexical hk)
    · exact .fail (by simp)

end Reading.Settles

/-! ## §3. The four readers. -/

open Reading

/-- A variable takes no token of its own. -/
theorem variableTerm_settles (t : Token) (c : Cursor) : (variableTerm t).Settles c 0 :=
  .ite (fun _ hc => ⟨fun _ he => (nomatch he), fun _ _ => ⟨hc.rename _, Nat.le_refl _⟩⟩)
    fun _ => .pure

theorem numberTerm_settles (t : Token) (negative : Bool) (c : Cursor) :
    (numberTerm t negative).Settles c 0 := by
  unfold numberTerm
  split
  · exact .pure
  · exact .throw fun _ => by simp

namespace Grammar

variable {g : Grammar} {n : Nat}

/-- The counts with which the four readers settle. -/
structure SettlesAt (g : Grammar) (n : Nat) : Prop where
  /-- A term takes up a token. -/
  term : ∀ max depth (c : Cursor), 3 * c.rest.length + 2 ≤ n → (g.term n max depth).Settles c 1
  /-- Behind a left operand there may be nothing. -/
  climb : ∀ left priority max depth (c : Cursor), 3 * c.rest.length + 1 ≤ n →
    (g.climb n left priority max depth).Settles c 0
  /-- An operand takes up a token. -/
  operand : ∀ max depth (c : Cursor), 3 * c.rest.length + 1 ≤ n →
    (g.operand n max depth).Settles c 1
  /-- Arguments take up a token. -/
  elements : ∀ depth (c : Cursor), 3 * c.rest.length + 3 ≤ n → (g.elements n depth).Settles c 1

/-- The last token is no infix operator. -/
theorem between?_isLast {t : Token} {d : OpDef} (h : g.between? t = some d) :
    t.isLast = false := by
  unfold between? at h
  split at h
  · next hk => simp [Token.isLast, hk]
  · next hk => simp [Token.isLast, hk]
  · cases h

/-- Climbing the operators settles. -/
theorem climb_settles (ih : g.SettlesAt n) (left : Term) (priority max depth : Int) {c : Cursor}
    (hn : 3 * c.rest.length + 1 ≤ n + 1) :
    (g.climb (n + 1) left priority max depth).Settles c 0 := by
  refine .current_bind ?_
  split
  · exact .pure
  next d hd =>
  refine .ite (fun _ => .pure) fun _ => .ite (fun _ => .fail (by simp)) fun _ => ?_
  refine Settles.mono ((Settles.advance (between?_isLast hd)).bind fun _ c₁ h₁ => ?_)
    (Nat.zero_le (1 + (1 + 0)))
  exact (ih.term _ _ c₁ (by omega)).bind fun right c₂ h₂ => ih.climb _ _ _ _ c₂ (by omega)

/-- A list behind its opening bracket. -/
theorem list_settles (ih : g.SettlesAt n) (depth : Int) {c : Cursor}
    (hn : 3 * c.rest.length + 3 ≤ n) :
    Settles (do
      let elements ← g.elements n depth
      let tail ← if (← current).kind = .bar then do
          advance
          g.term n 999 (depth + 1)
        else pure (.const .nil (-1))
      expect .bracketClose
      return (Term.ofList elements tail, (0 : Int))) c 0 := by
  refine ((ih.elements depth c hn).bind (k := 1) fun elements c₂ h₂ => .current_bind ?_).mono
    (Nat.zero_le _)
  refine .ite (fun hbar => ?_) fun _ => ?_
  · refine ((Settles.advance (by simp [Token.isLast, hbar])).bind (k := 0)
      fun _ c₃ h₃ => ?_).mono (Nat.le_refl 1)
    refine ((ih.term _ _ c₃ (by omega)).bind (k := 1) fun tail c₄ _ => ?_).mono (Nat.zero_le _)
    exact (Settles.expect (by decide) (by decide)).bind fun _ _ _ => .pure
  · refine (Settles.pure.bind (m := 0) (k := 1) fun tail c₃ _ => ?_).mono (Nat.le_refl 1)
    exact (Settles.expect (by decide) (by decide)).bind fun _ _ _ => .pure

/-- An operand behind the name it starts with. -/
theorem named_settles (ih : g.SettlesAt n) (t : Token) (max depth : Int) {c : Cursor}
    (hn : 3 * c.rest.length + 3 ≤ n) :
    Settles (do
      let next ← current
      if next.kind = .parenOpen && !next.layout then do
        advance
        let args ← g.elements n depth
        expect .parenClose
        return (Term.app t.value args .none t.position, (0 : Int))
      else if t.quoted then return (t.atom, 0)
      else if t.value = "-" && next.kind = .number && !next.layout then do
        advance
        return (← numberTerm next true, 0)
      else match g.operators.before? t.value with
        | some d =>
          if d.priority ≤ max && g.startsTerm next then do
            let arg ← g.term n d.rightMax (depth + 1)
            return (.app t.value [arg] .none t.position, d.priority)
          else return (t.atom, 0)
        | none => return (t.atom, 0)) c 0 := by
  -- Three calls of the readers may pass between two tokens, and the bound counts three for each token.
  refine .current_bind (.ite (fun h => ?_) fun _ => .ite (fun _ => .pure) fun _ =>
    .ite (fun h => ?_) fun _ => ?_)
  · have hopen : c.current.kind = .parenOpen := by simp_all
    refine ((Settles.advance (by simp [Token.isLast, hopen])).bind (k := 2)
      fun _ c₁ h₁ => ?_).mono (Nat.zero_le _)
    refine (ih.elements _ c₁ (by omega)).bind (k := 1) fun args c₂ _ => ?_
    exact (Settles.expect (by decide) (by decide)).bind fun _ _ _ => .pure
  · have hnumber : c.current.kind = .number := by simp_all
    refine ((Settles.advance (by simp [Token.isLast, hnumber])).bind (k := 0)
      fun _ c₁ _ => ?_).mono (Nat.zero_le _)
    exact (numberTerm_settles _ _ _).bind fun _ _ _ => .pure
  · split
    · refine .ite (fun _ => ?_) fun _ => .pure
      exact ((ih.term _ _ c (by omega)).bind (k := 0) fun _ _ _ => .pure).mono (Nat.zero_le _)
    · exact .pure

/-- An operand takes a token. -/
theorem operand_settles (ih : g.SettlesAt n) (max depth : Int) {c : Cursor}
    (hn : 3 * c.rest.length + 1 ≤ n + 1) : (g.operand (n + 1) max depth).Settles c 1 := by
  -- Every branch takes the token that it has looked at before it reads on.
  refine .ite (fun _ => .fail (by simp)) fun _ => .current_bind ?_
  split
  · exact .fail (by simp)
  · next hk => exact .get_bind (.lexical hk)
  · next hk =>
    refine (Settles.advance (by simp [Token.isLast, hk])).bind (k := 0) fun _ c₁ _ => ?_
    exact (numberTerm_settles _ _ _).bind fun _ _ _ => .pure
  · next hk =>
    refine (Settles.advance (by simp [Token.isLast, hk])).bind (k := 0) fun _ c₁ _ => ?_
    exact (variableTerm_settles _ _).bind fun _ _ _ => .pure
  · next hk =>
    exact (Settles.advance (by simp [Token.isLast, hk])).bind fun _ _ _ => .pure
  · next hk =>
    refine ((Settles.advance (by simp [Token.isLast, hk])).bind (k := 2)
      fun _ c₁ h₁ => ?_).mono (by omega)
    refine (ih.term _ _ c₁ (by omega)).bind (k := 1) fun _ c₂ _ => ?_
    exact (Settles.expect (by decide) (by decide)).bind fun _ _ _ => .pure
  · next hk =>
    refine (Settles.advance (by simp [Token.isLast, hk])).bind (k := 0) fun _ c₁ h₁ =>
      .current_bind (.ite (fun hclose => ?_) fun _ => list_settles ih depth (by omega))
    exact ((Settles.advance (by simp [Token.isLast, hclose])).bind (k := 0)
      fun _ _ _ => .pure).mono (Nat.zero_le _)
  · next hk =>
    exact (Settles.advance (by simp [Token.isLast, hk])).bind (k := 0) fun _ c₁ h₁ =>
      named_settles ih _ max depth (by omega)
  · exact .fail (by simp)

/-- **Three for every token that is left is enough of a count.** -/
theorem settles (g : Grammar) (n : Nat) : g.SettlesAt n := by
  induction n with
  | zero =>
    exact ⟨fun _ _ _ h => by omega, fun _ _ _ _ _ h => by omega, fun _ _ _ h => by omega,
      fun _ _ h => by omega⟩
  | succ n ih =>
    refine ⟨fun max depth c h => ?_, fun _ _ _ _ _ h => climb_settles ih _ _ _ _ h,
      fun _ _ _ h => operand_settles ih _ _ h, fun depth c h => ?_⟩
    · exact (ih.operand max depth c (by omega)).bind (k := 0) fun r c₁ h₁ =>
        ih.climb r.1 r.2 max depth c₁ (by omega)
    · refine ((ih.term _ _ c (by omega)).bind (k := 0) fun first c₁ h₁ => .current_bind ?_)
      refine .ite (fun hcomma => ?_) fun _ => .pure
      refine ((Settles.advance (by simp [Token.isLast, hcomma])).bind (k := 1)
        fun _ c₂ h₂ => ?_).mono (Nat.zero_le _)
      exact (ih.elements depth c₂ (by omega)).bind fun _ _ _ => .pure

/-- A clause takes up a term and its full stop. -/
theorem clause_settles (g : Grammar) (c : Cursor) : g.clause.Settles c 2 := by
  refine .get_bind ?_
  split
  · next hk => exact .lexical hk
  · exact .fail (by simp)
  · refine ((g.settles _).term 1200 0 c (by rw [Cursor.bound]; omega)).bind (k := 1)
      fun t c₁ _ => ?_
    exact (Settles.expect (by decide) (by decide)).bind fun _ _ _ => .pure

end Grammar

/-! ## §4. Clauses. -/

namespace Cursor

/-- **No clause is cut short, and a clause that is read takes up a token.** -/
theorem next_settles {g : Grammar} {c : Cursor} (hc : c.Sound) :
    (∀ e, (c.next g).1 = .error e → e.fault ≠ .cutShort) ∧
      ∀ t, (c.next g).1 = .ok t →
        (c.next g).2.Sound ∧ (c.next g).2.rest.length < c.rest.length := by
  obtain ⟨herror, hval⟩ := g.clause_settles c hc
  have hnext : (c.next g).1 = (g.clause.run.run c).1.map Term.shape := rfl
  refine ⟨fun e he => ?_, fun t ht => ?_⟩
  · cases h : (g.clause.run.run c).1 with
    | error e' =>
      rw [hnext, h] at he
      exact Except.error.inj he ▸ herror e' h
    | ok s => rw [hnext, h] at he; cases he
  · cases h : (g.clause.run.run c).1 with
    | error e' => rw [hnext, h] at ht; cases ht
    | ok s =>
      obtain ⟨hs, hl⟩ := hval s h
      exact ⟨hs, Nat.lt_of_lt_of_le (Nat.lt_add_of_pos_right Nat.two_pos) hl⟩

/-- More room than there are tokens makes no difference. -/
theorem clauses_stable {g : Grammar} (n : Nat) : ∀ (m : Nat) (c : Cursor), c.Sound →
    c.rest.length < n → c.rest.length < m → c.clauses g n = c.clauses g m := by
  induction n with
  | zero => intro m c _ h; exact absurd h (Nat.not_lt_zero _)
  | succ n ih =>
    intro m c hc hn hm
    obtain ⟨m, rfl⟩ : ∃ k, m = k + 1 := ⟨m - 1, by omega⟩
    simp only [clauses]
    rcases hnext : c.next g with ⟨e | t, c₁⟩
    · rfl
    · obtain ⟨hs, hl⟩ := (next_settles (g := g) hc).2 t (by rw [hnext])
      rw [hnext] at hs hl
      simp only at hs hl ⊢
      rw [ih m c₁ hs (by omega) (by omega)]

/-- All clauses from a cursor on. -/
def program (g : Grammar) (c : Cursor) : Except SyntaxError (List Term) :=
  c.clauses g (c.rest.length + 1)

/-- At the end of the tokens there are no more clauses. -/
theorem program_end {g : Grammar} {c : Cursor} (h : c.atEnd = true) : c.program g = .ok [] := by
  simp [program, clauses, h]

/-- A clause with an error ends the program. -/
theorem program_error {g : Grammar} {c c₁ : Cursor} {e : SyntaxError} (h : c.atEnd = false)
    (hnext : c.next g = (.error e, c₁)) : c.program g = .error e := by
  simp [program, clauses, h, hnext]

/-- The first clause is followed by those behind it. -/
theorem program_more {g : Grammar} {c c₁ : Cursor} {t : Term} (hc : c.Sound)
    (h : c.atEnd = false) (hnext : c.next g = (.ok t, c₁)) :
    c.program g = (c₁.program g).map (t :: ·) := by
  obtain ⟨hs, hl⟩ := (next_settles (g := g) hc).2 t (by rw [hnext])
  rw [hnext] at hs hl
  have hstable := clauses_stable (g := g) _ (c₁.rest.length + 1) c₁ hs hl (Nat.lt_succ_self _)
  rw [program, clauses]
  simp only [h, hnext, Bool.false_eq_true, if_false, hstable, program]
  generalize c₁.clauses g (c₁.rest.length + 1) = r
  cases r <;> rfl

end Cursor

/-- A program is read from its first token on. -/
theorem readProgram_eq (g : Grammar) (source : String) (anonymous : Nat) :
    readProgram g source anonymous = (Cursor.ofText source anonymous).program g := rfl

end PrologMachine
