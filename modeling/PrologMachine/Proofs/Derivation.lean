/-
  PrologMachine.Proofs.Derivation ── **WHAT IS READ IS DERIVED FROM THE TOKENS.**

  `Derives` is the grammar of the terms over a table of operators, one rule for every way to write
  a term: which tokens spell it and which priority it has.  The reader climbs priorities with one
  token of lookahead; whatever it returns has a derivation from exactly the tokens it consumed.

    * `Lexer.tokens_closed`: the tokens of a text end with an end or error token.
    * `Derives`, `Arguments`: the grammar.
    * `Reading.Reads`: what an action yields, and that it leaves an end of the tokens.
    * `Cursor.next_derives`: a clause that is read is derived from its tokens.
-/
import Mathlib.Logic.Function.Iterate
import PrologMachine.Reader

namespace PrologMachine

/-! ## §1. The tokens of a text. -/

/-- The tokens end with one that nothing can follow. -/
def ClosedTokens (ts : List Token) : Prop := ∃ t, ts.getLast? = some t ∧ t.isLast = true

/-- The rest of the tokens ends like all of them. -/
theorem ClosedTokens.of_suffix {ts us : List Token} (h : ClosedTokens us) (hs : ts <:+ us)
    (hne : ts ≠ []) : ClosedTokens ts := by
  obtain ⟨front, rfl⟩ := hs
  obtain ⟨t, hlast, ht⟩ := h
  refine ⟨t, ?_, ht⟩
  rwa [List.getLast?_append, List.getLast?_eq_some_getLast hne, Option.some_or,
    ← List.getLast?_eq_some_getLast hne] at hlast

/-- Skipping layout makes the text no longer. -/
theorem skipLayout_length (mode : LayoutMode) (cs : List Char) (pos : Nat)
    (h : (skipLayout mode cs pos).unclosed = false) :
    (skipLayout mode cs pos).rest.length ≤ cs.length := by
  fun_induction skipLayout mode cs pos <;> grind

theorem splitExponent_length (cs : List Char) : (splitExponent cs).2.length ≤ cs.length := by
  have hdrop (ds : List Char) : (ds.dropWhile Text.isAsciiDigit).length ≤ ds.length :=
    (List.dropWhile_suffix _).length_le
  unfold splitExponent
  grind

theorem splitFraction_length (cs : List Char) : (splitFraction cs).2.length ≤ cs.length := by
  have hdrop (ds : List Char) : (ds.dropWhile Text.isAsciiDigit).length ≤ ds.length :=
    (List.dropWhile_suffix _).length_le
  unfold splitFraction
  grind

/-- A number takes up its first digit. -/
theorem numberLexeme_length {c : Char} (cs : List Char) (hc : Text.isAsciiDigit c = true) :
    (numberLexeme (c :: cs)).2.length ≤ cs.length := by
  have hdrop : ((c :: cs).dropWhile Text.isAsciiDigit).length ≤ cs.length := by
    rw [List.dropWhile_cons_of_pos hc]
    exact (List.dropWhile_suffix _).length_le
  exact Nat.le_trans (splitExponent_length _) (Nat.le_trans (splitFraction_length _) hdrop)

theorem quotedText_length {quote : Char} (cs : List Char) (pos : Nat) {v r : List Char} {p : Nat}
    (h : quotedText quote cs pos = some (v, r, p)) : r.length ≤ cs.length := by
  fun_induction quotedText quote cs pos generalizing v r p <;> grind

namespace Lexer

/-- Quoted text that ends takes up characters. -/
theorem quotedToken_length {kind : TokenKind} {c : Char} {cs : List Char} {pos : Nat}
    (h : (quotedToken kind c cs pos).1.isLast = false) :
    (quotedToken kind c cs pos).2.rest.length ≤ cs.length := by
  unfold quotedToken at h ⊢
  split
  · next hq => exact quotedText_length _ _ hq
  · next hq => simp [hq, stop, Token.isLast] at h

/-- A token that is not the last one takes up a character. -/
theorem scan_length (cs : List Char) (pos : Nat) (h : (scan cs pos).1.isLast = false) :
    (scan cs pos).2.rest.length < cs.length := by
  -- A token of one class takes at least the character that it starts with.
  have hdrop (p : Char → Bool) (ds : List Char) : (ds.dropWhile p).length < ds.length + 1 :=
    Nat.lt_succ_of_le (List.dropWhile_suffix p).length_le
  unfold scan at h ⊢
  split
  · simp [Token.isLast] at h
  next c r =>
  rw [List.length_cons]
  split
  · exact Nat.lt_succ_self _
  split
  · exact Nat.lt_succ_self _
  split
  · exact hdrop _ _
  split
  · exact hdrop _ _
  split
  · next hdigit => exact Nat.lt_succ_of_le (numberLexeme_length r hdigit)
  simp_all only [↓reduceIte, Bool.false_eq_true]
  split
  · next hq =>
    simp only [hq, ↓reduceIte] at h
    exact Nat.lt_succ_of_le (quotedToken_length h)
  next hq =>
  simp only [hq, ↓reduceIte] at h
  split
  · next hs =>
    simp only [hs, ↓reduceIte] at h
    exact Nat.lt_succ_of_le (quotedToken_length h)
  split
  · exact Nat.lt_succ_self _
  split
  · exact hdrop _ _
  · exact Nat.lt_succ_self _

/-- Each token but the last makes the rest of the text shorter. -/
theorem next_length (l : Lexer) (h : l.next.1.isLast = false) :
    l.next.2.rest.length < l.rest.length := by
  unfold next at h ⊢
  split
  · next hf => simp [hf, Token.isLast] at h
  next hf =>
  simp only [hf] at h
  simp only
  split
  · next hu => simp [hu, Token.isLast] at h
  next hu =>
  simp only [hu, Bool.false_eq_true, ↓reduceIte] at h
  exact Nat.lt_of_lt_of_le (scan_length _ _ h) (skipLayout_length _ _ _ (by simpa using hu))

/-- With that much fuel the tokens end. -/
theorem take_closed (n : Nat) : ∀ l : Lexer, l.rest.length < n → ClosedTokens (l.take n).1 := by
  induction n with
  | zero => intro l h; exact absurd h (Nat.not_lt_zero _)
  | succ n ih =>
    intro l h
    simp only [take]
    split
    · next hlast => exact ⟨_, rfl, hlast⟩
    · next hlast =>
      obtain ⟨t, ht, htl⟩ := ih l.next.2
        (by have := next_length l (by simpa using hlast); omega)
      refine ⟨t, ?_, htl⟩
      rw [List.getLast?_cons, ht]
      rfl

/-- **The tokens of a text end with an end or error token.** -/
theorem tokens_closed (l : Lexer) : ClosedTokens l.tokens.1 :=
  take_closed _ l (Nat.lt_succ_self _)

end Lexer

/-! ## §2. The grammar. -/

/-- The token is the operator `d` between two operands. -/
def Token.Between (ops : OpTable) (t : Token) (d : OpDef) : Prop :=
  (t.kind = .name ∧ ops.between? t.value = some d) ∨
    (t.kind = .comma ∧ ops.between? "," = some d)

mutual

/-- The tokens spell the term, which then has the priority.  Anonymous variables are numbered
    through: the first number is the last one given before the tokens, the second one the last one
    given behind them. -/
inductive Derives (ops : OpTable) : Nat → List Token → Term → Int → Nat → Prop where
  /-- A number. -/
  | number {n : Nat} {t : Token} {x : Float} (hkind : t.kind = .number)
      (hread : Number.read t.value.toList = .ok x) :
      Derives ops n [t] (.const (.number x) t.position) 0 n
  /-- A minus sign right in front of a number. -/
  | negative {n : Nat} {minus t : Token} {x : Float} (hminus : minus.kind = .name)
      (hvalue : minus.value = "-") (hquoted : minus.quoted = false) (hkind : t.kind = .number)
      (hlayout : t.layout = false) (hread : Number.read t.value.toList = .ok x) :
      Derives ops n [minus, t] (.const (.number (-x)) t.position) 0 n
  /-- A variable. -/
  | variable {n : Nat} {t : Token} (hkind : t.kind = .variable) (hvalue : t.value ≠ "_") :
      Derives ops n [t] (.var t.value 0) 0 n
  /-- An anonymous variable, which gets the next number. -/
  | anonymous {n : Nat} {t : Token} (hkind : t.kind = .variable) (hvalue : t.value = "_") :
      Derives ops n [t] (.var (anonymousName (n + 1)) 0) 0 (n + 1)
  /-- Text between double quotes. -/
  | string {n : Nat} {t : Token} (hkind : t.kind = .string) : Derives ops n [t] t.atom 0 n
  /-- A plain name, also one that is an operator elsewhere. -/
  | name {n : Nat} {t : Token} (hkind : t.kind = .name) : Derives ops n [t] t.atom 0 n
  /-- A name right in front of its arguments. -/
  | compound {n n' : Nat} {f left right : Token} {ts : List Token} {args : List Term}
      (hname : f.kind = .name) (hleft : left.kind = .parenOpen) (hlayout : left.layout = false)
      (hargs : Arguments ops n ts args n') (hright : right.kind = .parenClose) :
      Derives ops n (f :: left :: (ts ++ [right])) (.app f.value args .none f.position) 0 n'
  /-- A term in parentheses. -/
  | parens {n n' : Nat} {left right : Token} {ts : List Token} {t : Term} {p : Int}
      (hleft : left.kind = .parenOpen) (ht : Derives ops n ts t p n') (hp : p ≤ 1200)
      (hright : right.kind = .parenClose) :
      Derives ops n (left :: (ts ++ [right])) t 0 n'
  /-- The empty list. -/
  | nil {n : Nat} {left right : Token} (hleft : left.kind = .bracketOpen)
      (hright : right.kind = .bracketClose) :
      Derives ops n [left, right] (.const .nil (-1)) 0 n
  /-- A list of its elements. -/
  | list {n n' : Nat} {left right : Token} {ts : List Token} {elements : List Term}
      (hleft : left.kind = .bracketOpen) (helements : Arguments ops n ts elements n')
      (hright : right.kind = .bracketClose) :
      Derives ops n (left :: (ts ++ [right])) (Term.ofList elements (.const .nil (-1))) 0 n'
  /-- A list of elements in front of a tail. -/
  | partialList {n n₁ n' : Nat} {left bar right : Token} {ts us : List Token}
      {elements : List Term} {tail : Term} {p : Int} (hleft : left.kind = .bracketOpen)
      (helements : Arguments ops n ts elements n₁) (hbar : bar.kind = .bar)
      (htail : Derives ops n₁ us tail p n') (hp : p ≤ 999) (hright : right.kind = .bracketClose) :
      Derives ops n (left :: (ts ++ bar :: (us ++ [right]))) (Term.ofList elements tail) 0 n'
  /-- An operator in front of its operand. -/
  | before {n n' : Nat} {op : Token} {ts : List Token} {d : OpDef} {arg : Term} {p : Int}
      (hop : op.kind = .name) (hquoted : op.quoted = false)
      (hd : ops.before? op.value = some d) (harg : Derives ops n ts arg p n')
      (hp : p ≤ d.rightMax) :
      Derives ops n (op :: ts) (.app op.value [arg] .none op.position) d.priority n'
  /-- An operator between its operands. -/
  | between {n n₁ n' : Nat} {op : Token} {ts us : List Token} {d : OpDef} {left right : Term}
      {p q : Int} (hleft : Derives ops n ts left p n₁) (hp : p ≤ d.leftMax)
      (hop : op.Between ops d) (hright : Derives ops n₁ us right q n') (hq : q ≤ d.rightMax) :
      Derives ops n (ts ++ op :: us) (.app d.symbol [left, right] .none op.position)
        d.priority n'

/-- The tokens spell the terms of a list, separated by commas. -/
inductive Arguments (ops : OpTable) : Nat → List Token → List Term → Nat → Prop where
  /-- The last one. -/
  | last {n n' : Nat} {ts : List Token} {t : Term} {p : Int} (ht : Derives ops n ts t p n')
      (hp : p ≤ 999) : Arguments ops n ts [t] n'
  /-- One in front of others. -/
  | more {n n₁ n' : Nat} {comma : Token} {ts us : List Token} {t : Term} {rest : List Term}
      {p : Int} (ht : Derives ops n ts t p n₁) (hp : p ≤ 999) (hcomma : comma.kind = .comma)
      (hrest : Arguments ops n₁ us rest n') :
      Arguments ops n (ts ++ comma :: us) (t :: rest) n'

end

/-- Every operator of the table has a priority of at least one. -/
def OpTable.Positive (ops : OpTable) : Prop :=
  ∀ s d, ops.between? s = some d ∨ ops.before? s = some d → 1 ≤ d.priority

/-- The standard operators have positive priorities. -/
theorem OpTable.positive_standard : OpTable.standard.Positive := by
  have hall : ∀ d ∈ OpTable.standard.between ++ OpTable.standard.before, 1 ≤ d.priority := by
    decide
  rintro s d (h | h)
  · exact hall d (List.mem_append_left _ (List.mem_of_find?_eq_some h))
  · exact hall d (List.mem_append_right _ (List.mem_of_find?_eq_some h))

/-- So has every infix operator of a table with positive priorities. -/
theorem OpTable.Positive.of_between {ops : OpTable} (h : ops.Positive) {t : Token} {d : OpDef}
    (ht : t.Between ops d) : 1 ≤ d.priority := by
  rcases ht with ⟨-, hd⟩ | ⟨-, hd⟩ <;> exact h _ d (.inl hd)

/-- Its right operand may have any priority up to one that is not negative. -/
theorem OpDef.rightMax_nonneg {d : OpDef} (h : 1 ≤ d.priority) : 0 ≤ d.rightMax := by
  unfold OpDef.rightMax
  split <;> omega

/-- No term binds tighter than a constant. -/
theorem Derives.priority_nonneg {ops : OpTable} (hops : ops.Positive) {n n' : Nat}
    {ts : List Token} {t : Term} {p : Int} (h : Derives ops n ts t p n') : 0 ≤ p := by
  cases h with
  | before hop hquoted hd => exact Int.le_trans (by decide) (hops _ _ (.inr hd))
  | between hleft hp hop => exact Int.le_trans (by decide) (hops.of_between hop)
  | _ => exact Int.le_refl 0

/-! ## §3. Reading actions. -/

namespace Cursor

/-- The tokens not yet consumed. -/
def tokens (c : Cursor) : List Token := c.current :: c.rest

/-- The tokens of a text are what the reader starts with. -/
theorem ofText_tokens (source : String) (anonymous : Nat) :
    (ofText source anonymous).tokens = (Lexer.ofText source).tokens.1 := by
  have hne : (Lexer.ofText source).tokens.1 ≠ [] := by
    intro h
    have hclosed := Lexer.tokens_closed (Lexer.ofText source)
    rw [h] at hclosed
    obtain ⟨t, ht, -⟩ := hclosed
    cases ht
  unfold ofText
  rcases hts : (Lexer.ofText source).tokens with ⟨_ | ⟨t, ts⟩, l⟩
  · rw [hts] at hne
    exact absurd rfl hne
  · rfl

/-- Going forward leaves the rest of the tokens. -/
theorem advance_tokens_suffix (c : Cursor) : c.advance.tokens <:+ c.tokens := by
  unfold advance
  split
  · exact List.suffix_refl _
  · next t ts h => exact ⟨[c.current], by simp [tokens, h]⟩

@[simp] theorem advance_anonymous (c : Cursor) : c.advance.anonymous = c.anonymous := by
  unfold advance
  split <;> rfl

/-- Unless the token looked at is the last one, stepping over it drops it alone. -/
theorem tokens_eq_advance {c : Cursor} (hc : ClosedTokens c.tokens)
    (h : c.current.isLast = false) : c.tokens = c.current :: c.advance.tokens := by
  unfold advance
  split
  · next hrest =>
    obtain ⟨t, ht, hlast⟩ := hc
    simp only [tokens, hrest, List.getLast?_singleton, Option.some.injEq] at ht
    rw [ht, hlast] at h
    cases h
  · next t ts hrest => simp [tokens, hrest]

end Cursor

/-- The cursor `c'` stands right behind the token that `c` looks at. -/
structure Cursor.Passes (c c' : Cursor) : Prop where
  /-- One token is gone. -/
  tokens : c.tokens = c.current :: c'.tokens
  /-- No name was given. -/
  anonymous : c'.anonymous = c.anonymous

/-- What follows an action that fails is not done. -/
theorem Reading.run_bind_error {α β : Type} {x : Reading α} {c c₁ : Cursor} {e : SyntaxError}
    (h : x.run.run c = (.error e, c₁)) (k : α → Reading β) :
    (x >>= k).run.run c = (.error e, c₁) := by
  simp only [ExceptT.run_bind, StateT.run_bind, h]
  rfl

/-- What follows an action starts where the action ends. -/
theorem Reading.run_bind_ok {α β : Type} {x : Reading α} {c c₁ : Cursor} {a : α}
    (h : x.run.run c = (.ok a, c₁)) (k : α → Reading β) :
    (x >>= k).run.run c = (k a).run.run c₁ := by
  simp only [ExceptT.run_bind, StateT.run_bind, h]
  rfl

/-- Begun at `c`, whose tokens are closed, the action leaves an end of the tokens, and a value that
    it yields has the property together with the cursor behind it. -/
def Reading.Reads {α : Type} (x : Reading α) (c : Cursor) (Q : α → Cursor → Prop) : Prop :=
  ClosedTokens c.tokens → (x.run.run c).2.tokens <:+ c.tokens ∧
    ∀ a, (x.run.run c).1 = .ok a → Q a (x.run.run c).2

namespace Reading.Reads

variable {α β : Type} {c : Cursor} {P : α → Cursor → Prop} {Q : β → Cursor → Prop}

protected theorem pure {a : α} (ha : P a c) : Reading.Reads (pure a) c P := by
  refine fun _ => ⟨List.suffix_refl _, fun b hb => ?_⟩
  obtain rfl : a = b := Except.ok.inj hb
  exact ha

protected theorem throw (e : SyntaxError) : Reading.Reads (throw e) c P :=
  fun _ => ⟨List.suffix_refl _, fun a ha => by cases ha⟩

protected theorem fail (fault : SyntaxFault) : Reading.Reads (Reading.fail fault) c P :=
  fun _ => ⟨List.suffix_refl _, fun a ha => by cases ha⟩

/-- The second action is begun where the first has ended. -/
protected theorem bind {x : Reading α} {k : α → Reading β} (hx : x.Reads c P)
    (hk : ∀ a c₁, P a c₁ → (k a).Reads c₁ Q) : (x >>= k).Reads c Q := by
  intro hc
  obtain ⟨hsuffix, hval⟩ := hx hc
  rcases hxc : x.run.run c with ⟨e | a, c₁⟩ <;> rw [hxc] at hsuffix hval
  · rw [run_bind_error hxc]
    exact ⟨hsuffix, fun b hb => by cases hb⟩
  · rw [run_bind_ok hxc]
    obtain ⟨hs, hv⟩ := hk a c₁ (hval a rfl) (hc.of_suffix hsuffix (List.cons_ne_nil _ _))
    exact ⟨hs.trans hsuffix, hv⟩

/-- Looking where the reader stands takes up nothing. -/
protected theorem get_bind {k : Cursor → Reading β} (h : (k c).Reads c Q) :
    Reading.Reads (get >>= k) c Q := h

/-- Looking at the token takes up nothing. -/
protected theorem current_bind {k : Token → Reading β} (h : (k c.current).Reads c Q) :
    Reading.Reads (Reading.current >>= k) c Q := h

protected theorem mono {x : Reading α} {P' : α → Cursor → Prop} (hx : x.Reads c P)
    (h : ∀ a c', P a c' → P' a c') : x.Reads c P' :=
  fun hc => (hx hc).imp_right fun hval a ha => h _ _ (hval a ha)

protected theorem ite {p : Prop} [Decidable p] {x y : Reading α} (hx : p → x.Reads c P)
    (hy : ¬ p → y.Reads c P) : Reading.Reads (if p then x else y) c P := by
  split
  · next h => exact hx h
  · next h => exact hy h

/-- Stepping over a token that is not the last one. -/
protected theorem advance (hlast : c.current.isLast = false) :
    Reading.Reads Reading.advance c (fun _ c₁ => c.Passes c₁) := fun hc =>
  ⟨c.advance_tokens_suffix, fun _ _ => ⟨Cursor.tokens_eq_advance hc hlast, c.advance_anonymous⟩⟩

/-- Consuming a token of a given kind. -/
protected theorem expect {kind : TokenKind} (hkind : kind ≠ .eof) (herror : kind ≠ .error) :
    Reading.Reads (Reading.expect kind) c (fun _ c₁ => c.current.kind = kind ∧ c.Passes c₁) := by
  refine Reading.Reads.current_bind (.ite (fun hk => ?_) fun _ => ?_)
  · have hlast : c.current.isLast = false := by simp [Token.isLast, hk, hkind, herror]
    exact fun hc => (Reading.Reads.advance hlast hc).imp_right fun h a ha => ⟨hk, h a ha⟩
  · split
    · exact .fail _
    · exact .get_bind (.throw _)
    · exact .fail _

end Reading.Reads

/-! ## §4. What the readers yield. -/

namespace Cursor

variable {ops : OpTable} {c c₁ c₂ c₃ c₄ c₅ : Cursor}

/-- The tokens between two cursors spell the term. -/
def Spans (ops : OpTable) (c : Cursor) (t : Term) (p : Int) (c' : Cursor) : Prop :=
  ∃ ts, c.tokens = ts ++ c'.tokens ∧ Derives ops c.anonymous ts t p c'.anonymous

/-- The tokens between two cursors spell a term of priority `max` at most. -/
def SpansWithin (ops : OpTable) (c : Cursor) (max : Int) (t : Term) (c' : Cursor) : Prop :=
  ∃ p, p ≤ max ∧ c.Spans ops t p c'

/-- The tokens between two cursors spell the terms of a list. -/
def SpansAll (ops : OpTable) (c : Cursor) (elements : List Term) (c' : Cursor) : Prop :=
  ∃ ts, c.tokens = ts ++ c'.tokens ∧ Arguments ops c.anonymous ts elements c'.anonymous

/-- A single token is a derivation. -/
theorem Passes.constant {t : Term} (h : c.Passes c₁)
    (ht : Derives ops c.anonymous [c.current] t 0 c.anonymous) : c.Spans ops t 0 c₁ :=
  ⟨[c.current], h.tokens, by rwa [h.anonymous]⟩

theorem Passes.parens {t : Term} (hleft : c.Passes c₁) (hopen : c.current.kind = .parenOpen)
    (ht : c₁.SpansWithin ops 1200 t c₂) (hclose : c₂.current.kind = .parenClose)
    (hright : c₂.Passes c₃) : c.Spans ops t 0 c₃ := by
  obtain ⟨p, hp, ts, htokens, hder⟩ := ht
  refine ⟨c.current :: (ts ++ [c₂.current]), ?_, ?_⟩
  · rw [hleft.tokens, htokens, hright.tokens]
    simp
  · rw [hleft.anonymous] at hder
    rw [hright.anonymous]
    exact .parens hopen hder hp hclose

/-- A name and arguments in parentheses. -/
theorem Passes.compound {args : List Term} (hname : c.Passes c₁) (hkind : c.current.kind = .name)
    (hleft : c₁.Passes c₂) (hopen : c₁.current.kind = .parenOpen)
    (hlayout : c₁.current.layout = false) (hargs : c₂.SpansAll ops args c₃)
    (hclose : c₃.current.kind = .parenClose) (hright : c₃.Passes c₄) :
    c.Spans ops (.app c.current.value args .none c.current.position) 0 c₄ := by
  obtain ⟨ts, htokens, hder⟩ := hargs
  refine ⟨c.current :: c₁.current :: (ts ++ [c₃.current]), ?_, ?_⟩
  · rw [hname.tokens, hleft.tokens, htokens, hright.tokens]
    simp
  · rw [hleft.anonymous, hname.anonymous] at hder
    rw [hright.anonymous]
    exact .compound hkind hopen hlayout hder hclose

theorem Passes.nil (hleft : c.Passes c₁) (hopen : c.current.kind = .bracketOpen)
    (hright : c₁.Passes c₂) (hclose : c₁.current.kind = .bracketClose) :
    c.Spans ops (.const .nil (-1)) 0 c₂ := by
  refine ⟨[c.current, c₁.current], ?_, ?_⟩
  · rw [hleft.tokens, hright.tokens]
    rfl
  · rw [hright.anonymous, hleft.anonymous]
    exact .nil hopen hclose

theorem Passes.list {elements : List Term} (hleft : c.Passes c₁)
    (hopen : c.current.kind = .bracketOpen) (helements : c₁.SpansAll ops elements c₂)
    (hclose : c₂.current.kind = .bracketClose) (hright : c₂.Passes c₃) :
    c.Spans ops (Term.ofList elements (.const .nil (-1))) 0 c₃ := by
  obtain ⟨ts, htokens, hder⟩ := helements
  refine ⟨c.current :: (ts ++ [c₂.current]), ?_, ?_⟩
  · rw [hleft.tokens, htokens, hright.tokens]
    simp
  · rw [hleft.anonymous] at hder
    rw [hright.anonymous]
    exact .list hopen hder hclose

theorem Passes.partialList {elements : List Term} {tail : Term} (hleft : c.Passes c₁)
    (hopen : c.current.kind = .bracketOpen) (helements : c₁.SpansAll ops elements c₂)
    (hbar : c₂.current.kind = .bar) (hpass : c₂.Passes c₃)
    (htail : c₃.SpansWithin ops 999 tail c₄) (hclose : c₄.current.kind = .bracketClose)
    (hright : c₄.Passes c₅) : c.Spans ops (Term.ofList elements tail) 0 c₅ := by
  obtain ⟨ts, htokens, hder⟩ := helements
  obtain ⟨p, hp, us, htail, hdertail⟩ := htail
  refine ⟨c.current :: (ts ++ c₂.current :: (us ++ [c₄.current])), ?_, ?_⟩
  · rw [hleft.tokens, htokens, hpass.tokens, htail, hright.tokens]
    simp
  · rw [hleft.anonymous] at hder
    rw [hpass.anonymous] at hdertail
    rw [hright.anonymous]
    exact .partialList hopen hder hbar hdertail hp hclose

/-- A prefix operator and its operand. -/
theorem Passes.before {d : OpDef} {arg : Term} (hop : c.Passes c₁)
    (hkind : c.current.kind = .name) (hquoted : c.current.quoted = false)
    (hd : ops.before? c.current.value = some d) (harg : c₁.SpansWithin ops d.rightMax arg c₂) :
    c.Spans ops (.app c.current.value [arg] .none c.current.position) d.priority c₂ := by
  obtain ⟨p, hp, ts, htokens, hder⟩ := harg
  refine ⟨c.current :: ts, ?_, ?_⟩
  · rw [hop.tokens, htokens]
    rfl
  · rw [hop.anonymous] at hder
    exact .before hkind hquoted hd hder hp

/-- An infix operator between its operands. -/
theorem Spans.between {d : OpDef} {left right : Term} {p : Int} (hleft : c.Spans ops left p c₁)
    (hp : p ≤ d.leftMax) (hop : c₁.current.Between ops d) (hpass : c₁.Passes c₂)
    (hright : c₂.SpansWithin ops d.rightMax right c₃) :
    c.Spans ops (.app d.symbol [left, right] .none c₁.current.position) d.priority c₃ := by
  obtain ⟨ts, htokens, hder⟩ := hleft
  obtain ⟨q, hq, us, hright, hderright⟩ := hright
  refine ⟨ts ++ c₁.current :: us, ?_, ?_⟩
  · rw [htokens, hpass.tokens, hright]
    simp
  · rw [hpass.anonymous] at hderright
    exact .between hder hp hop hderright hq

theorem SpansWithin.last {t : Term} (h : c.SpansWithin ops 999 t c₁) : c.SpansAll ops [t] c₁ := by
  obtain ⟨p, hp, ts, htokens, hder⟩ := h
  exact ⟨ts, htokens, .last hder hp⟩

/-- An argument in front of others. -/
theorem SpansWithin.more {t : Term} {rest : List Term} (h : c.SpansWithin ops 999 t c₁)
    (hcomma : c₁.current.kind = .comma) (hpass : c₁.Passes c₂) (hrest : c₂.SpansAll ops rest c₃) :
    c.SpansAll ops (t :: rest) c₃ := by
  obtain ⟨p, hp, ts, htokens, hder⟩ := h
  obtain ⟨us, hrest, hderrest⟩ := hrest
  refine ⟨ts ++ c₁.current :: us, ?_, ?_⟩
  · rw [htokens, hpass.tokens, hrest]
    simp
  · rw [hpass.anonymous] at hderrest
    exact .more hder hp hcomma hderrest

end Cursor

open Reading

/-- A number is read from its text, with the sign that stands in front. -/
theorem numberTerm_reads {t : Token} {negative : Bool} {c : Cursor} :
    (numberTerm t negative).Reads c (fun a c₁ => c₁ = c ∧ ∃ x, Number.read t.value.toList = .ok x ∧
      a = .const (.number (if negative then -x else x)) t.position) := by
  unfold numberTerm
  split
  · next x hx => exact .pure ⟨rfl, x, hx, rfl⟩
  · exact .throw _

/-- A variable is read from its name; an anonymous one gets the next number. -/
theorem variableTerm_reads {ops : OpTable} {c c₁ : Cursor} (hpass : c.Passes c₁)
    (hk : c.current.kind = .variable) :
    (variableTerm c.current).Reads c₁ (fun t c₂ => c.Spans ops t 0 c₂) := by
  refine .ite (fun hv => ?_) fun hv => .pure (hpass.constant (.variable hk hv))
  refine fun _ => ⟨List.suffix_refl _, fun t ht => ?_⟩
  obtain rfl := Except.ok.inj ht
  refine ⟨[c.current], hpass.tokens, ?_⟩
  rw [← hpass.anonymous]
  exact .anonymous hk hv

/-- The text of an operator between its operands is its symbol; a comma that is none has a
    priority that no left operand meets. -/
theorem Grammar.between?_some {g : Grammar} {t : Token} {d : OpDef} (h : g.between? t = some d) :
    t.Between g.operators d ∨ d.leftMax < 0 := by
  unfold Grammar.between? at h
  split at h
  · next hk =>
    cases hcomma : g.operators.between? "," with
    | none =>
      rw [hcomma] at h
      obtain rfl := Option.some.inj h
      exact .inr (by decide)
    | some e =>
      rw [hcomma] at h
      obtain rfl : e = d := Option.some.inj h
      exact .inl (.inr ⟨hk, hcomma⟩)
  · next hk => exact .inl (.inl ⟨hk, h⟩)
  · cases h

namespace Grammar

variable {g : Grammar} {n : Nat}

/-- What the four readers yield with a given count. -/
structure ReadsDerived (g : Grammar) (n : Nat) : Prop where
  /-- A term has its bound. -/
  term : ∀ max depth c, 0 ≤ max →
    (g.term n max depth).Reads c (fun t c' => c.SpansWithin g.operators max t c')
  /-- Behind a left operand the tokens of the operand are part of those of the term. -/
  climb : ∀ (c₀ c : Cursor) left priority max depth, c₀.Spans g.operators left priority c →
    priority ≤ max → (g.climb n left priority max depth).Reads c
      (fun t c' => c₀.SpansWithin g.operators max t c')
  /-- An operand has the priority that comes with it. -/
  operand : ∀ max depth c, 0 ≤ max → (g.operand n max depth).Reads c
    (fun r c' => r.2 ≤ max ∧ c.Spans g.operators r.1 r.2 c')
  /-- Arguments. -/
  elements : ∀ depth c, (g.elements n depth).Reads c (fun ts c' => c.SpansAll g.operators ts c')

/-- Behind an operand the reader goes on with infix operators, and stays within the priority. -/
theorem climb_reads (hops : g.operators.Positive) (ih : g.ReadsDerived n) {c₀ c : Cursor}
    {left : Term} {priority max : Int} (depth : Int)
    (hleft : c₀.Spans g.operators left priority c) (hmax : priority ≤ max) :
    (g.climb (n + 1) left priority max depth).Reads c
      (fun t c' => c₀.SpansWithin g.operators max t c') := by
  refine .current_bind ?_
  split
  · exact .pure ⟨priority, hmax, hleft⟩
  next d hd =>
  -- An operator above the bound ends the climb, and one that does not allow its left operand is a clash.
  refine .ite (fun _ => .pure ⟨priority, hmax, hleft⟩) fun hbound =>
    .ite (fun _ => .fail _) fun hmeets => ?_
  have hnonneg : 0 ≤ priority := hleft.elim fun ts h => h.2.priority_nonneg hops
  have hop : c.current.Between g.operators d := by
    rcases between?_some hd with hop | hcomma
    · exact hop
    · omega
  have hlast : c.current.isLast = false := by
    rcases hop with ⟨hk, -⟩ | ⟨hk, -⟩ <;> simp [Token.isLast, hk]
  -- The operator and its right operand join what has been read, and the climb goes on.
  refine (Reads.advance hlast).bind fun _ c₁ hpass => ?_
  refine (ih.term _ _ c₁ (OpDef.rightMax_nonneg (hops.of_between hop))).bind
    fun right c₂ hright => ?_
  exact ih.climb c₀ c₂ _ _ _ _ (hleft.between (by omega) hop hpass hright) (by omega)

/-- A list behind its opening bracket. -/
theorem list_reads (ih : g.ReadsDerived n) (depth : Int) {c c₁ : Cursor} (hleft : c.Passes c₁)
    (hopen : c.current.kind = .bracketOpen) :
    Reading.Reads (do
      let elements ← g.elements n depth
      let tail ← if (← current).kind = .bar then do
          advance
          g.term n 999 (depth + 1)
        else pure (.const .nil (-1))
      expect .bracketClose
      return (Term.ofList elements tail, (0 : Int))) c₁
      (fun r c' => r.2 = 0 ∧ c.Spans g.operators r.1 0 c') := by
  refine (ih.elements depth c₁).bind fun elements c₂ helements => .current_bind (.ite ?_ ?_)
  -- A bar is followed by the tail, and otherwise the tail is the empty list.
  · intro hbar
    refine (Reads.advance (by simp [Token.isLast, hbar])).bind fun _ c₃ hpass => ?_
    refine (ih.term _ _ c₃ (by decide)).bind fun tail c₄ htail => ?_
    refine (Reads.expect (by decide) (by decide)).bind fun _ c₅ hright => ?_
    exact .pure ⟨rfl, hleft.partialList hopen helements hbar hpass htail hright.1 hright.2⟩
  · intro _
    refine Reads.bind (P := fun tail c' => tail = .const .nil (-1) ∧ c' = c₂) (.pure ⟨rfl, rfl⟩) ?_
    rintro _ _ ⟨rfl, rfl⟩
    refine (Reads.expect (by decide) (by decide)).bind fun _ c₃ hright => ?_
    exact .pure ⟨rfl, hleft.list hopen helements hright.1 hright.2⟩

/-- An operand that starts with a name. -/
theorem named_reads (hops : g.operators.Positive) (ih : g.ReadsDerived n) {max : Int}
    (depth : Int) (hmax : 0 ≤ max) {c c₁ : Cursor} (hname : c.Passes c₁)
    (hkind : c.current.kind = .name) :
    Reading.Reads (do
      let next ← current
      if next.kind = .parenOpen && !next.layout then do
        advance
        let args ← g.elements n depth
        expect .parenClose
        return (Term.app c.current.value args .none c.current.position, (0 : Int))
      else if c.current.quoted then return (c.current.atom, 0)
      else if c.current.value = "-" && next.kind = .number && !next.layout then do
        advance
        return (← numberTerm next true, 0)
      else match g.operators.before? c.current.value with
        | some d =>
          if d.priority ≤ max && g.startsTerm next then do
            let arg ← g.term n d.rightMax (depth + 1)
            return (.app c.current.value [arg] .none c.current.position, d.priority)
          else return (c.current.atom, 0)
        | none => return (c.current.atom, 0)) c₁
      (fun r c' => r.2 ≤ max ∧ c.Spans g.operators r.1 r.2 c') := by
  have hatom : c.Spans g.operators c.current.atom 0 c₁ := hname.constant (.name hkind)
  -- The cases are those of the reader: a compound, a quoted atom, a negative number, a prefix operator.
  refine .current_bind (.ite ?_ fun _ => .ite (fun _ => .pure ⟨hmax, hatom⟩) fun hquoted =>
    .ite ?_ fun _ => ?_)
  · intro h
    obtain ⟨hopen, hlayout⟩ : c₁.current.kind = .parenOpen ∧ c₁.current.layout = false := by
      simpa using h
    refine (Reads.advance (by simp [Token.isLast, hopen])).bind fun _ c₂ hleft => ?_
    refine (ih.elements _ c₂).bind fun args c₃ hargs => ?_
    refine (Reads.expect (by decide) (by decide)).bind fun _ c₄ hright => ?_
    exact .pure ⟨hmax, hname.compound hkind hleft hopen hlayout hargs hright.1 hright.2⟩
  · intro h
    obtain ⟨⟨hvalue, hnumber⟩, hlayout⟩ : (c.current.value = "-" ∧ c₁.current.kind = .number) ∧
        c₁.current.layout = false := by
      simpa using h
    refine (Reads.advance (by simp [Token.isLast, hnumber])).bind fun _ c₂ hpass => ?_
    refine numberTerm_reads.bind ?_
    rintro _ _ ⟨rfl, x, hread, rfl⟩
    refine .pure ⟨hmax, [c.current, c₁.current], ?_, ?_⟩
    · rw [hname.tokens, hpass.tokens]
      rfl
    · rw [hpass.anonymous, hname.anonymous]
      exact .negative hkind hvalue (by simpa using hquoted) hnumber hlayout hread
  · split
    · next d hd =>
      refine .ite (fun h => ?_) fun _ => .pure ⟨hmax, hatom⟩
      have hbound : d.priority ≤ max := by simp_all
      refine (ih.term _ _ c₁ (OpDef.rightMax_nonneg (hops _ _ (.inr hd)))).bind
        fun arg c₂ harg => ?_
      exact .pure ⟨hbound, hname.before hkind (by simpa using hquoted) hd harg⟩
    · exact .pure ⟨hmax, hatom⟩

/-- An operand is read as the grammar derives it. -/
theorem operand_reads (hops : g.operators.Positive) (ih : g.ReadsDerived n) {max : Int}
    (depth : Int) (hmax : 0 ≤ max) (c : Cursor) :
    (g.operand (n + 1) max depth).Reads c
      (fun r c' => r.2 ≤ max ∧ c.Spans g.operators r.1 r.2 c') := by
  -- The cases are the kinds of tokens.
  refine .ite (fun _ => .fail _) fun _ => .current_bind ?_
  split
  · exact .fail _
  · exact .get_bind (.throw _)
  · next hk =>
    refine (Reads.advance (by simp [Token.isLast, hk])).bind fun _ c₁ hpass => ?_
    refine numberTerm_reads.bind ?_
    rintro _ _ ⟨rfl, x, hread, rfl⟩
    exact .pure ⟨hmax, hpass.constant (.number hk hread)⟩
  · next hk =>
    refine (Reads.advance (by simp [Token.isLast, hk])).bind fun _ c₁ hpass => ?_
    refine (variableTerm_reads hpass hk).bind fun t c₂ ht => .pure ⟨hmax, ht⟩
  · next hk =>
    refine (Reads.advance (by simp [Token.isLast, hk])).bind fun _ c₁ hpass => ?_
    exact .pure ⟨hmax, hpass.constant (.string hk)⟩
  · next hk =>
    refine (Reads.advance (by simp [Token.isLast, hk])).bind fun _ c₁ hleft => ?_
    refine (ih.term _ _ c₁ (by decide)).bind fun t c₂ ht => ?_
    refine (Reads.expect (by decide) (by decide)).bind fun _ c₃ hright => ?_
    exact .pure ⟨hmax, hleft.parens hk ht hright.1 hright.2⟩
  · next hk =>
    refine (Reads.advance (by simp [Token.isLast, hk])).bind fun _ c₁ hleft => .current_bind ?_
    refine .ite (fun hclose => ?_) fun _ => ?_
    · refine (Reads.advance (by simp [Token.isLast, hclose])).bind fun _ c₂ hright => ?_
      exact .pure ⟨hmax, hleft.nil hk hright hclose⟩
    · exact (list_reads ih depth hleft hk).mono fun r c' h => ⟨by omega, by rw [h.1]; exact h.2⟩
  · next hk =>
    refine (Reads.advance (by simp [Token.isLast, hk])).bind fun _ c₁ hname => ?_
    exact named_reads hops ih depth hmax hname hk
  · exact .fail _

/-- **Whatever the count, what the four readers yield has a derivation.** -/
theorem readsDerived (hops : g.operators.Positive) (n : Nat) : g.ReadsDerived n := by
  induction n with
  | zero =>
    exact ⟨fun _ _ _ _ => .fail _, fun _ _ _ _ _ _ _ _ => .fail _, fun _ _ _ _ => .fail _,
      fun _ _ => .fail _⟩
  | succ n ih =>
    refine ⟨fun max depth c hmax => ?_, fun _ _ _ _ _ d h hp => climb_reads hops ih d h hp,
      fun _ d c h => operand_reads hops ih d h c, fun depth c => ?_⟩
    · exact (ih.operand max depth c hmax).bind fun r c₁ hr => ih.climb c c₁ _ _ _ _ hr.2 hr.1
    · refine (ih.term _ _ c (by decide)).bind fun first c₁ hfirst => .current_bind (.ite ?_ ?_)
      · intro hcomma
        refine (Reads.advance (by simp [Token.isLast, hcomma])).bind fun _ c₂ hpass => ?_
        exact (ih.elements depth c₂).bind fun rest c₃ hrest =>
          .pure (hfirst.more hcomma hpass hrest)
      · exact fun _ => .pure hfirst.last

/-- A clause is a term of priority 1200 at most, with a full stop behind it. -/
theorem clause_reads (hops : g.operators.Positive) (c : Cursor) :
    g.clause.Reads c (fun t c' => ∃ c₁, c.SpansWithin g.operators 1200 t c₁ ∧
      c₁.current.kind = .stop ∧ c₁.Passes c') := by
  refine .get_bind ?_
  split
  · exact .throw _
  · exact .fail _
  · refine ((readsDerived hops _).term _ _ c (by decide)).bind fun t c₁ ht => ?_
    refine (Reads.expect (by decide) (by decide)).bind fun _ c₂ hstop => ?_
    exact .pure ⟨c₁, ht, hstop.1, hstop.2⟩

end Grammar

/-! ## §5. Clauses. -/

namespace Cursor

/-- The cursor behind `k` attempts to read a clause of the text, whether they fail or not. -/
def behind (g : Grammar) (source : String) (anonymous k : Nat) : Cursor :=
  (fun c => (c.next g).2)^[k] (ofText source anonymous)

/-- So is the next clause of a text, after its shape was seen to. -/
theorem next_reads {g : Grammar} (hops : g.operators.Positive) {c : Cursor}
    (hc : ClosedTokens c.tokens) : (c.next g).2.tokens <:+ c.tokens ∧
      ∀ t, (c.next g).1 = .ok t → ∃ raw c₁, c.SpansWithin g.operators 1200 raw c₁ ∧
        c₁.current.kind = .stop ∧ c₁.Passes (c.next g).2 ∧ t = raw.shape := by
  obtain ⟨hsuffix, hval⟩ := g.clause_reads hops c hc
  refine ⟨hsuffix, fun t ht => ?_⟩
  cases h : (g.clause.run.run c).1 with
  | error e =>
    have : (c.next g).1 = .error e := congrArg (Except.map Term.shape) h
    rw [this] at ht
    cases ht
  | ok raw =>
    have : (c.next g).1 = .ok raw.shape := congrArg (Except.map Term.shape) h
    rw [this] at ht
    obtain ⟨c₁, hspans, hstop, hpass⟩ := hval raw h
    exact ⟨raw, c₁, hspans, hstop, hpass, (Except.ok.inj ht).symm⟩

/-- Reading leaves an end of the tokens of the text. -/
theorem behind_tokens_suffix {g : Grammar} (hops : g.operators.Positive) (source : String)
    (anonymous k : Nat) :
    (behind g source anonymous k).tokens <:+ (Lexer.ofText source).tokens.1 := by
  induction k with
  | zero => exact ⟨[], ofText_tokens source anonymous⟩
  | succ k ih =>
    rw [behind, Function.iterate_succ_apply']
    exact (next_reads hops ((Lexer.tokens_closed _).of_suffix ih (List.cons_ne_nil _ _))).1.trans
      ih

/-- **A clause that is read is derived from its tokens.**  Wherever in a text a clause is read, the
    tokens of the text fall into those before it, those that spell it at priority 1200 at most, its
    full stop and those left to be read. -/
theorem next_derives (g : Grammar) (hops : g.operators.Positive) (source : String)
    (anonymous k : Nat) {t : Term} {c : Cursor}
    (h : (behind g source anonymous k).next g = (.ok t, c)) :
    ∃ before ts stop raw p,
      (Lexer.ofText source).tokens.1 = before ++ (behind g source anonymous k).tokens ∧
      (behind g source anonymous k).tokens = ts ++ stop :: c.tokens ∧ stop.kind = .stop ∧
      Derives g.operators (behind g source anonymous k).anonymous ts raw p c.anonymous ∧
      p ≤ 1200 ∧ t = raw.shape := by
  obtain ⟨before, hbefore⟩ := behind_tokens_suffix hops source anonymous k
  have hc : ClosedTokens (behind g source anonymous k).tokens :=
    (Lexer.tokens_closed _).of_suffix ⟨before, hbefore⟩ (List.cons_ne_nil _ _)
  obtain ⟨raw, c₁, ⟨p, hp, ts, htokens, hder⟩, hstop, hpass, ht⟩ :=
    (next_reads hops hc).2 t (by rw [h])
  rw [h] at hpass
  refine ⟨before, ts, c₁.current, raw, p, hbefore.symm, ?_, hstop, ?_, hp, ht⟩
  · rw [htokens, hpass.tokens]
  · rw [hpass.anonymous]
    exact hder

/-- The second clause of a text mixes operators before and between operands, a compound and a
    list with a tail. -/
theorem next_derives_second : ∃ c₀ c before ts stop raw p,
    c₀ = behind {} "a. p :- \\+ q(X), r ; [X|_] = Y." 0 1 ∧
    c₀.next {} = (.ok (.app "rule" [.const (.atom "p") 3,
      .app "disj" [
        .app "conj" [.app "not" [.app "q" [.var "X" 0] .none 11] .none 8,
          .const (.atom "r") 17] .none 15,
        .app "unif" [Term.cons (.var "X" 0) (.var (anonymousName 1) 0), .var "Y" 0] .builtin 27]
        .none 19] .none 5), c) ∧
    (Lexer.ofText "a. p :- \\+ q(X), r ; [X|_] = Y.").tokens.1 = before ++ c₀.tokens ∧
    c₀.tokens = ts ++ stop :: c.tokens ∧ stop.kind = .stop ∧
    Derives .standard c₀.anonymous ts raw p c.anonymous ∧ p ≤ 1200 := by
  have hresult : ((behind {} "a. p :- \\+ q(X), r ; [X|_] = Y." 0 1).next {}).1 = .ok
      (.app "rule" [.const (.atom "p") 3,
        .app "disj" [
          .app "conj" [.app "not" [.app "q" [.var "X" 0] .none 11] .none 8,
            .const (.atom "r") 17] .none 15,
          .app "unif" [Term.cons (.var "X" 0) (.var (anonymousName 1) 0), .var "Y" 0] .builtin 27]
          .none 19] .none 5) := by
    with_unfolding_all rfl
  have hnext := Prod.ext hresult
    (Eq.refl ((behind {} "a. p :- \\+ q(X), r ; [X|_] = Y." 0 1).next {}).2)
  obtain ⟨before, ts, stop, raw, p, htext, htokens, hstop, hder, hp, -⟩ :=
    next_derives {} OpTable.positive_standard _ 0 1 hnext
  exact ⟨_, _, before, ts, stop, raw, p, rfl, hnext, htext, htokens, hstop, hder, hp⟩

end Cursor

end PrologMachine
