/-
  PrologMachine.Proofs.Reading.Pieces ── **PROGRAMS READ PIECE BY PIECE.**

  A text that is part of a longer one is read there as it is by itself: its terms come out at
  other places and with other numbers for their anonymous variables.  Two readings run side by
  side, one over the tokens of the part, one over those of the whole, until the part ends.  Only
  then can they differ, and only by what the first one does at its last token.

    * `Term.restate`: a term with other names, places and marks.
    * `Piece`: how a text lies in a longer one; `Cursor.Tracks`: how far both have been read.
    * `Grammar.follows`: the two readings agree, reader by reader.
    * `readProgram_pieces`: a program in two pieces.
    * `readProgram_definite`: which errors no further text can mend.
-/
import PrologMachine.Proofs.Reading.Count

namespace PrologMachine

/-! ## §1. The same term elsewhere. -/

mutual

/-- The term with other names, places and marks. -/
def Term.restate (name : String → String) (place : Int → Int) (marks : Attrs → Attrs) : Term → Term
  | .var x id => .var (name x) id
  | .const a pos => .const a (place pos)
  | .app f args attrs pos =>
    .app f (Term.restates name place marks args) (marks attrs) (place pos)
  | .absent => .absent

/-- Every term of a list with other names, places and marks. -/
def Term.restates (name : String → String) (place : Int → Int) (marks : Attrs → Attrs) :
    List Term → List Term
  | [] => []
  | t :: ts => t.restate name place marks :: Term.restates name place marks ts

end

/-- A place in a text that is moved; one that stands nowhere stays there. -/
def placed (d : Nat) (p : Int) : Int := if p < 0 then p else p + d

@[simp] theorem placed_natCast (d n : Nat) : placed d n = ((n + d : Nat) : Int) := by
  rw [placed, if_neg (by omega)]
  rfl

@[simp] theorem placed_zero : placed 0 = id := by
  funext p
  simp [placed]

/-- The number in the name of an anonymous variable. -/
def anonymousNumber (name : String) : Nat := Nat.ofDigitChars 10 (name.toList.drop 2) 0

/-- The names of anonymous variables numbered on from `m'` where they were from `m`. -/
def renumber (m m' : Nat) (name : String) : String :=
  if isAnonymous name then anonymousName (anonymousNumber name + m' - m) else name

/-- The names that the reader makes up are anonymous. -/
theorem isAnonymous_anonymousName (n : Nat) : isAnonymous (anonymousName n) = true := by
  simp [isAnonymous, anonymousName, anonymousLead, List.isPrefixOf]

/-- They tell their numbers. -/
theorem anonymousNumber_anonymousName (n : Nat) : anonymousNumber (anonymousName n) = n := by
  simp [anonymousNumber, anonymousName, anonymousLead, Nat.ofDigitChars_ten_toDigits]

/-- Renumbering moves them by as much as the count has moved. -/
theorem renumber_anonymousName (m m' i : Nat) :
    renumber m m' (anonymousName (m + i)) = anonymousName (m' + i) := by
  rw [renumber, if_pos (isAnonymous_anonymousName _), anonymousNumber_anonymousName]
  congr 1
  omega

section Restating

variable {name : String → String} {place : Int → Int} {marks : Attrs → Attrs}

/-- The arguments of a compound are restated one by one. -/
theorem Term.restates_eq_map (ts : List Term) :
    Term.restates name place marks ts = ts.map (Term.restate name place marks) := by
  induction ts with
  | nil => rfl
  | cons t ts ih => rw [Term.restates, ih]; rfl

/-- A list is restated element by element. -/
theorem Term.restate_ofList (hplace : place (-1) = -1) (hmarks : marks .none = .none)
    (ts : List Term) (tail : Term) : (Term.ofList ts tail).restate name place marks =
      Term.ofList (ts.map (Term.restate name place marks)) (tail.restate name place marks) := by
  induction ts with
  | nil => rfl
  | cons t ts ih =>
    simp only [Term.ofList, List.foldr_cons, List.map_cons] at ih ⊢
    rw [← ih, Term.cons, Term.restate, hplace, hmarks]
    rfl

mutual

/-- Nothing changes where names, places and marks stay. -/
theorem Term.restate_id (t : Term) : t.restate id id id = t := by
  cases t with
  | app f args attrs pos => rw [Term.restate, Term.restates_id args]; rfl
  | _ => rfl

theorem Term.restates_id (ts : List Term) : Term.restates id id id ts = ts := by
  cases ts with
  | nil => rfl
  | cons t ts => rw [Term.restates, Term.restate_id t, Term.restates_id ts]

end

mutual

/-- Shaping looks at names of compounds only. -/
theorem Term.shape_restate (t : Term) :
    (t.restate name place id).shape = t.shape.restate name place id := by
  cases t with
  | app f args attrs pos =>
    have hargs := Term.shapes_restates args
    have hlength : (Term.restates name place id args).length = args.length := by
      rw [Term.restates_eq_map, List.length_map]
    simp only [Term.restate, Term.shape, hlength, hargs]
    split <;> rfl
  | _ => rfl

/-- Shaping a list of terms looks at names of compounds only. -/
theorem Term.shapes_restates (ts : List Term) :
    Term.shapes (Term.restates name place id ts) =
      Term.restates name place id (Term.shapes ts) := by
  cases ts with
  | nil => rfl
  | cons t ts =>
    rw [Term.restates, Term.shapes, Term.shapes, Term.restates, Term.shape_restate t,
      Term.shapes_restates ts]

end

end Restating

/-! ## §2. A text in a longer one. -/

/-- How a text lies in a longer one. -/
structure Piece where
  /-- Where it begins there. -/
  offset : Nat
  /-- What its variables are called there. -/
  rename : String → String
  /-- The number of its last anonymous variable before it is read, -/
  named : Nat
  /-- and there. -/
  named' : Nat
  /-- Its last token, and the tokens that stand in its place there; none when both texts end
      together. -/
  goesOn : Option (Token × List Token)
  /-- Its fault, -/
  fault : Option SyntaxError
  /-- and the fault there. -/
  fault' : Option SyntaxError

namespace Piece

variable (p : Piece)

/-- The parts fit together. -/
structure Fits : Prop where
  /-- Variables with a name keep it. -/
  plain : ∀ x, isAnonymous x = false → p.rename x = x
  /-- Those without are numbered on. -/
  anonymous : ∀ i, p.rename (anonymousName (p.named + i)) = anonymousName (p.named' + i)
  /-- Texts that end together have the same fault. -/
  whole : p.goesOn = none → p.fault' = p.fault.map (SyntaxError.moved p.offset)
  /-- The last token of the piece is the last one of a text, and something stands in its place. -/
  last : ∀ t ts, p.goesOn = some (t, ts) → t.isLast = true ∧ ts ≠ []

/-- A term of the piece as it is read in the longer text. -/
def term (t : Term) : Term := t.restate p.rename (placed p.offset) id

/-- The tokens are the same but for their places; of the layout before them nothing is said. -/
structure Alike (t t' : Token) : Prop where
  kind : t'.kind = t.kind
  value : t'.value = t.value
  quoted : t'.quoted = t.quoted
  position : t'.position = t.position + p.offset
  /-- A variable that is written is not named like an anonymous one. -/
  named : t.kind = .variable → isAnonymous t.value = false
  /-- The last token of the piece is left out where the longer text goes on. -/
  inner : t.isLast = true → p.goesOn = none

/-- The tokens of the piece from some place on, and those of the longer text from there on. -/
inductive Goes : List Token → List Token → Prop where
  /-- Both texts end. -/
  | whole (h : p.goesOn = none) : Goes [] []
  /-- The piece ends. -/
  | ended {last : Token} {ts : List Token} (h : p.goesOn = some (last, ts)) : Goes [last] ts
  /-- A token of both. -/
  | token {t : Token} {ts ts' : List Token} (halike : p.Alike t (t.moved p.offset))
      (hrest : Goes ts ts') : Goes (t :: ts) (t.moved p.offset :: ts')

/-- The piece has been read up to its last token, while the longer text goes on. -/
def Ended (c : Cursor) : Prop :=
  (∃ ts, p.goesOn = some (c.current, ts)) ∧ c.fault = p.fault

/-- What can go wrong at the last token of the piece and need not go wrong in the longer text: the
    end of the text, the fault of its last token, and terms nested too deep there. -/
def Broken (e : SyntaxError) : Prop :=
  ∃ last ts, p.goesOn = some (last, ts) ∧ (e.incomplete = true ∨ p.fault = some e ∨
    e = ⟨.tooDeep, last.position, last.value⟩)

end Piece

/-- Both readings have come equally far: to the same token, or to the last one of the piece. -/
structure Cursor.Tracks (p : Piece) (c c' : Cursor) : Prop where
  /-- The tokens left; of the first one the layout may differ. -/
  tokens : p.Goes c.tokens c'.tokens ∨ p.Alike c.current c'.current ∧ p.Goes c.rest c'.rest
  /-- As many anonymous variables were named by both. -/
  anonymous : ∃ i, c.anonymous = p.named + i ∧ c'.anonymous = p.named' + i
  /-- The fault of the piece. -/
  fault : c.fault = p.fault
  /-- The fault of the longer text. -/
  fault' : c'.fault = p.fault'
  /-- The tokens end. -/
  closed : ClosedTokens c.tokens

namespace Piece

variable {p : Piece}

/-- What stands first: the last token of the piece, or a token of both texts. -/
theorem Goes.cons_inv {t : Token} {ts us : List Token} (h : p.Goes (t :: ts) us) :
    p.goesOn = some (t, us) ∨
      ∃ ts', us = t.moved p.offset :: ts' ∧ p.Alike t (t.moved p.offset) ∧ p.Goes ts ts' := by
  cases h with
  | ended h => exact .inl h
  | token halike hrest => exact .inr ⟨_, rfl, halike, hrest⟩

/-- Where the piece has tokens left, so has the longer text. -/
theorem Goes.ne_nil (hfits : p.Fits) {ts us : List Token} (h : p.Goes ts us) (hts : ts ≠ []) :
    us ≠ [] := by
  cases h with
  | whole => exact absurd rfl hts
  | ended h => exact (hfits.last _ _ h).2
  | token => exact List.cons_ne_nil _ _

/-- The longer text has as many tokens left at least. -/
theorem Goes.length_le (hfits : p.Fits) {ts us : List Token} (h : p.Goes ts us) :
    ts.length ≤ us.length := by
  induction h with
  | whole => exact Nat.le_refl _
  | ended h => exact List.length_pos_iff.2 (hfits.last _ _ h).2
  | token _ _ ih => exact Nat.succ_le_succ ih

end Piece

/-- Going forward takes the token that is looked at. -/
theorem Cursor.advance_tokens {c : Cursor} (h : c.rest ≠ []) : c.advance.tokens = c.rest := by
  unfold advance
  split
  · next hnil => exact absurd hnil h
  · next hrest => rw [hrest]; rfl

namespace Cursor.Tracks

variable {p : Piece} {c c' : Cursor}

/-- Both look at the same token, with the same ones behind it, or the piece has been read to its
    end. -/
theorem alike_or_ended (h : c.Tracks p c') :
    p.Alike c.current c'.current ∧ p.Goes c.rest c'.rest ∨ p.Ended c := by
  rcases h.tokens with hgoes | halike
  · rcases hgoes.cons_inv with hon | ⟨ts', hts', halike, hrest⟩
    · exact .inr ⟨⟨_, hon⟩, h.fault⟩
    · obtain ⟨hcurrent, rfl⟩ := List.cons.inj hts'
      exact .inl ⟨hcurrent ▸ halike, hrest⟩
  · exact .inl halike

/-- Behind a token that is not the last one the layout is the same, too. -/
theorem advance (hfits : p.Fits) (h : c.Tracks p c') (hgoes : p.Goes c.rest c'.rest)
    (hlast : c.current.isLast = false) :
    p.Goes c.advance.tokens c'.advance.tokens ∧ c.advance.Tracks p c'.advance := by
  have hrest : c.rest = c.advance.tokens :=
    (List.cons.inj (Cursor.tokens_eq_advance h.closed hlast)).2
  have hne : c.rest ≠ [] := hrest ▸ List.cons_ne_nil _ _
  have hgoes' : p.Goes c.advance.tokens c'.advance.tokens := by
    rwa [advance_tokens hne, advance_tokens (hgoes.ne_nil hfits hne)]
  exact ⟨hgoes', .inl hgoes', by simpa using h.anonymous, (advance_fault c).trans h.fault,
    (advance_fault c').trans h.fault', h.closed.of_suffix c.advance_tokens_suffix
      (List.cons_ne_nil _ _)⟩

/-- Texts that end together have been read together. -/
theorem atEnd_of (h : c.Tracks p c') (hon : p.goesOn = none) (hend : c.atEnd = true) :
    c'.atEnd = true := by
  rcases h.alike_or_ended with ⟨halike, -⟩ | ⟨⟨_, hon'⟩, -⟩
  · rw [atEnd, halike.kind]
    exact hend
  · rw [hon] at hon'
    cases hon'

/-- At the last token of the piece, the longer text goes on with what stands in its place. -/
theorem at_last {last : Token} {ts : List Token} (h : c.Tracks p c')
    (hon : p.goesOn = some (last, ts)) (hlast : c.current.isLast = true) :
    last = c.current ∧ ts = c'.tokens := by
  have hinner {t : Token} (halike : p.Alike c.current t) : False := by
    rw [halike.inner hlast] at hon
    cases hon
  rcases h.tokens with hgoes | ⟨halike, -⟩
  · rcases hgoes.cons_inv with hon' | ⟨-, -, halike, -⟩
    · rw [hon] at hon'
      exact Prod.mk.inj (Option.some.inj hon')
    · exact (hinner halike).elim
  · exact (hinner halike).elim

/-- Reading in the longer text may go as deep at least. -/
theorem bound_le (hfits : p.Fits) (h : c.Tracks p c') : c.bound ≤ c'.bound := by
  have hle : c.rest.length ≤ c'.rest.length := by
    rcases h.tokens with hgoes | ⟨-, hgoes⟩
    · exact Nat.le_of_succ_le_succ (hgoes.length_le hfits)
    · exact hgoes.length_le hfits
  simp only [bound]
  omega

end Cursor.Tracks

/-! ## §3. Two readings side by side. -/

namespace Piece

variable (p : Piece) {α β : Type}

/-- How two readings end: with the same value, equally far on; with the same error; or, for that
    of the piece alone, cut short or, if `E` holds, at its end. -/
inductive Outcome (E : Prop) (V : α → α → Prop) :
    Except SyntaxError α × Cursor → Except SyntaxError α × Cursor → Prop where
  /-- Both yield values that belong together. -/
  | both {a a' : α} {c c' : Cursor} (hval : V a a') (htracks : c.Tracks p c') :
      Outcome E V (.ok a, c) (.ok a', c')
  /-- Both fail in the same way. -/
  | fails {e : SyntaxError} {c c' : Cursor} :
      Outcome E V (.error e, c) (.error (e.moved p.offset), c')
  /-- The reading of the piece stops with an error of its own. -/
  | stops {e : SyntaxError} {c : Cursor} {r' : Except SyntaxError α × Cursor}
      (h : e.fault = .cutShort ∨ p.Broken e) : Outcome E V (.error e, c) r'
  /-- The reading of the piece yields a value at its end. -/
  | ended {a : α} {c : Cursor} {r' : Except SyntaxError α × Cursor} (hE : E) (h : p.Ended c) :
      Outcome E V (.ok a, c) r'

/-- Begun at `c` and `c'`, the two actions end in one of these ways. -/
def Follows (E : Prop) (V : α → α → Prop) (x x' : Reading α) (c c' : Cursor) : Prop :=
  p.Outcome E V (x.run.run c) (x'.run.run c')

/-- Begun at the end of the piece, the action fails for that reason. -/
def Fails (x : Reading α) : Prop :=
  ∀ c, p.Ended c → ∃ e c₁, x.run.run c = (.error e, c₁) ∧ (e.fault = .cutShort ∨ p.Broken e)

/-- Begun at the end of the piece, the action fails for that reason or, if `E` holds, comes no
    further. -/
def Stays (E : Prop) (x : Reading α) : Prop :=
  ∀ c, p.Ended c → (∃ e c₁, x.run.run c = (.error e, c₁) ∧ (e.fault = .cutShort ∨ p.Broken e)) ∨
    E ∧ ∃ a c₁, x.run.run c = (.ok a, c₁) ∧ p.Ended c₁

variable {p} {E : Prop} {c c' : Cursor} {V : α → α → Prop} {W : β → β → Prop}

/-- An action that fails at the end of the piece does not get past it. -/
theorem Fails.stays {x : Reading α} (h : p.Fails x) : p.Stays E x := fun c hc => .inl (h c hc)

theorem Stays.pure (a : α) : p.Stays True (pure a : Reading α) :=
  fun _ hc => .inr ⟨trivial, _, _, rfl, hc⟩

theorem Fails.bind {x : Reading α} (h : p.Fails x) (k : α → Reading β) : p.Fails (x >>= k) := by
  intro c hc
  obtain ⟨e, c₁, hrun, he⟩ := h c hc
  exact ⟨e, c₁, Reading.run_bind_error hrun k, he⟩

/-- At the end of the piece anything may follow in the longer text. -/
theorem Stays.outcome {x : Reading α} (h : p.Stays E x) (hc : p.Ended c)
    (r' : Except SyntaxError α × Cursor) : p.Outcome E V (x.run.run c) r' := by
  rcases h c hc with ⟨e, c₁, hrun, he⟩ | ⟨hE, a, c₁, hrun, hend⟩ <;> rw [hrun]
  · exact .stops he
  · exact .ended hE hend

/-- At its end the piece has no token of a kind that could go on. -/
theorem Stays.current_bind (hfits : p.Fits) {k : Token → Reading α}
    (h : ∀ t, t.isLast = true → p.Stays E (k t)) : p.Stays E (Reading.current >>= k) := by
  intro c hc
  obtain ⟨⟨ts, hon⟩, -⟩ := id hc
  exact h c.current (hfits.last _ _ hon).1 c hc

/-- Looking at the last token does not fail, but what is done with it may. -/
theorem Fails.current_bind (hfits : p.Fits) {k : Token → Reading α}
    (h : ∀ t, t.isLast = true → p.Fails (k t)) : p.Fails (Reading.current >>= k) := by
  intro c hc
  obtain ⟨⟨ts, hon⟩, -⟩ := id hc
  exact h c.current (hfits.last _ _ hon).1 c hc

theorem Fails.get_bind {k : Cursor → Reading α}
    (h : ∀ c, p.Ended c → ∃ e c₁, (k c).run.run c = (.error e, c₁) ∧
      (e.fault = .cutShort ∨ p.Broken e)) : p.Fails (get >>= k) := h

/-- Running out of fuel counts as such a failure. -/
theorem Fails.cut : p.Fails (Reading.fail .cutShort : Reading α) :=
  fun _ _ => ⟨_, _, rfl, .inl rfl⟩

theorem Fails.tooDeep : p.Fails (Reading.fail .tooDeep : Reading α) :=
  fun _ ⟨⟨_, hon⟩, _⟩ => ⟨_, _, rfl, .inr ⟨_, _, hon, .inr (.inr rfl)⟩⟩

theorem Fails.incomplete {fault : SyntaxFault}
    (h : ∀ c : Cursor, (c.error fault).incomplete = true) :
    p.Fails (Reading.fail fault : Reading α) :=
  fun c ⟨⟨_, hon⟩, _⟩ => ⟨_, _, rfl, .inr ⟨_, _, hon, .inl (h c)⟩⟩

/-- The fault of the piece. -/
theorem Fails.lexical :
    p.Fails (do throw (← get).lexicalError : Reading α) := by
  intro c ⟨⟨_, hon⟩, hfault⟩
  refine ⟨_, _, rfl, ?_⟩
  cases hf : c.fault with
  | none => exact .inl (by simp [Cursor.lexicalError, hf, Cursor.error])
  | some e => exact .inr ⟨_, _, hon, .inr (.inl (by simp [Cursor.lexicalError, ← hfault, hf]))⟩

/-- Expecting a token fails at the end of the piece. -/
theorem Fails.expect (hfits : p.Fits) {kind : TokenKind} (hkind : kind ≠ .eof)
    (herror : kind ≠ .error) : p.Fails (Reading.expect kind) := by
  refine .current_bind hfits fun t hlast => ?_
  rcases (by simpa [Token.isLast] using hlast : t.kind = .eof ∨ t.kind = .error) with hk | hk
  · simp only [hk, hkind.symm, if_false]
    exact .incomplete fun _ => rfl
  · simp only [hk, herror.symm, if_false]
    exact .lexical

namespace Follows

protected theorem pure {a a' : α} (hval : V a a') (h : c.Tracks p c') :
    p.Follows E V (pure a) (pure a') c c' := .both hval h

/-- What the second action does is looked at only where the first one has not ended the piece. -/
theorem bind_of {x x' : Reading α} {k k' : α → Reading β} {E' : Prop}
    (hx : p.Follows E' V x x' c c') (hend : E' → ∀ a, p.Stays E (k a))
    (hk : ∀ a a' c₁ c₁', V a a' → c₁.Tracks p c₁' → p.Follows E W (k a) (k' a') c₁ c₁') :
    p.Follows E W (x >>= k) (x' >>= k') c c' := by
  unfold Follows at hx ⊢
  rcases hr : x.run.run c with ⟨r, c₁⟩
  rcases hr' : x'.run.run c' with ⟨r', c₁'⟩
  rw [hr, hr'] at hx
  -- What comes second is run only where the first one succeeds.
  cases hx with
  | both hval htracks =>
    rw [Reading.run_bind_ok hr, Reading.run_bind_ok hr']
    exact hk _ _ _ _ hval htracks
  | fails =>
    rw [Reading.run_bind_error hr, Reading.run_bind_error hr']
    exact .fails
  | stops h =>
    rw [Reading.run_bind_error hr]
    exact .stops h
  | ended hE h =>
    rw [Reading.run_bind_ok hr]
    exact (hend hE _).outcome h _

/-- The first action may have ended the piece. -/
protected theorem bind {x x' : Reading α} {k k' : α → Reading β}
    (hx : p.Follows True V x x' c c') (hend : ∀ a, p.Stays E (k a))
    (hk : ∀ a a' c₁ c₁', V a a' → c₁.Tracks p c₁' → p.Follows E W (k a) (k' a') c₁ c₁') :
    p.Follows E W (x >>= k) (x' >>= k') c c' := bind_of hx (fun _ => hend) hk

/-- The first action does not end the piece. -/
theorem bind_within {x x' : Reading α} {k k' : α → Reading β}
    (hx : p.Follows False V x x' c c')
    (hk : ∀ a a' c₁ c₁', V a a' → c₁.Tracks p c₁' → p.Follows E W (k a) (k' a') c₁ c₁') :
    p.Follows E W (x >>= k) (x' >>= k') c c' := bind_of hx False.elim hk

/-- Inside of the piece both look at the same token; at its end the piece goes no further. -/
protected theorem current_bind {k k' : Token → Reading β} (h : c.Tracks p c')
    (hend : p.Stays E (Reading.current >>= k))
    (hk : p.Alike c.current c'.current → p.Goes c.rest c'.rest →
      p.Follows E W (k c.current) (k' c'.current) c c') :
    p.Follows E W (Reading.current >>= k) (Reading.current >>= k') c c' := by
  rcases h.alike_or_ended with ⟨halike, hgoes⟩ | hc
  · exact hk halike hgoes
  · exact hend.outcome hc _

/-- Both look at their token. -/
protected theorem of_current {k k' : Token → Reading β}
    (h : p.Follows E W (k c.current) (k' c'.current) c c') :
    p.Follows E W (Reading.current >>= k) (Reading.current >>= k') c c' := h

/-- Both look at their cursor. -/
protected theorem of_get {k k' : Cursor → Reading β} (h : p.Follows E W (k c) (k' c') c c') :
    p.Follows E W (get >>= k) (get >>= k') c c' := h

/-- Both step over the same token. -/
protected theorem advance_bind (hfits : p.Fits) {k k' : Unit → Reading β} (h : c.Tracks p c')
    (hgoes : p.Goes c.rest c'.rest) (hlast : c.current.isLast = false)
    (hk : c.advance.Tracks p c'.advance → p.Goes c.advance.tokens c'.advance.tokens →
      p.Follows E W (k ()) (k' ()) c.advance c'.advance) :
    p.Follows E W (Reading.advance >>= k) (Reading.advance >>= k') c c' :=
  hk (h.advance hfits hgoes hlast).2 (h.advance hfits hgoes hlast).1

protected theorem fail {fault : SyntaxFault} (halike : p.Alike c.current c'.current) :
    p.Follows E V (Reading.fail fault) (Reading.fail fault) c c' := by
  have hmoved : c'.error fault = (c.error fault).moved p.offset := by
    simp [Cursor.error, SyntaxError.moved, halike.value, halike.position]
  show p.Outcome E V (.error (c.error fault), c) (.error (c'.error fault), c')
  rw [hmoved]
  exact .fails

/-- Both fail at a token that is a fault of the text itself. -/
protected theorem lexical (hfits : p.Fits) (h : c.Tracks p c')
    (halike : p.Alike c.current c'.current) (hk : c.current.kind = .error) :
    p.Follows E V (do throw (← get).lexicalError) (do throw (← get).lexicalError) c c' := by
  show p.Outcome E V (.error c.lexicalError, c) (.error c'.lexicalError, c')
  have hfault := hfits.whole (halike.inner (by simp [Token.isLast, hk]))
  rw [← h.fault, ← h.fault'] at hfault
  have hmoved : c'.lexicalError = c.lexicalError.moved p.offset := by
    cases hf : c.fault <;>
      simp [Cursor.lexicalError, hfault, hf, Cursor.error, SyntaxError.moved, halike.value,
        halike.position]
  rw [hmoved]
  exact .fails

/-- Both find the token that they expect, or fail. -/
protected theorem expect (hfits : p.Fits) {kind : TokenKind} (hkind : kind ≠ .eof)
    (herror : kind ≠ .error) (h : c.Tracks p c') :
    p.Follows E (fun _ _ => True) (Reading.expect kind) (Reading.expect kind) c c' := by
  refine .current_bind h (Fails.expect hfits hkind herror).stays fun halike hgoes => ?_
  simp only [halike.kind]
  split
  · next hk =>
    have hlast : c.current.isLast = false := by simp [Token.isLast, hk, hkind, herror]
    exact .both trivial (h.advance hfits hgoes hlast).2
  · split
    · exact .fail halike
    · next hk => exact .lexical hfits h halike hk
    · exact .fail halike

/-- A kind of token that both look for. -/
protected theorem expect_pure (hfits : p.Fits) {kind : TokenKind} (hkind : kind ≠ .eof)
    (herror : kind ≠ .error) {a a' : α} (hval : V a a') (h : c.Tracks p c') :
    p.Follows E V (do Reading.expect kind; pure a) (do Reading.expect kind; pure a') c c' :=
  (Follows.expect hfits hkind herror h).bind_within fun _ _ _ _ _ h => .pure hval h

end Follows

end Piece

/-! ## §4. The four readers. -/

open Reading

variable {p : Piece} {E : Prop} {c c' : Cursor}

/-- Both tokens make the same atom, at their own places. -/
theorem Token.atom_alike {t t' : Token} (h : p.Alike t t') : t'.atom = p.term t.atom := by
  simp [Token.atom, Piece.term, Term.restate, h.value, h.position]

/-- Both tokens make the same number. -/
theorem numberTerm_follows {t t' : Token} (halike : p.Alike t t') (h : c.Tracks p c')
    (negative : Bool) :
    p.Follows E (fun a a' => a' = p.term a) (numberTerm t negative) (numberTerm t' negative)
      c c' := by
  unfold numberTerm
  rw [halike.value]
  split
  · refine .pure ?_ h
    simp [Piece.term, Term.restate, halike.position]
  · next f _ =>
    have hmoved : (⟨.badNumber f, t'.position, t.value⟩ : SyntaxError) =
        SyntaxError.moved p.offset ⟨.badNumber f, t.position, t.value⟩ := by
      simp [SyntaxError.moved, halike.position]
    rw [hmoved]
    exact .fails

/-- Both tokens make the same variable, each anonymous one with its own number. -/
theorem variableTerm_follows (hfits : p.Fits) {t t' : Token} (halike : p.Alike t t')
    (hk : t.kind = .variable) (h : c.Tracks p c') :
    p.Follows E (fun a a' => a' = p.term a) (variableTerm t) (variableTerm t') c c' := by
  unfold variableTerm
  rw [halike.value]
  split
  · obtain ⟨i, hi, hi'⟩ := h.anonymous
    refine .both ?_ ⟨h.tokens, ⟨i + 1, ?_, ?_⟩, h.fault, h.fault', h.closed⟩
    · have := hfits.anonymous (i + 1)
      simp only [hi, hi', Piece.term, Term.restate, Nat.add_assoc, this]
    · simp only [hi]
      omega
    · simp only [hi']
      omega
  · refine .pure ?_ h
    rw [Piece.term, Term.restate, hfits.plain _ (halike.named hk)]

namespace Grammar

variable {g : Grammar} {n m : Nat}

/-- Both tokens are the same infix operator. -/
theorem between?_alike {t t' : Token} (h : p.Alike t t') : g.between? t' = g.between? t := by
  simp only [between?, h.kind, h.value]

/-- Both tokens may start a term, or neither. -/
theorem startsTerm_alike {t t' : Token} (h : p.Alike t t') : g.startsTerm t' = g.startsTerm t := by
  simp only [startsTerm, h.kind, h.value]

/-- No operator ends a text. -/
theorem between?_last {t : Token} (h : t.isLast = true) : g.between? t = none := by
  cases hd : g.between? t with
  | none => rfl
  | some d => rw [between?_isLast hd] at h; cases h

/-- The last token is the end of the text or a fault. -/
theorem last_kind {t : Token} (h : t.isLast = true) : t.kind = .eof ∨ t.kind = .error := by
  simpa [Token.isLast] using h

/-- At the end of the piece an operand has no operator behind it, so it is the whole term. -/
theorem climb_stays (hfits : p.Fits) (n : Nat) (left : Term) (priority max depth : Int) :
    p.Stays True (g.climb n left priority max depth) := by
  cases n with
  | zero => exact Piece.Fails.cut.stays
  | succ n =>
    refine .current_bind hfits fun t hlast => ?_
    simp only [between?_last hlast]
    exact .pure left

/-- At the end of the piece there is no operand. -/
theorem operand_fails (hfits : p.Fits) (n : Nat) (max depth : Int) :
    p.Fails (g.operand n max depth) := by
  cases n with
  | zero => exact .cut
  | succ n =>
    simp only [operand]
    split
    · exact .tooDeep
    · refine .current_bind hfits fun t hlast => ?_
      rcases last_kind hlast with hk | hk <;> simp only [hk]
      · exact .incomplete fun _ => rfl
      · exact .lexical

theorem term_fails (hfits : p.Fits) (n : Nat) (max depth : Int) :
    p.Fails (g.term n max depth) := by
  cases n with
  | zero => exact .cut
  | succ n => exact (operand_fails hfits n max depth).bind _

theorem elements_fails (hfits : p.Fits) (n : Nat) (depth : Int) :
    p.Fails (g.elements n depth) := by
  cases n with
  | zero => exact .cut
  | succ n => exact (term_fails hfits n _ _).bind _

/-- Two readings with the counts `n` and `m`, reader by reader. -/
structure FollowsAt (g : Grammar) (p : Piece) (n m : Nat) : Prop where
  /-- Terms. -/
  term : ∀ max depth (c c' : Cursor), c.Tracks p c' →
    p.Follows True (fun a a' => a' = p.term a) (g.term n max depth) (g.term m max depth) c c'
  /-- Terms behind a left operand. -/
  climb : ∀ left priority max depth (c c' : Cursor), c.Tracks p c' →
    p.Follows True (fun a a' => a' = p.term a) (g.climb n left priority max depth)
      (g.climb m (p.term left) priority max depth) c c'
  /-- Operands. -/
  operand : ∀ max depth (c c' : Cursor), c.Tracks p c' →
    p.Follows True (fun r r' => r'.1 = p.term r.1 ∧ r'.2 = r.2) (g.operand n max depth)
      (g.operand m max depth) c c'
  /-- Arguments. -/
  elements : ∀ depth (c c' : Cursor), c.Tracks p c' →
    p.Follows True (fun ts ts' => ts' = ts.map p.term) (g.elements n depth) (g.elements m depth)
      c c'

/-- Both go on with the same operators behind an operand. -/
theorem climb_follows (hfits : p.Fits) (ih : g.FollowsAt p n m) (left : Term)
    (priority max depth : Int) (h : c.Tracks p c') :
    p.Follows True (fun a a' => a' = p.term a) (g.climb (n + 1) left priority max depth)
      (g.climb (m + 1) (p.term left) priority max depth) c c' := by
  refine .current_bind h (climb_stays hfits (n + 1) left priority max depth) fun halike hgoes => ?_
  simp only [between?_alike halike]
  split
  · exact .pure rfl h
  -- Both texts have the same operator, with the same priority.
  next d hd =>
  split
  · exact .pure rfl h
  split
  · exact .fail halike
  refine .advance_bind hfits h hgoes (between?_isLast hd) fun h₁ _ => ?_
  refine (ih.term _ _ _ _ h₁).bind (fun _ => climb_stays hfits _ _ _ _ _) ?_
  rintro right _ c₂ c₂' rfl h₂
  -- The positions of the two terms differ by the length of what is in front.
  have hterm : (.app d.symbol [p.term left, p.term right] .none c'.current.position : Term) =
      p.term (.app d.symbol [left, right] .none c.current.position) := by
    simp [Piece.term, Term.restate, Term.restates, halike.position]
  rw [hterm]
  exact ih.climb _ _ _ _ _ _ h₂

/-- A list behind its opening bracket. -/
theorem list_follows (hfits : p.Fits) (ih : g.FollowsAt p n m) (depth : Int)
    (h : c.Tracks p c') :
    p.Follows True (fun r r' => r'.1 = p.term r.1 ∧ r'.2 = r.2) (do
      let elements ← g.elements n depth
      let tail ← if (← current).kind = .bar then do
          advance
          g.term n 999 (depth + 1)
        else pure (.const .nil (-1))
      expect .bracketClose
      return (Term.ofList elements tail, (0 : Int))) (do
      let elements ← g.elements m depth
      let tail ← if (← current).kind = .bar then do
          advance
          g.term m 999 (depth + 1)
        else pure (.const .nil (-1))
      expect .bracketClose
      return (Term.ofList elements tail, (0 : Int))) c c' := by
  have hclose (elements : List Term) (tail : Term) : p.Stays True (do
      expect .bracketClose
      return (Term.ofList elements tail, (0 : Int))) :=
    ((Piece.Fails.expect hfits (by decide) (by decide)).bind _).stays
  have hlist (elements : List Term) (tail : Term) :
      Term.ofList (elements.map p.term) (p.term tail) = p.term (Term.ofList elements tail) :=
    (Term.restate_ofList (by simp [placed]) rfl elements tail).symm
  have hnil : p.term (.const .nil (-1)) = .const .nil (-1) := by
    simp [Piece.term, Term.restate, placed]
  -- First come the elements; at the end of the piece the closing bracket is missing in any case.
  refine (ih.elements depth _ _ h).bind (fun elements => ?_) ?_
  · refine .current_bind hfits fun t hlast => ?_
    have hbar : t.kind ≠ .bar := by rcases last_kind hlast with hk | hk <;> simp [hk]
    simp only [hbar, if_false]
    exact hclose _ _
  rintro elements _ c₂ c₂' rfl h₂
  -- Behind them stands a bar in both texts or in neither.
  refine .current_bind h₂ ?_ fun halike hgoes => ?_
  · refine .current_bind hfits fun t hlast => ?_
    have hbar : t.kind ≠ .bar := by rcases last_kind hlast with hk | hk <;> simp [hk]
    simp only [hbar, if_false]
    exact hclose _ _
  simp only [halike.kind]
  split
  · next hbar =>
    refine .advance_bind hfits h₂ hgoes (by simp [Token.isLast, hbar]) fun h₃ _ => ?_
    refine (ih.term _ _ _ _ h₃).bind (hclose elements) ?_
    rintro tail _ c₄ c₄' rfl h₄
    exact .expect_pure hfits (by decide) (by decide) ⟨hlist _ _, rfl⟩ h₄
  · refine (Piece.Follows.pure (V := fun a a' => a' = p.term a) hnil.symm h₂).bind_within ?_
    rintro tail _ c₄ c₄' rfl h₄
    exact .expect_pure hfits (by decide) (by decide) ⟨hlist _ _, rfl⟩ h₄

/-- An operand behind the name it starts with, which both have stepped over. -/
theorem named_follows (hfits : p.Fits) (ih : g.FollowsAt p n m) {t t' : Token}
    (ht : p.Alike t t') (max depth : Int) (h : c.Tracks p c')
    (hgoes : p.Goes c.tokens c'.tokens) :
    p.Follows True (fun r r' => r'.1 = p.term r.1 ∧ r'.2 = r.2) (do
      let next ← current
      if next.kind = .parenOpen && !next.layout then do
        advance
        let args ← g.elements n depth
        expect .parenClose
        return (Term.app t.value args .none t.position, (0 : Int))
      else if t.quoted then return (t.atom, 0)
      else if t.value = "-" && next.kind = .number && !next.layout then do
        advance
        return (← numberTerm next true, 0)
      else match g.operators.before? t.value with
        | some d =>
          if d.priority ≤ max && g.startsTerm next then do
            let arg ← g.term n d.rightMax (depth + 1)
            return (.app t.value [arg] .none t.position, d.priority)
          else return (t.atom, 0)
        | none => return (t.atom, 0)) (do
      let next ← current
      if next.kind = .parenOpen && !next.layout then do
        advance
        let args ← g.elements m depth
        expect .parenClose
        return (Term.app t'.value args .none t'.position, (0 : Int))
      else if t'.quoted then return (t'.atom, 0)
      else if t'.value = "-" && next.kind = .number && !next.layout then do
        advance
        return (← numberTerm next true, 0)
      else match g.operators.before? t'.value with
        | some d =>
          if d.priority ≤ max && g.startsTerm next then do
            let arg ← g.term m d.rightMax (depth + 1)
            return (.app t'.value [arg] .none t'.position, d.priority)
          else return (t'.atom, 0)
        | none => return (t'.atom, 0)) c c' := by
  have hclose (args : List Term) : p.Stays True (do
      expect .parenClose
      return (Term.app t.value args .none t.position, (0 : Int))) :=
    ((Piece.Fails.expect hfits (by decide) (by decide)).bind _).stays
  refine .current_bind h ?_ fun halike hrest => ?_
  · -- At its end the piece ends with the name itself.
    refine .current_bind hfits fun u hlast => ?_
    have hstart : g.startsTerm u = false := by
      rcases last_kind hlast with hk | hk <;> simp [startsTerm, hk]
    have hkind : u.kind ≠ .parenOpen ∧ u.kind ≠ .number := by
      rcases last_kind hlast with hk | hk <;> simp [hk]
    simp only [hstart, hkind.1, hkind.2, decide_false, Bool.false_and, Bool.and_false,
      Bool.false_eq_true, if_false]
    repeat' split
    all_goals exact .pure _
  -- A token has the same layout in front of it on both sides, since it is not the last one of the piece.
  have hlayout : c'.current.layout = c.current.layout := by
    rcases hgoes.cons_inv with hon | ⟨ts', hts', -, -⟩
    · have hlast := (hfits.last _ _ hon).1
      rw [halike.inner hlast] at hon
      cases hon
    · rw [(List.cons.inj hts').1]
      rfl
  have hatom : t'.atom = p.term t.atom := t.atom_alike ht
  simp only [halike.kind, hlayout, ht.value, ht.quoted, startsTerm_alike halike]
  -- The cases are those of the reader: a compound, a quoted atom, a negative number, a prefix operator.
  split
  · next hopen =>
    have hlast : c.current.isLast = false := by simp_all [Token.isLast]
    refine .advance_bind hfits h hrest hlast fun h₁ _ => ?_
    refine (ih.elements _ _ _ h₁).bind hclose ?_
    rintro args _ c₂ c₂' rfl h₂
    refine .expect_pure hfits (by decide) (by decide) ⟨?_, rfl⟩ h₂
    rw [Piece.term, Term.restate, Term.restates_eq_map, ht.position, placed_natCast]
    rfl
  split
  · exact .pure ⟨hatom, rfl⟩ h
  split
  · next hnumber =>
    have hlast : c.current.isLast = false := by simp_all [Token.isLast]
    refine .advance_bind hfits h hrest hlast fun h₁ _ => ?_
    refine (numberTerm_follows halike h₁ true).bind_within ?_
    rintro a _ c₂ c₂' rfl h₂
    exact .pure ⟨rfl, rfl⟩ h₂
  split
  · split
    · refine (ih.term _ _ _ _ h).bind (fun _ => .pure _) ?_
      rintro arg _ c₂ c₂' rfl h₂
      refine .pure ⟨?_, rfl⟩ h₂
      simp [Piece.term, Term.restate, Term.restates, ht.position]
    · exact .pure ⟨hatom, rfl⟩ h
  · exact .pure ⟨hatom, rfl⟩ h

/-- Both read the same operand. -/
theorem operand_follows (hfits : p.Fits) (ih : g.FollowsAt p n m) (max depth : Int)
    (h : c.Tracks p c') :
    p.Follows True (fun r r' => r'.1 = p.term r.1 ∧ r'.2 = r.2) (g.operand (n + 1) max depth)
      (g.operand (m + 1) max depth) c c' := by
  -- At the end of the piece nothing is left to read; otherwise both readers look at the same token.
  rcases h.alike_or_ended with ⟨halike, hgoes⟩ | hc
  case inr => exact (operand_fails hfits (n + 1) max depth).stays.outcome hc _
  simp only [operand]
  split
  · exact .fail halike
  refine .of_current ?_
  -- The cases are the kinds of tokens, in the order in which the reader tries them.
  simp only [halike.kind]
  split
  · exact .fail halike
  · next hk => exact .lexical hfits h halike hk
  · next hk =>
    refine .advance_bind hfits h hgoes (by simp [Token.isLast, hk]) fun h₁ _ => ?_
    refine (numberTerm_follows halike h₁ false).bind_within ?_
    rintro a _ c₂ c₂' rfl h₂
    exact .pure ⟨rfl, rfl⟩ h₂
  · next hk =>
    refine .advance_bind hfits h hgoes (by simp [Token.isLast, hk]) fun h₁ _ => ?_
    refine (variableTerm_follows hfits halike hk h₁).bind_within ?_
    rintro a _ c₂ c₂' rfl h₂
    exact .pure ⟨rfl, rfl⟩ h₂
  · next hk =>
    refine .advance_bind hfits h hgoes (by simp [Token.isLast, hk]) fun h₁ _ => ?_
    exact .pure ⟨Token.atom_alike halike, rfl⟩ h₁
  · next hk =>
    refine .advance_bind hfits h hgoes (by simp [Token.isLast, hk]) fun h₁ _ => ?_
    refine (ih.term _ _ _ _ h₁).bind (fun _ => ?_) ?_
    · exact ((Piece.Fails.expect hfits (by decide) (by decide)).bind _).stays
    rintro t _ c₂ c₂' rfl h₂
    exact .expect_pure hfits (by decide) (by decide) ⟨rfl, rfl⟩ h₂
  · next hk =>
    refine .advance_bind hfits h hgoes (by simp [Token.isLast, hk]) fun h₁ _ => ?_
    refine .current_bind h₁ ?_ fun halike₁ hgoes₁ => ?_
    · refine .current_bind hfits fun t hlast => ?_
      have hclose : t.kind ≠ .bracketClose := by
        rcases last_kind hlast with hk | hk <;> simp [hk]
      simp only [hclose, if_false]
      exact ((elements_fails hfits n depth).bind _).stays
    simp only [halike₁.kind]
    split
    · next hclose =>
      refine .advance_bind hfits h₁ hgoes₁ (by simp [Token.isLast, hclose]) fun h₂ _ => ?_
      exact .pure ⟨by simp [Piece.term, Term.restate, placed], rfl⟩ h₂
    · exact list_follows hfits ih depth h₁
  · next hk =>
    refine .advance_bind hfits h hgoes (by simp [Token.isLast, hk]) fun h₁ hgoes₁ => ?_
    exact named_follows hfits ih halike max depth h₁ hgoes₁
  · exact .fail halike

/-- **A piece of a text is read as it is in the longer text, also with a larger count.** -/
theorem follows (g : Grammar) (hfits : p.Fits) (n : Nat) : ∀ m, n ≤ m → g.FollowsAt p n m := by
  -- The induction is on the fuel of the reading in the piece; the longer text may have more of it.
  induction n with
  | zero =>
    exact fun m _ => ⟨fun _ _ _ _ _ => .stops (.inl rfl), fun _ _ _ _ _ _ _ => .stops (.inl rfl),
      fun _ _ _ _ _ => .stops (.inl rfl), fun _ _ _ _ => .stops (.inl rfl)⟩
  | succ n ih =>
    intro m hm
    obtain ⟨m, rfl⟩ : ∃ k, m = k + 1 := ⟨m - 1, by omega⟩
    have ih := ih m (by omega)
    -- A term is an operand and what operators make of it; arguments are terms with commas between them.
    refine ⟨fun max depth c c' h => ?_, fun left _ _ _ _ _ h => climb_follows hfits ih left _ _ _ h,
      fun _ _ _ _ h => operand_follows hfits ih _ _ h, fun depth c c' h => ?_⟩
    · refine (ih.operand max depth c c' h).bind (fun _ => climb_stays hfits n _ _ _ _) ?_
      rintro ⟨left, priority⟩ ⟨left', priority'⟩ c₁ c₁' ⟨hleft, hpriority⟩ h₁
      obtain ⟨rfl, rfl⟩ : left' = p.term left ∧ priority' = priority := ⟨hleft, hpriority⟩
      exact ih.climb left _ max depth c₁ c₁' h₁
    · refine (ih.term _ _ c c' h).bind (fun first => ?_) ?_
      · refine .current_bind hfits fun t hlast => ?_
        have hcomma : t.kind ≠ .comma := by rcases last_kind hlast with hk | hk <;> simp [hk]
        simp only [hcomma, if_false]
        exact .pure _
      rintro first _ c₁ c₁' rfl h₁
      refine .current_bind h₁ ?_ fun halike hgoes => ?_
      · refine .current_bind hfits fun t hlast => ?_
        have hcomma : t.kind ≠ .comma := by rcases last_kind hlast with hk | hk <;> simp [hk]
        simp only [hcomma, if_false]
        exact .pure _
      simp only [halike.kind]
      split
      · next hcomma =>
        refine .advance_bind hfits h₁ hgoes (by simp [Token.isLast, hcomma]) fun h₂ _ => ?_
        refine (ih.elements _ _ _ h₂).bind (fun _ => .pure _) ?_
        rintro rest _ c₃ c₃' rfl h₃
        exact .pure rfl h₃
      · exact .pure rfl h₁

/-- At its end the piece has no clause left. -/
theorem clause_fails (g : Grammar) (hfits : p.Fits) : p.Fails g.clause := by
  refine .get_bind fun c hc => ?_
  obtain ⟨⟨ts, hon⟩, -⟩ := id hc
  rcases last_kind (hfits.last _ _ hon).1 with hk | hk <;> simp only [hk]
  · exact Piece.Fails.incomplete (fun _ => rfl) c hc
  · exact Piece.Fails.lexical c hc

/-- Both read the same clause, which never ends at the end of the piece. -/
theorem clause_follows (g : Grammar) (hfits : p.Fits) (h : c.Tracks p c') :
    p.Follows False (fun a a' => a' = p.term a) g.clause g.clause c c' := by
  have hclose (t : Term) : p.Stays False (do expect .stop; return t) :=
    ((Piece.Fails.expect hfits (by decide) (by decide)).bind _).stays
  rcases h.alike_or_ended with ⟨halike, hgoes⟩ | hc
  case inr => exact (clause_fails g hfits).stays.outcome hc _
  refine .of_get ?_
  simp only [halike.kind]
  split
  · next hk => exact .lexical hfits h halike hk
  · exact .fail halike
  · refine ((follows g hfits _ _ (h.bound_le hfits)).term 1200 0 c c' h).bind hclose ?_
    rintro t _ c₁ c₁' rfl h₁
    exact .expect_pure hfits (by decide) (by decide) rfl h₁

end Grammar

/-! ## §5. Clauses and programs. -/

namespace Cursor

/-- Also the clauses that come out are the same. -/
theorem next_follows (g : Grammar) (hfits : p.Fits) (h : c.Tracks p c') :
    p.Outcome False (fun t t' => t' = p.term t) (c.next g) (c'.next g) := by
  have hclause := g.clause_follows hfits h
  unfold Piece.Follows at hclause
  have hnext (c : Cursor) : c.next g =
      ((g.clause.run.run c).1.map Term.shape, (g.clause.run.run c).2) := rfl
  rw [hnext, hnext]
  generalize g.clause.run.run c = r, g.clause.run.run c' = r' at hclause
  cases hclause with
  | both hval h₁ =>
    subst hval
    exact .both (Term.shape_restate _) h₁
  | fails => exact .fails
  | stops h => exact .stops h
  | ended hE h => exact hE.elim

/-- At its end the piece has no clause left. -/
theorem next_ended (g : Grammar) (hfits : p.Fits) (hc : p.Ended c) :
    ∃ e c₁, c.next g = (.error e, c₁) ∧ (e.fault = .cutShort ∨ p.Broken e) := by
  obtain ⟨e, c₁, hrun, he⟩ := g.clause_fails hfits c hc
  exact ⟨e, c₁, by rw [next, hrun]; rfl, he⟩

/-- Both have read everything, or neither. -/
theorem Tracks.atEnd_eq (h : p.Alike c.current c'.current) : c'.atEnd = c.atEnd := by
  rw [atEnd, atEnd, h.kind]

/-- **The clauses of a piece come first in the longer text.**  Behind them it is read on where the
    piece has come to its end. -/
theorem program_follows (g : Grammar) (hfits : p.Fits) {ts : List Term} (hc : c.Sound)
    (hc' : c'.Sound) (h : c.Tracks p c') (hts : c.program g = .ok ts) :
    ∃ c₁ c₁' : Cursor, c₁.Tracks p c₁' ∧ c₁.atEnd = true ∧ c₁'.Sound ∧
      c'.program g = (c₁'.program g).map (ts.map p.term ++ ·) := by
  -- Each clause takes up at least one token, so the rest gets shorter.
  induction hn : c.rest.length using Nat.strongRecOn generalizing c c' ts with
  | _ n ih =>
  cases hend : c.atEnd with
  | true =>
    rw [program_end hend] at hts
    obtain rfl := Except.ok.inj hts
    refine ⟨c, c', h, hend, hc', ?_⟩
    cases c'.program g <;> rfl
  | false =>
  -- The next clause is read on both sides, and the readings are compared.
  rcases hnext : c.next g with ⟨e | t, c₁⟩
  · rw [program_error hend hnext] at hts
    cases hts
  -- A piece that was read without an error does not end inside of a clause.
  rcases h.alike_or_ended with ⟨halike, -⟩ | hended
  case inr =>
    obtain ⟨e, c₂, herror, -⟩ := next_ended g hfits hended
    rw [hnext] at herror
    cases herror
  have hfollows := next_follows g hfits h
  rw [hnext] at hfollows
  rcases hnext' : c'.next g with ⟨r', c₁'⟩
  rw [hnext'] at hfollows
  cases hfollows with
  | ended hE => exact hE.elim
  | @both _ t' _ _ hval h₁ =>
  subst hval
  have hend' : c'.atEnd = false := by rw [Tracks.atEnd_eq halike, hend]
  rw [program_more hc hend hnext] at hts
  rw [program_more hc' hend' hnext']
  cases hrest : c₁.program g with
  | error e => rw [hrest] at hts; cases hts
  | ok us =>
    rw [hrest] at hts
    obtain rfl : t :: us = ts := Except.ok.inj hts
    obtain ⟨hs, hl⟩ := (next_settles (g := g) hc).2 t (by rw [hnext])
    obtain ⟨hs', -⟩ := (next_settles (g := g) hc').2 (p.term t) (by rw [hnext'])
    rw [hnext] at hs hl
    rw [hnext'] at hs'
    obtain ⟨c₂, c₂', h₂, hend₂, hs₂, hprogram⟩ := ih _ (hn ▸ hl) hs hs' h₁ hrest rfl
    refine ⟨c₂, c₂', h₂, hend₂, hs₂, ?_⟩
    rw [hprogram]
    cases c₂'.program g <;> rfl

/-- **An error of a piece that does not come from its end is one of the longer text.** -/
theorem program_fails (g : Grammar) (hfits : p.Fits) {e : SyntaxError} (hc : c.Sound)
    (hc' : c'.Sound) (h : c.Tracks p c') (he : c.program g = .error e) (hbroken : ¬ p.Broken e) :
    c'.program g = .error (e.moved p.offset) := by
  -- As above, the rest gets shorter with each clause.
  induction hn : c.rest.length using Nat.strongRecOn generalizing c c' with
  | _ n ih =>
  cases hend : c.atEnd with
  | true =>
    rw [program_end hend] at he
    cases he
  | false =>
  -- An error at the end of the piece would say so, which the hypothesis excludes.
  have hcut := (next_settles (g := g) hc).1
  rcases h.alike_or_ended with ⟨halike, -⟩ | hended
  case inr =>
    obtain ⟨e', c₂, hnext, h'⟩ := next_ended g hfits hended
    rw [program_error hend hnext] at he
    obtain rfl := Except.error.inj he
    rcases h' with h' | h'
    · exact absurd h' (hcut e' (by rw [hnext]))
    · exact absurd h' hbroken
  have hend' : c'.atEnd = false := by rw [Tracks.atEnd_eq halike, hend]
  have hfollows := next_follows g hfits h
  rcases hnext : c.next g with ⟨r, c₁⟩
  rcases hnext' : c'.next g with ⟨r', c₁'⟩
  rw [hnext, hnext'] at hfollows
  cases hfollows with
  | ended hE => exact hE.elim
  | fails =>
    rw [program_error hend hnext] at he
    obtain rfl := Except.error.inj he
    exact program_error hend' hnext'
  | stops h' =>
    rw [program_error hend hnext] at he
    obtain rfl := Except.error.inj he
    rcases h' with h' | h'
    · exact absurd h' (hcut _ (by rw [hnext]))
    · exact absurd h' hbroken
  | @both t t' _ _ hval h₁ =>
    rw [program_more hc hend hnext] at he
    rw [program_more hc' hend' hnext']
    obtain ⟨hs, hl⟩ := (next_settles (g := g) hc).2 t (by rw [hnext])
    obtain ⟨hs', -⟩ := (next_settles (g := g) hc').2 t' (by rw [hnext'])
    rw [hnext] at hs hl
    rw [hnext'] at hs'
    -- The clause itself was read, so the error is one of the clauses behind it.
    cases hrest : c₁.program g with
    | ok us => rw [hrest] at he; cases he
    | error e' =>
      rw [hrest] at he
      obtain rfl : e' = e := Except.error.inj he
      rw [ih _ (hn ▸ hl) hs hs' h₁ hrest rfl]
      rfl

end Cursor

/-! ## §6. A text in front of further lines. -/

/-- The text `l` in front of a line break and the text `b`; what follows the line break stands in
    the place of the last token. -/
def Piece.front (l : Lexer) (b : List Char) : Piece where
  offset := 0
  rename := id
  named := 0
  named' := 0
  goesOn := some (l.next.1, (l.continued b).tokens.1)
  fault := l.next.2.fault
  fault' := (l.continued b).tokens.2.fault

/-- The text that begins at the offset `d`, read after `m'` anonymous variables instead of `m`. -/
def Piece.whole (d m m' : Nat) (fault : Option SyntaxError) : Piece where
  offset := d
  rename := renumber m m'
  named := m
  named' := m'
  goesOn := none
  fault := fault
  fault' := fault.map (SyntaxError.moved d)

namespace Piece

/-- The tokens of a text fit in front of what follows. -/
theorem front_fits {l : Lexer} (b : List Char) (hlast : l.next.1.isLast = true) :
    (front l b).Fits where
  plain _ _ := rfl
  anonymous _ := rfl
  whole h := nomatch h
  last t ts h := by
    obtain ⟨rfl, rfl⟩ : l.next.1 = t ∧ (l.continued b).tokens.1 = ts := by
      simpa [front] using h
    refine ⟨hlast, fun hnil => ?_⟩
    obtain ⟨t, ht, -⟩ := Lexer.tokens_closed (l.continued b)
    rw [hnil] at ht
    cases ht

/-- The tokens of a text fit the same text elsewhere. -/
theorem whole_fits (d m m' : Nat) (fault : Option SyntaxError) : (whole d m m' fault).Fits where
  plain x hx := by simp [whole, renumber, hx]
  anonymous := renumber_anonymousName m m'
  whole _ := rfl
  last _ _ h := nomatch h

/-- In front of further lines a term is read as it is. -/
theorem front_term (l : Lexer) (b : List Char) : (front l b).term = id := by
  funext t
  simp [term, front, Term.restate_id]

end Piece

/-- Written variables have names of their own. -/
theorem Lexer.take_named (n : Nat) {l : Lexer} (hl : l.fault = none) :
    ∀ t ∈ (l.take n).1, t.kind = .variable → isAnonymous t.value = false := by
  intro t ht
  obtain ⟨l₁, hl₁, rfl⟩ := mem_take n l hl t ht
  exact (next_coherent hl₁).named

/-- The tokens in front of the last one, and those of the longer text. -/
theorem Lexer.Scans.goes_front {l l' : Lexer} {us : List Token} (h : l.Scans us l')
    (hl : l.fault = none) (b : List Char) :
    (Piece.front l' b).Goes (us ++ [l'.next.1]) (us ++ (l'.continued b).tokens.1) := by
  induction h with
  | done => exact .ended rfl
  | @more l l' ts hlast hrest ih =>
    have hnext := next_coherent hl
    have hfault := fault (.more hlast .done) hl
    refine .token ⟨rfl, rfl, rfl, rfl, hnext.named, fun h => ?_⟩ (ih hfault)
    rw [hlast] at h
    cases h

/-- All tokens of a text, and those of the same text elsewhere. -/
theorem Piece.goes_whole (d m m' : Nat) (fault : Option SyntaxError) (ts : List Token)
    (h : ∀ t ∈ ts, t.kind = .variable → isAnonymous t.value = false) :
    (whole d m m' fault).Goes ts (ts.map (Token.moved d)) := by
  induction ts with
  | nil => exact .whole rfl
  | cons t ts ih =>
    refine .token ⟨rfl, rfl, rfl, rfl, h t (List.mem_cons_self ..), fun _ => rfl⟩ ?_
    exact ih fun u hu => h u (List.mem_cons_of_mem _ hu)

/-- A text in front of a line break and the whole text are begun together. -/
theorem Cursor.ofText_tracks_front (a b : String) (n : Nat) {l' : Lexer} {us : List Token}
    (hs : (Lexer.ofText a).Scans us l') (hlast : l'.next.1.isLast = true) :
    (ofText a n).Tracks (.front l' b.toList) (ofText (a ++ "\n" ++ b) n) := by
  have htext : Lexer.ofText (a ++ "\n" ++ b) = (Lexer.ofText a).continued b.toList := by
    simp [Lexer.ofText, Lexer.continued]
  have hscans := hs.continued (b := b.toList) rfl
  refine ⟨.inl ?_, ⟨n, ?_, ?_⟩, ?_, ?_, (ofText_sound a n).closed⟩
  · rw [ofText_tokens, ofText_tokens, htext, hscans.tokens, hs.tokens, Lexer.tokens_last hlast]
    exact hs.goes_front rfl b.toList
  · rw [ofText_anonymous]
    exact (Nat.zero_add n).symm
  · rw [ofText_anonymous]
    exact (Nat.zero_add n).symm
  · rw [ofText_fault, hs.tokens, Lexer.tokens_last hlast]
    rfl
  · rw [ofText_fault, htext, hscans.tokens]
    rfl

/-- A text and the same text behind another one, with the fault `fault`. -/
theorem Cursor.ofText_tracks_whole {b : String} {d m : Nat} {c' : Cursor}
    (htokens : c'.tokens = Lexer.setOff ((Lexer.ofText b).tokens.1.map (Token.moved d)))
    (hfault : c'.fault = (ofText b m).fault.map (SyntaxError.moved d)) :
    (ofText b m).Tracks (.whole d m c'.anonymous (ofText b m).fault) c' := by
  have hgoes := Piece.goes_whole d m c'.anonymous (ofText b m).fault (Lexer.ofText b).tokens.1
    (Lexer.take_named _ rfl)
  rw [← ofText_tokens b m] at htokens hgoes
  obtain ⟨hcurrent, hrest⟩ := List.cons.inj htokens
  rcases hgoes.cons_inv with hon | ⟨ts', hts', halike, hrest'⟩
  · cases hon
  obtain ⟨-, rfl⟩ := List.cons.inj hts'
  refine ⟨.inr ⟨?_, ?_⟩, ⟨0, ofText_anonymous b m, rfl⟩, rfl, hfault, (ofText_sound b m).closed⟩
  · rw [hcurrent]
    exact ⟨halike.kind, halike.value, halike.quoted, halike.position, halike.named, halike.inner⟩
  · rw [hrest]
    exact hrest'

/-- What stands in the place of the end of a text when further lines follow it. -/
theorem Lexer.Scans.tokens_behind {a b : String} {l' : Lexer} {us : List Token}
    (hs : (Lexer.ofText a).Scans us l') (hkind : l'.next.1.kind = .eof) :
    (l'.continued b.toList).tokens =
      (setOff ((Lexer.ofText b).tokens.1.map (Token.moved (byteLength a.toList + 1))),
        (Lexer.ofText b).tokens.2.moved (byteLength a.toList + 1)) := by
  have hmoved : (⟨b.toList, 0 + byteLength a.toList + 1, none⟩ : Lexer) =
      (Lexer.ofText b).moved (byteLength a.toList + 1) := by
    simp [Lexer.ofText, Lexer.moved]
  have hwhole := tokens_continued (b := b.toList) rfl hs hkind
  rw [(hs.continued rfl).tokens] at hwhole
  simp only [Lexer.ofText, Prod.mk.injEq, List.append_cancel_left_eq] at hwhole
  have hb := Lexer.tokens_moved (d := byteLength a.toList + 1) (Lexer.ofText b)
  rw [← hmoved] at hb
  rw [hb] at hwhole
  exact Prod.ext hwhole.1 hwhole.2

/-- **A program may be read in pieces.**  When the text in front of a line break is a program, what
    follows the line break is read as by itself: its clauses follow those in front, at other places
    and with their anonymous variables numbered on from some `m'`, or it fails with the same error
    at another place. -/
theorem readProgram_pieces (g : Grammar) (a b : String) (n m : Nat) {cs : List Term}
    (h : readProgram g a n = .ok cs) :
    ∃ m', readProgram g (a ++ "\n" ++ b) n =
      match readProgram g b m with
      | .ok ds => .ok (cs ++
          ds.map (Term.restate (renumber m m') (placed (byteLength a.toList + 1)) id))
      | .error e => .error (e.moved (byteLength a.toList + 1)) := by
  obtain ⟨us, l', hs, hlast⟩ := Lexer.exists_scans (Lexer.ofText a)
  have hfits := Piece.front_fits b.toList hlast
  obtain ⟨c, c', htracks, hend, hsound, hprogram⟩ := Cursor.program_follows g hfits
    (Cursor.ofText_sound a n) (Cursor.ofText_sound (a ++ "\n" ++ b) n)
    (Cursor.ofText_tracks_front a b n hs hlast) h
  -- The clauses in front are read up to the end of their text.
  have hkind : c.current.kind = .eof := by simpa [Cursor.atEnd] using hend
  obtain ⟨hcurrent, htokens⟩ := htracks.at_last rfl (by simp [Token.isLast, hkind])
  rw [← hcurrent] at hkind
  have hbehind := hs.tokens_behind (b := b) hkind
  -- From there on the tokens are those of the further lines.
  have hwhole : (Cursor.ofText b m).Tracks _ c' :=
    Cursor.ofText_tracks_whole (by rw [← htokens, hbehind]) (by
      rw [htracks.fault', Cursor.ofText_fault]
      exact congrArg (fun r => r.2.fault) hbehind)
  have hfits' := Piece.whole_fits (byteLength a.toList + 1) m c'.anonymous
    (Cursor.ofText b m).fault
  refine ⟨c'.anonymous, ?_⟩
  rw [readProgram_eq, hprogram, readProgram_eq]
  cases hb : (Cursor.ofText b m).program g with
  | ok ds =>
    obtain ⟨c₁, c₁', h₁, hend₁, -, hds⟩ := Cursor.program_follows g hfits'
      (Cursor.ofText_sound b m) hsound hwhole hb
    rw [hds, Cursor.program_end (h₁.atEnd_of rfl hend₁), Piece.front_term, List.map_id]
    simp only [Except.map, List.append_nil]
    rfl
  | error e =>
    have hbroken : ¬ (Piece.whole (byteLength a.toList + 1) m c'.anonymous
        (Cursor.ofText b m).fault).Broken e := by
      rintro ⟨_, _, hon, -⟩
      cases hon
    rw [Cursor.program_fails g hfits' (Cursor.ofText_sound b m) hsound hwhole hb hbroken]
    rfl

/-- The second piece names an anonymous variable of its own, the first one has named one before. -/
theorem readProgram_pieces_anonymous :
    readProgram {} "p(_)." 0 = .ok [.app "p" [.var (anonymousName 1) 0] .none 0] ∧
      ∃ m', readProgram {} "p(_).\nq(_, X)." 0 =
        match readProgram {} "q(_, X)." 0 with
        | .ok ds => .ok ([.app "p" [.var (anonymousName 1) 0] .none 0] ++
            ds.map (Term.restate (renumber 0 m') (placed (byteLength "p(_).".toList + 1)) id))
        | .error e => .error (e.moved (byteLength "p(_).".toList + 1)) := by
  have hfirst : readProgram {} "p(_)." 0 =
      .ok [.app "p" [.var (anonymousName 1) 0] .none 0] := by
    with_unfolding_all rfl
  exact ⟨hfirst, readProgram_pieces {} "p(_)." "q(_, X)." 0 0 hfirst⟩

/-- **Which errors are final.**  An error that is not one of an unfinished text stays the same,
    at the same place, whatever lines follow, unless it says that terms are nested too deep at the
    very end: there the depth is checked before the end is seen. -/
theorem readProgram_definite (g : Grammar) (a b : String) (n : Nat) {e : SyntaxError}
    (h : readProgram g a n = .error e) (he : e.incomplete = false)
    (hdeep : ∀ last ∈ (Lexer.ofText a).tokens.1.getLast?,
      e ≠ ⟨.tooDeep, last.position, last.value⟩) :
    readProgram g (a ++ "\n" ++ b) n = .error e := by
  -- The last token of the text is where a line break and more text come in.
  obtain ⟨us, l', hs, hlast⟩ := Lexer.exists_scans (Lexer.ofText a)
  have htokens : (Lexer.ofText a).tokens = (us ++ [l'.next.1], l'.next.2) := by
    rw [hs.tokens, Lexer.tokens_last hlast]
  have hnext := Lexer.next_coherent (hs.fault rfl)
  by_cases hkept : l'.next.1.kind = .error ∧
      ∀ e', l'.next.2.fault = some e' → e'.incomplete = false
  · -- The text ends with a fault of its own, and nothing is read behind it.
    have htext : Lexer.ofText (a ++ "\n" ++ b) = (Lexer.ofText a).continued b.toList := by
      simp [Lexer.ofText, Lexer.continued]
    have hsame : Cursor.ofText (a ++ "\n" ++ b) n = Cursor.ofText a n := by
      rw [Cursor.ofText, htext, Lexer.tokens_kept rfl hs hkept.1 hkept.2]
      rfl
    rw [readProgram_eq, hsame]
    exact h
  -- Otherwise the tokens go on, and the error is none that says where the text ends.
  · have hfits := Piece.front_fits b.toList hlast
    rw [readProgram_eq, Cursor.program_fails g hfits (Cursor.ofText_sound a n)
      (Cursor.ofText_sound _ n) (Cursor.ofText_tracks_front a b n hs hlast) h ?_]
    · rfl
    rintro ⟨last, ts, hon, hinc | hfault | rfl⟩
    · rw [he] at hinc
      cases hinc
    · refine hkept ⟨?_, fun e' he' => ?_⟩
      · by_contra hkind
        rw [show (Piece.front l' b.toList).fault = l'.next.2.fault from rfl,
          hnext.fault hkind] at hfault
        cases hfault
      · obtain rfl : e' = e := Option.some.inj (he'.symm.trans hfault)
        exact he
    · obtain rfl : l'.next.1 = last := (Prod.mk.inj (Option.some.inj hon)).1
      exact hdeep _ (by rw [htokens]; simp) rfl

/-- The depth is checked before the end is seen, though the next line ends the list. -/
example : readProgram { maxDepth := 0 } "[" 0 = .error ⟨.tooDeep, 1, ""⟩ ∧
    readProgram { maxDepth := 0 } "[\n]." 0 = .ok [.const .nil (-1)] := by
  constructor <;> with_unfolding_all rfl

end PrologMachine
