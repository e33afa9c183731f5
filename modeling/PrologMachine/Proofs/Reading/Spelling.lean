/-
  PrologMachine.Proofs.Reading.Spelling ── **TERMS IN CANONICAL FORM ARE READ BACK.**

  `Spells` says which tokens spell a term the way terms are written: names, variables, compounds
  with their arguments in parentheses and lists in brackets, no operator between or before its
  operands.  Names of operators stand for themselves there, as plain atoms or as functor names,
  next to any delimiter.  The reader returns the term that the tokens spell, with any operators
  among which the comma binds looser than an argument.

    * `Spells`, `SpellsRest`: the canonical form.
    * `Grammar.Separates`, `Delimits`: the comma and the other tokens behind a term.
    * `Reading.Gives`: what an action yields and where it stops.
    * `Spells.reads`: reading back.
-/
import PrologMachine.Proofs.Reading.Count

namespace PrologMachine

open Reading

/-! ## §1. The canonical form. -/

mutual

/-- The tokens spell the term, which nests at most `d` deep.  Anonymous variables are numbered
    through, from behind the first number to the second one. -/
inductive Spells : (d n : Nat) → List Token → Term → Nat → Prop where
  /-- A variable. -/
  | named {d n : Nat} {t : Token} (hkind : t.kind = .variable) (hvalue : t.value ≠ "_") :
      Spells d n [t] (.var t.value 0) n
  /-- An anonymous variable. -/
  | anonymous {d n : Nat} {t : Token} (hkind : t.kind = .variable) (hvalue : t.value = "_") :
      Spells d n [t] (.var (anonymousName (n + 1)) 0) (n + 1)
  /-- An atom. -/
  | atom {d n : Nat} {t : Token} (hkind : t.kind = .name) : Spells d n [t] t.atom n
  /-- The empty list. -/
  | nil {d n : Nat} {left right : Token} (hleft : left.kind = .bracketOpen)
      (hright : right.kind = .bracketClose) : Spells d n [left, right] (.const .nil (-1)) n
  /-- A name right in front of its arguments. -/
  | compound {d n n₁ n' : Nat} {f left right : Token} {us vs : List Token} {arg : Term}
      {args : List Term} (hname : f.kind = .name) (hleft : left.kind = .parenOpen)
      (hlayout : left.layout = false) (harg : Spells d n us arg n₁)
      (hrest : SpellsRest d n₁ vs args n') (hright : right.kind = .parenClose) :
      Spells (d + 1) n (f :: left :: (us ++ vs ++ [right]))
        (.app f.value (arg :: args) .none f.position) n'
  /-- A list of its elements. -/
  | list {d n n₁ n' : Nat} {left right : Token} {us vs : List Token} {head : Term}
      {elements : List Term} (hleft : left.kind = .bracketOpen) (hhead : Spells d n us head n₁)
      (hrest : SpellsRest d n₁ vs elements n') (hright : right.kind = .bracketClose) :
      Spells (d + 1) n (left :: (us ++ vs ++ [right]))
        (Term.ofList (head :: elements) (.const .nil (-1))) n'
  /-- A list of elements in front of a tail. -/
  | partialList {d n n₁ n₂ n' : Nat} {left bar right : Token} {us vs ws : List Token}
      {head tail : Term} {elements : List Term} (hleft : left.kind = .bracketOpen)
      (hhead : Spells d n us head n₁) (hrest : SpellsRest d n₁ vs elements n₂)
      (hbar : bar.kind = .bar) (htail : Spells d n₂ ws tail n')
      (hright : right.kind = .bracketClose) :
      Spells (d + 1) n (left :: (us ++ vs ++ bar :: (ws ++ [right])))
        (Term.ofList (head :: elements) tail) n'

/-- The tokens spell further terms, each behind a comma. -/
inductive SpellsRest : (d n : Nat) → List Token → List Term → Nat → Prop where
  /-- No more terms. -/
  | done {d n : Nat} : SpellsRest d n [] [] n
  /-- One more. -/
  | more {d n n₁ n' : Nat} {comma : Token} {us vs : List Token} {t : Term} {ts : List Term}
      (hcomma : comma.kind = .comma) (ht : Spells d n us t n₁)
      (hrest : SpellsRest d n₁ vs ts n') : SpellsRest d n (comma :: (us ++ vs)) (t :: ts) n'

end

/-- A term begins with a name, a variable or an opening bracket. -/
theorem Spells.exists_cons {d n n' : Nat} {us : List Token} {t : Term} (h : Spells d n us t n') :
    ∃ u vs, us = u :: vs ∧ (u.kind = .name ∨ u.kind = .variable ∨ u.kind = .bracketOpen) := by
  cases h with
  | named hkind => exact ⟨_, _, rfl, .inr (.inl hkind)⟩
  | anonymous hkind => exact ⟨_, _, rfl, .inr (.inl hkind)⟩
  | atom hkind => exact ⟨_, _, rfl, .inl hkind⟩
  | nil hleft => exact ⟨_, _, rfl, .inr (.inr hleft)⟩
  | compound hname => exact ⟨_, _, rfl, .inl hname⟩
  | list hleft => exact ⟨_, _, rfl, .inr (.inr hleft)⟩
  | partialList hleft => exact ⟨_, _, rfl, .inr (.inr hleft)⟩

/-! ## §2. Delimiters. -/

/-- The comma is an operator that binds looser than an argument, so it stands between arguments. -/
def Grammar.Separates (g : Grammar) : Prop :=
  ∃ d, g.operators.between? "," = some d ∧ 1000 ≤ d.priority

/-- The standard operators leave punctuation alone. -/
theorem Grammar.separates_standard (D : Int) : (Grammar.mk .standard D).Separates :=
  ⟨⟨",", 1000, .xfy⟩, rfl, by decide⟩

/-- Behind a term of priority `max` at most, the token cannot be part of it. -/
def Delimits (max : Int) (t : Token) : Prop :=
  t.kind = .stop ∨ t.kind = .parenClose ∨ t.kind = .bracketClose ∨ t.kind = .bar ∨
    t.kind = .comma ∧ max < 1000

/-- The token ends a sequence of arguments. -/
def Finishes (t : Token) : Prop :=
  t.kind = .parenClose ∨ t.kind = .bracketClose ∨ t.kind = .bar

/-- What ends an argument ends a term. -/
theorem Finishes.delimits {t : Token} (h : Finishes t) : Delimits 999 t := by
  rcases h with h | h | h <;> simp [Delimits, h]

theorem Finishes.ne_comma {t : Token} (h : Finishes t) : t.kind ≠ .comma := by
  rcases h with h | h | h <;> simp [h]

/-- What follows an element: a comma or the end of the sequence. -/
theorem SpellsRest.exists_cons {d n n' : Nat} {vs : List Token} {ts : List Term}
    (h : SpellsRest d n vs ts n') {next : Token} (hnext : Finishes next) (rest : List Token) :
    ∃ u us, vs ++ next :: rest = u :: us ∧ Delimits 999 u := by
  cases h with
  | done => exact ⟨_, _, rfl, hnext.delimits⟩
  | more hcomma => exact ⟨_, _, rfl, by simp [Delimits, hcomma]⟩

namespace Delimits

variable {g : Grammar} {max : Int} {t : Token}

/-- A token that delimits neither opens arguments nor is a number. -/
theorem kind_ne (h : Delimits max t) : t.kind ≠ .parenOpen ∧ t.kind ≠ .number := by
  rcases h with h | h | h | h | ⟨h, -⟩ <;> simp [h]

/-- No operand starts with it, so a prefix operator in front of it is an atom. -/
theorem startsTerm (h : Delimits max t) : g.startsTerm t = false := by
  rcases h with h | h | h | h | ⟨h, -⟩ <;> simp [Grammar.startsTerm, h]

/-- The term in front of it does not go on with it. -/
theorem between? (hg : g.Separates) (h : Delimits max t) :
    ∀ d, g.between? t = some d → max < d.priority := by
  intro d hd
  rcases h with h | h | h | h | ⟨h, hmax⟩ <;> simp only [Grammar.between?, h] at hd
  case inr.inr.inr.inr =>
    obtain ⟨e, he, hloose⟩ := hg
    obtain rfl : e = d := by simpa [he] using hd
    omega
  all_goals cases hd

end Delimits

/-! ## §3. Actions. -/

/-- A cursor at the first of the tokens. -/
def Cursor.over (ts : List Token) (fault : Option SyntaxError) (n : Nat) : Cursor :=
  ⟨ts.headD default, ts.tail, fault, n⟩

/-- Begun at `c`, the action yields the value and stops at `c'`. -/
def Reading.Gives {α : Type} (x : Reading α) (c : Cursor) (a : α) (c' : Cursor) : Prop :=
  x.run.run c = (.ok a, c')

namespace Reading.Gives

variable {α β : Type} {c c₁ c₂ : Cursor} {a : α} {b : β} {t : Token} {ts : List Token}
  {fault : Option SyntaxError} {n : Nat}

protected theorem pure : Reading.Gives (pure a) c a c := rfl

protected theorem bind {x : Reading α} {k : α → Reading β} (hx : x.Gives c a c₁)
    (hk : (k a).Gives c₁ b c₂) : (x >>= k).Gives c b c₂ := (run_bind_ok hx k).trans hk

/-- The tokens that are left. -/
protected theorem get_bind {k : Cursor → Reading β} (h : (k c).Gives c b c₂) :
    Reading.Gives (get >>= k) c b c₂ := h

protected theorem current_bind {k : Token → Reading β}
    (h : (k t).Gives (.over (t :: ts) fault n) b c₂) :
    Reading.Gives (Reading.current >>= k) (.over (t :: ts) fault n) b c₂ := h

/-- Going on to the next token. -/
protected theorem advance_bind {k : Unit → Reading β} (hts : ts ≠ [])
    (h : (k ()).Gives (.over ts fault n) b c₂) :
    Reading.Gives (Reading.advance >>= k) (.over (t :: ts) fault n) b c₂ := by
  obtain ⟨u, us, rfl⟩ := List.exists_cons_of_ne_nil hts
  exact h

/-- Going on from the expected token. -/
protected theorem expect_bind {kind : TokenKind} {k : Unit → Reading β} (hkind : t.kind = kind)
    (hts : ts ≠ []) (h : (k ()).Gives (.over ts fault n) b c₂) :
    Reading.Gives (Reading.expect kind >>= k) (.over (t :: ts) fault n) b c₂ := by
  obtain ⟨u, us, rfl⟩ := List.exists_cons_of_ne_nil hts
  have hexpect : (Reading.expect kind).Gives (.over (t :: u :: us) fault n) ()
      (.over (u :: us) fault n) := by
    refine Gives.current_bind ?_
    rw [if_pos hkind]
    rfl
  exact hexpect.bind h

end Reading.Gives

/-! ## §4. Reading back. -/

section Back

variable {g : Grammar} {max depth : Int} {d n n' count : Nat} {t next : Token}
  {ts us vs rest : List Token} {left : Term} {fault : Option SyntaxError}

/-- The term in front of a delimiter is complete. -/
theorem Delimits.climb (hg : g.Separates) (h : Delimits max next) (hcount : 0 < count)
    (priority : Int) :
    Reading.Gives (g.climb count left priority max depth)
      (.over (next :: rest) fault n) left (.over (next :: rest) fault n) := by
  obtain ⟨count, rfl⟩ : ∃ k, count = k + 1 := ⟨count - 1, by omega⟩
  rw [Grammar.climb]
  refine Gives.current_bind ?_
  split
  · exact .pure
  · next e he =>
    rw [if_pos (h.between? hg e he)]
    exact .pure

/-- An operand of priority zero in front of a delimiter is a term. -/
theorem Delimits.term {c : Cursor} (hg : g.Separates) (h : Delimits max next)
    (hcount : 1 < count) {r : Term}
    (hoperand : Reading.Gives (g.operand (count - 1) max depth) c (r, 0)
      (.over (next :: rest) fault n)) :
    Reading.Gives (g.term count max depth) c r
      (.over (next :: rest) fault n) := by
  obtain ⟨count, rfl⟩ : ∃ k, count = k + 1 := ⟨count - 1, by omega⟩
  rw [Grammar.term]
  exact hoperand.bind (h.climb hg (by omega) 0)

/-- A name in front of a delimiter is an atom, also one that is an operator elsewhere. -/
theorem Delimits.atom (h : Delimits max next) (hkind : t.kind = .name)
    (hdepth : depth ≤ g.maxDepth) (hcount : 0 < count) :
    Reading.Gives (g.operand count max depth)
      (.over (t :: next :: rest) fault n) (t.atom, 0) (.over (next :: rest) fault n) := by
  obtain ⟨count, rfl⟩ : ∃ k, count = k + 1 := ⟨count - 1, by omega⟩
  rw [Grammar.operand, if_neg (Int.not_lt.2 hdepth)]
  refine Gives.current_bind ?_
  simp only [hkind]
  refine Gives.advance_bind (List.cons_ne_nil _ _) (Gives.current_bind ?_)
  simp only [h.kind_ne.1, h.kind_ne.2, h.startsTerm, decide_false, Bool.false_and, Bool.and_false,
    Bool.false_eq_true, if_false]
  repeat' split
  all_goals exact .pure

/-- A variable with a name. -/
theorem Reading.Gives.named (hkind : t.kind = .variable) (hvalue : t.value ≠ "_")
    (hdepth : depth ≤ g.maxDepth) (hcount : 0 < count) (hts : ts ≠ []) :
    Reading.Gives (g.operand count max depth) (.over (t :: ts) fault n)
      (.var t.value 0, 0) (.over ts fault n) := by
  obtain ⟨count, rfl⟩ : ∃ k, count = k + 1 := ⟨count - 1, by omega⟩
  rw [Grammar.operand, if_neg (Int.not_lt.2 hdepth)]
  refine Gives.current_bind ?_
  simp only [hkind]
  refine Gives.advance_bind hts (Gives.bind ?_ .pure)
  rw [variableTerm, if_neg hvalue]
  exact .pure

/-- A variable without a name. -/
theorem Reading.Gives.anonymous (hkind : t.kind = .variable) (hvalue : t.value = "_")
    (hdepth : depth ≤ g.maxDepth) (hcount : 0 < count) (hts : ts ≠ []) :
    Reading.Gives (g.operand count max depth) (.over (t :: ts) fault n)
      (.var (anonymousName (n + 1)) 0, 0) (.over ts fault (n + 1)) := by
  obtain ⟨count, rfl⟩ : ∃ k, count = k + 1 := ⟨count - 1, by omega⟩
  rw [Grammar.operand, if_neg (Int.not_lt.2 hdepth)]
  refine Gives.current_bind ?_
  simp only [hkind]
  refine Gives.advance_bind hts (Gives.bind ?_ .pure)
  rw [variableTerm, if_pos hvalue]
  rfl

theorem Reading.Gives.nil {right : Token} (hleft : t.kind = .bracketOpen)
    (hright : right.kind = .bracketClose) (hdepth : depth ≤ g.maxDepth) (hcount : 0 < count)
    (hts : ts ≠ []) :
    Reading.Gives (g.operand count max depth)
      (.over (t :: right :: ts) fault n) (.const .nil (-1), 0) (.over ts fault n) := by
  obtain ⟨count, rfl⟩ : ∃ k, count = k + 1 := ⟨count - 1, by omega⟩
  rw [Grammar.operand, if_neg (Int.not_lt.2 hdepth)]
  refine Gives.current_bind ?_
  simp only [hleft]
  refine Gives.advance_bind (List.cons_ne_nil _ _) (Gives.current_bind ?_)
  rw [if_pos hright]
  exact Gives.advance_bind hts .pure

/-- A name right in front of its arguments. -/
theorem Reading.Gives.compound {left right : Token} {args : List Term} (hname : t.kind = .name)
    (hleft : left.kind = .parenOpen) (hlayout : left.layout = false)
    (hdepth : depth ≤ g.maxDepth) (hts : ts ≠ []) (hrest : rest ≠ [])
    (hargs : Reading.Gives (g.elements count depth) (.over ts fault n)
      args (.over (right :: rest) fault n')) (hright : right.kind = .parenClose) :
    Reading.Gives (g.operand (count + 1) max depth)
      (.over (t :: left :: ts) fault n) (.app t.value args .none t.position, 0)
      (.over rest fault n') := by
  rw [Grammar.operand, if_neg (Int.not_lt.2 hdepth)]
  refine Gives.current_bind ?_
  simp only [hname]
  refine Gives.advance_bind (List.cons_ne_nil _ _) (Gives.current_bind ?_)
  simp only [hleft, hlayout, decide_true, Bool.not_false, Bool.and_self, if_true]
  exact Gives.advance_bind hts (hargs.bind (Gives.expect_bind hright hrest .pure))

/-- A bracketed list without a bar. -/
theorem Reading.Gives.list {u right : Token} {elements : List Term} (hleft : t.kind = .bracketOpen)
    (hdepth : depth ≤ g.maxDepth)
    (hu : u.kind = .name ∨ u.kind = .variable ∨ u.kind = .bracketOpen)
    (hrest : rest ≠ [])
    (helements : Reading.Gives (g.elements count depth)
      (.over (u :: us) fault n) elements (.over (right :: rest) fault n'))
    (hright : right.kind = .bracketClose) :
    Reading.Gives (g.operand (count + 1) max depth)
      (.over (t :: u :: us) fault n) (Term.ofList elements (.const .nil (-1)), 0)
      (.over rest fault n') := by
  rw [Grammar.operand, if_neg (Int.not_lt.2 hdepth)]
  refine Gives.current_bind ?_
  simp only [hleft]
  refine Gives.advance_bind (List.cons_ne_nil _ _) (Gives.current_bind ?_)
  rw [if_neg (by rcases hu with hu | hu | hu <;> simp [hu])]
  refine helements.bind (Gives.current_bind ?_)
  rw [if_neg (by simp [hright])]
  exact Gives.pure.bind (Gives.expect_bind hright hrest .pure)

/-- A bracketed list with a bar. -/
theorem Reading.Gives.partialList {u bar right : Token} {elements : List Term} {tail : Term}
    {n₁ : Nat} (hleft : t.kind = .bracketOpen) (hdepth : depth ≤ g.maxDepth)
    (hu : u.kind = .name ∨ u.kind = .variable ∨ u.kind = .bracketOpen)
    (hts : ts ≠ []) (hrest : rest ≠ [])
    (helements : Reading.Gives (g.elements count depth)
      (.over (u :: us) fault n) elements (.over (bar :: ts) fault n₁)) (hbar : bar.kind = .bar)
    (htail : Reading.Gives (g.term count 999 (depth + 1))
      (.over ts fault n₁) tail (.over (right :: rest) fault n'))
    (hright : right.kind = .bracketClose) :
    Reading.Gives (g.operand (count + 1) max depth)
      (.over (t :: u :: us) fault n) (Term.ofList elements tail, 0) (.over rest fault n') := by
  rw [Grammar.operand, if_neg (Int.not_lt.2 hdepth)]
  refine Gives.current_bind ?_
  simp only [hleft]
  refine Gives.advance_bind (List.cons_ne_nil _ _) (Gives.current_bind ?_)
  rw [if_neg (by rcases hu with hu | hu | hu <;> simp [hu])]
  refine helements.bind (Gives.current_bind ?_)
  rw [if_pos hbar]
  exact Gives.advance_bind hts (htail.bind (Gives.expect_bind hright hrest .pure))

mutual

/-- **Terms in canonical form are read back**, at any priority that arguments may have, when the
    depth allows it. -/
theorem Spells.reads {g : Grammar} {max depth : Int} {d n n' count : Nat} {us rest : List Token}
    {t : Term} {next : Token} {fault : Option SyntaxError} (hg : g.Separates)
    (h : Spells d n us t n') (hdepth : depth + d ≤ g.maxDepth)
    (hcount : 3 * us.length ≤ count) (hnext : Delimits max next) :
    Reading.Gives (g.term count max depth)
      (.over (us ++ next :: rest) fault n) t (.over (next :: rest) fault n') := by
  have hdeep : depth ≤ g.maxDepth := by omega
  have hne (t : Token) (ts : List Token) : t :: ts ≠ [] := List.cons_ne_nil t ts
  -- Each token takes three units of fuel, and each level of nesting one of the depth.
  cases h with
  | named hkind hvalue =>
    simp only [List.length_singleton] at hcount
    exact hnext.term hg (by omega) (.named hkind hvalue hdeep (by omega) (hne _ _))
  | anonymous hkind hvalue =>
    simp only [List.length_singleton] at hcount
    exact hnext.term hg (by omega) (.anonymous hkind hvalue hdeep (by omega) (hne _ _))
  | atom hkind =>
    simp only [List.length_singleton] at hcount
    exact hnext.term hg (by omega) (hnext.atom hkind hdeep (by omega))
  | nil hleft hright =>
    simp only [List.length_cons, List.length_nil] at hcount
    exact hnext.term hg (by omega) (.nil hleft hright hdeep (by omega) (hne _ _))
  | @compound d _ n₁ _ f left right vs ws arg args hname hleft hlayout harg hrest hright =>
    simp only [List.length_cons, List.length_append, List.length_nil] at hcount
    obtain ⟨count, rfl⟩ : ∃ k, count = k + 3 := ⟨count - 3, by omega⟩
    -- What stands behind the first argument does not belong to it, since it delimits.
    have hfinish : Finishes right := .inl hright
    obtain ⟨u, us, hus, hu⟩ := hrest.exists_cons hfinish (next :: rest)
    have hfirst : Reading.Gives (g.term count 999 (depth + 1))
        (.over (vs ++ (ws ++ right :: next :: rest)) fault n) arg
        (.over (ws ++ right :: next :: rest) fault n₁) := by
      rw [hus]
      exact harg.reads hg (by omega) (by omega) hu
    have hargs := hrest.reads hg (by omega) (by omega) hfinish hfirst
    have htokens : f :: left :: (vs ++ ws ++ [right]) ++ next :: rest =
        f :: left :: (vs ++ (ws ++ right :: next :: rest)) := by simp
    rw [htokens]
    exact hnext.term hg (by omega) (.compound hname hleft hlayout hdeep (by simp) (hne _ _) hargs
      hright)
  | @list d _ n₁ _ left right vs ws head elements hleft hhead hrest hright =>
    simp only [List.length_cons, List.length_append, List.length_nil] at hcount
    obtain ⟨count, rfl⟩ : ∃ k, count = k + 3 := ⟨count - 3, by omega⟩
    have hfinish : Finishes right := .inr (.inl hright)
    obtain ⟨u, us, hus, hu⟩ := hrest.exists_cons hfinish (next :: rest)
    have hfirst : Reading.Gives (g.term count 999 (depth + 1))
        (.over (vs ++ (ws ++ right :: next :: rest)) fault n) head
        (.over (ws ++ right :: next :: rest) fault n₁) := by
      rw [hus]
      exact hhead.reads hg (by omega) (by omega) hu
    have helements := hrest.reads hg (by omega) (by omega) hfinish hfirst
    obtain ⟨v, vs', rfl, hv⟩ := hhead.exists_cons
    have htokens : left :: (v :: vs' ++ ws ++ [right]) ++ next :: rest =
        left :: v :: (vs' ++ (ws ++ right :: next :: rest)) := by simp
    rw [htokens]
    exact hnext.term hg (by omega) (.list hleft hdeep hv (hne _ _) helements hright)
  | @partialList d _ n₁ n₂ _ left bar right vs ws xs head tail elements hleft hhead hrest hbar htail
      hright =>
    simp only [List.length_cons, List.length_append, List.length_nil] at hcount
    obtain ⟨count, rfl⟩ : ∃ k, count = k + 3 := ⟨count - 3, by omega⟩
    have hfinish : Finishes bar := .inr (.inr hbar)
    obtain ⟨u, us, hus, hu⟩ := hrest.exists_cons hfinish (xs ++ right :: next :: rest)
    have hfirst : Reading.Gives (g.term count 999 (depth + 1))
        (.over (vs ++ (ws ++ bar :: (xs ++ right :: next :: rest))) fault n) head
        (.over (ws ++ bar :: (xs ++ right :: next :: rest)) fault n₁) := by
      rw [hus]
      exact hhead.reads hg (by omega) (by omega) hu
    have helements := hrest.reads hg (by omega) (by omega) hfinish hfirst
    have htail' : Reading.Gives (g.term (count + 1) 999 (depth + 1))
        (.over (xs ++ right :: next :: rest) fault n₂) tail
        (.over (right :: next :: rest) fault n') :=
      htail.reads hg (by omega) (by omega) (Finishes.delimits (.inr (.inl hright)))
    obtain ⟨v, vs', rfl, hv⟩ := hhead.exists_cons
    have htokens : left :: (v :: vs' ++ ws ++ bar :: (xs ++ [right])) ++ next :: rest =
        left :: v :: (vs' ++ (ws ++ bar :: (xs ++ right :: next :: rest))) := by simp
    rw [htokens]
    exact hnext.term hg (by omega) (.partialList hleft hdeep hv (by simp) (hne _ _) helements hbar
      htail' hright)
termination_by us.length
decreasing_by
  all_goals
    subst_vars
    simp only [List.length_cons, List.length_append]
    omega

/-- Arguments in canonical form are read back, one after the other. -/
theorem SpellsRest.reads {g : Grammar} {depth : Int} {d n n' count : Nat} {vs rest : List Token}
    {t : Term} {ts : List Term} {next : Token} {fault : Option SyntaxError} {c : Cursor}
    (hg : g.Separates) (h : SpellsRest d n vs ts n') (hdepth : depth + 1 + d ≤ g.maxDepth)
    (hcount : 3 * vs.length ≤ count) (hnext : Finishes next)
    (hfirst : Reading.Gives (g.term count 999 (depth + 1)) c t
      (.over (vs ++ next :: rest) fault n)) :
    Reading.Gives (g.elements (count + 1) depth) c (t :: ts)
      (.over (next :: rest) fault n') := by
  rw [Grammar.elements]
  cases h with
  | done =>
    refine hfirst.bind (Gives.current_bind ?_)
    rw [if_neg hnext.ne_comma]
    exact .pure
  | @more _ _ n₁ _ comma us ws u ts' hcomma hu hrest =>
    -- Behind the comma there is fuel left for the next argument and for the others.
    simp only [List.length_cons, List.length_append] at hcount
    obtain ⟨count, rfl⟩ : ∃ k, count = k + 1 := ⟨count - 1, by omega⟩
    have htokens : comma :: (us ++ ws) ++ next :: rest =
        comma :: (us ++ (ws ++ next :: rest)) := by simp
    rw [htokens] at hfirst
    refine hfirst.bind (Gives.current_bind ?_)
    rw [if_pos hcomma]
    refine Gives.advance_bind (by simp) (Gives.bind (a := u :: ts') ?_ .pure)
    -- What stands behind the argument is the next comma or the end.
    obtain ⟨v, vs', hvs, hv⟩ := hrest.exists_cons hnext rest
    refine hrest.reads hg hdepth (by omega) hnext ?_
    rw [hvs]
    exact hu.reads hg hdepth (by omega) hv
termination_by vs.length
decreasing_by
  all_goals
    subst_vars
    simp only [List.length_cons, List.length_append]
    omega

end

/-- **A clause in canonical form is read back**, shaped for the compiler. -/
theorem Spells.readClause_of_separates (hg : g.Separates) {source : String} {l : Lexer} {t : Term}
    {stop eof : Token} (h : Spells d n us t n')
    (htokens : (Lexer.ofText source).tokens = (us ++ [stop, eof], l))
    (hstop : stop.kind = .stop) (heof : eof.kind = .eof) (hdepth : (d : Int) ≤ g.maxDepth) :
    PrologMachine.readClause g source n = .ok t.shape := by
  -- The text is the tokens of the term, the full stop and the end.
  have hcursor : Cursor.ofText source n = .over (us ++ [stop, eof]) l.fault n := by
    rw [Cursor.ofText, htokens]
    cases us <;> rfl
  have hbound : 3 * us.length ≤ (Cursor.over (us ++ [stop, eof]) l.fault n).bound := by
    simp only [Cursor.bound, Cursor.over, List.length_tail, List.length_append, List.length_cons,
      List.length_nil]
    omega
  have hterm : Reading.Gives (g.term _ 1200 0)
      (.over (us ++ [stop, eof]) l.fault n) t (.over [stop, eof] l.fault n') :=
    h.reads hg (by omega) hbound (.inl hstop)
  obtain ⟨u, vs, rfl, hu⟩ := h.exists_cons
  have hclause : Reading.Gives g.clause
      (.over (u :: vs ++ [stop, eof]) l.fault n) t (.over [eof] l.fault n') := by
    refine Gives.get_bind ?_
    rcases hu with hu | hu | hu <;>
      simp only [Cursor.over, List.cons_append, List.headD_cons, hu] <;>
      exact hterm.bind (Gives.expect_bind hstop (List.cons_ne_nil _ _) .pure)
  have hnext : (Cursor.ofText source n).next g =
      (.ok t.shape, .over [eof] l.fault n') := by
    rw [hcursor, Cursor.next, hclause]
    rfl
  have hstart : (Cursor.ofText source n).atEnd = false := by
    rw [hcursor]
    rcases hu with hu | hu | hu <;> simp [Cursor.atEnd, Cursor.over, hu]
  have hend : (Cursor.over [eof] l.fault n').atEnd = true := by
    simp [Cursor.atEnd, Cursor.over, heof]
  simp only [PrologMachine.readClause, hstart, hnext, hend, Bool.false_eq_true, if_false, if_true]

/-- So it is with the standard operators. -/
theorem Spells.readClause {D : Int} {source : String} {l : Lexer} {t : Term} {stop eof : Token}
    (h : Spells d n us t n') (htokens : (Lexer.ofText source).tokens = (us ++ [stop, eof], l))
    (hstop : stop.kind = .stop) (heof : eof.kind = .eof) (hdepth : (d : Int) ≤ D) :
    PrologMachine.readClause ⟨.standard, D⟩ source n = .ok t.shape :=
  h.readClause_of_separates (Grammar.separates_standard D) htokens hstop heof hdepth

end Back

end PrologMachine
