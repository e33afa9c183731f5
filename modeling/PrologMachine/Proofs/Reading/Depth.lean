/-
  PrologMachine.Proofs.Reading.Depth ── **HOW DEEP TERMS NEST THAT WERE READ.**

  The reader goes one level deeper for an argument, an element of a list, what stands in
  parentheses, what a prefix operator stands before, and what stands on the right of an infix
  operator.  It goes no deeper for what stands on the left: that was read before the operator was
  seen.  Nor do the elements of a list lie one deeper than the other.

    * `Term.Nests`: how deep a term nests, leaving out left operands and the spines of lists.
    * `Grammar.nests`: the four readers keep to the depth that is left to them.
    * `Cursor.next_nests`: every clause keeps to the depth of the grammar.
-/
import PrologMachine.Proofs.Reading.Count

namespace PrologMachine

/-! ## §1. Nesting. -/

namespace Term

/-- The term nests compounds at most `d` deep, where neither the left one of two arguments nor the
    tail of a list lies deeper than the whole. -/
inductive Nests : Nat → Term → Prop where
  /-- Variables do not nest. -/
  | var {d : Nat} {x : String} {id : Nat} : Nests d (.var x id)
  /-- Nor do constants. -/
  | const {d : Nat} {a : Atomic} {pos : Int} : Nests d (.const a pos)
  /-- The arguments of a compound lie one deeper. -/
  | app {d : Nat} {f : String} {args : List Term} {attrs : Attrs} {pos : Int}
      (h : ∀ t ∈ args, Nests d t) : Nests (d + 1) (.app f args attrs pos)
  /-- What is on the left of an operator lies no deeper. -/
  | operation {d : Nat} {f : String} {l r : Term} {attrs : Attrs} {pos : Int}
      (hl : Nests (d + 1) l) (hr : Nests d r) : Nests (d + 1) (.app f [l, r] attrs pos)
  /-- What follows an element of a list lies no deeper. -/
  | cell {d : Nat} {e t : Term} {attrs : Attrs} {pos : Int}
      (he : Nests d e) (ht : Nests (d + 1) t) : Nests (d + 1) (.app "cons" [e, t] attrs pos)

variable {d d' : Nat} {t : Term}

namespace Nests

/-- What nests within a depth nests within a greater one. -/
theorem mono (h : Nests d t) : ∀ {d'}, d ≤ d' → Nests d' t := by
  induction h with
  | var => exact fun _ => .var
  | const => exact fun _ => .const
  | app _ ih =>
    rintro (_ | d') hd
    · exact absurd hd (Nat.not_succ_le_zero _)
    · exact .app fun t ht => ih t ht (Nat.le_of_succ_le_succ hd)
  | operation _ _ ihl ihr =>
    rintro (_ | d') hd
    · exact absurd hd (Nat.not_succ_le_zero _)
    · exact .operation (ihl hd) (ihr (Nat.le_of_succ_le_succ hd))
  | cell _ _ ihe iht =>
    rintro (_ | d') hd
    · exact absurd hd (Nat.not_succ_le_zero _)
    · exact .cell (ihe (Nat.le_of_succ_le_succ hd)) (iht hd)

/-- A list nests one deeper than its elements and its tail. -/
theorem ofList {es : List Term} (hes : ∀ e ∈ es, Nests d e) (ht : Nests d t) :
    Nests (d + 1) (Term.ofList es t) := by
  induction es with
  | nil => exact ht.mono (Nat.le_succ d)
  | cons e es ih =>
    exact .cell (hes e List.mem_cons_self) (ih fun e' he' => hes e' (List.mem_cons_of_mem e he'))

/-- Each of the shaped terms comes from one term. -/
theorem mem_shapes {ts : List Term} {u : Term} (hu : u ∈ Term.shapes ts) :
    ∃ t ∈ ts, u = t.shape := by
  induction ts with
  | nil => rw [Term.shapes] at hu; cases hu
  | cons t ts ih =>
    rw [Term.shapes] at hu
    rcases List.mem_cons.1 hu with rfl | hu
    · exact ⟨t, List.mem_cons_self, rfl⟩
    · obtain ⟨t', ht', rfl⟩ := ih hu
      exact ⟨t', List.mem_cons_of_mem t ht', rfl⟩

/-- Shaping gives compounds other names only. -/
theorem shape (h : Nests d t) : Nests d t.shape := by
  induction h with
  | var => exact .var
  | const => exact .const
  | app _ ih =>
    have hargs : ∀ u ∈ Term.shapes _, Nests _ u := fun u hu => by
      obtain ⟨t, ht, rfl⟩ := mem_shapes hu
      exact ih t ht
    rw [Term.shape]
    split <;> exact .app hargs
  | operation _ _ ihl ihr =>
    rw [Term.shape]
    split <;> exact .operation ihl ihr
  | cell _ _ ihe iht => exact .cell ihe iht

end Nests

end Term

/-! ## §2. Actions. -/

namespace Reading

variable {α β : Type} {P : α → Prop} {Q : β → Prop}

/-- What the action yields, wherever it is begun. -/
def Admits (x : Reading α) (P : α → Prop) : Prop := ∀ c a, (x.run.run c).1 = .ok a → P a

namespace Admits

/-- Nothing is said of what the action yields. -/
protected theorem any (x : Reading α) : Admits x fun _ => True := fun _ _ _ => trivial

protected theorem pure {a : α} (h : P a) : Admits (pure a) P := fun _ b hb => by
  obtain rfl : a = b := Except.ok.inj hb
  exact h

protected theorem throw {e : SyntaxError} : Admits (throw e : Reading α) P :=
  fun _ _ h => nomatch h

protected theorem fail {fault : SyntaxFault} : Admits (Reading.fail fault : Reading α) P :=
  fun _ _ h => nomatch h

protected theorem bind {x : Reading α} {f : α → Reading β} (hx : Admits x P)
    (hf : ∀ a, P a → Admits (f a) Q) : Admits (x >>= f) Q := by
  intro c b hb
  rcases hxc : x.run.run c with ⟨e | a, c₁⟩
  · rw [run_bind_error hxc] at hb
    cases hb
  · rw [run_bind_ok hxc] at hb
    exact hf a (hx c a (by rw [hxc])) c₁ b hb

/-- What comes behind an action that nothing is known of. -/
protected theorem after {x : Reading α} {f : α → Reading β} (hf : ∀ a, Admits (f a) Q) :
    Admits (x >>= f) Q :=
  (Admits.any x).bind fun a _ => hf a

protected theorem ite {p : Prop} [Decidable p] {x y : Reading α} (hx : p → Admits x P)
    (hy : ¬ p → Admits y P) : Admits (if p then x else y) P := by
  split
  · next h => exact hx h
  · next h => exact hy h

end Admits

end Reading

/-! ## §3. The four readers. -/

namespace Grammar

open Reading

variable {g : Grammar} {n : Nat} {depth : Int} {f : String} {args : List Term} {l r t : Term}
  {attrs : Attrs} {pos : Int}

/-- The term may stand at this depth. -/
structure Allows (g : Grammar) (depth : Int) (t : Term) : Prop where
  /-- Anything may. -/
  le : depth ≤ g.maxDepth
  /-- The term keeps to what is left. -/
  nests : t.Nests (g.maxDepth - depth).toNat

/-- One level deeper there is one level less. -/
theorem toNat_sub_depth (h : depth + 1 ≤ g.maxDepth) :
    (g.maxDepth - depth).toNat = (g.maxDepth - (depth + 1)).toNat + 1 := by
  omega

namespace Allows

/-- What may stand deeper may stand here. -/
theorem outer (h : g.Allows (depth + 1) t) : g.Allows depth t :=
  ⟨Int.le_of_lt h.le, h.nests.mono (by have := h.le; omega)⟩

/-- A compound term is allowed where its arguments are one level down. -/
theorem app (hargs : ∀ t ∈ args, g.Allows (depth + 1) t) (hsome : args ≠ []) :
    g.Allows depth (.app f args attrs pos) := by
  obtain ⟨t, ht⟩ := List.exists_mem_of_ne_nil args hsome
  refine ⟨(hargs t ht).outer.le, ?_⟩
  rw [toNat_sub_depth (hargs t ht).le]
  exact .app fun t ht => (hargs t ht).nests

/-- An operation charges its right operand only. -/
theorem operation (hl : g.Allows depth l) (hr : g.Allows (depth + 1) r) :
    g.Allows depth (.app f [l, r] attrs pos) := by
  obtain ⟨hle, hl⟩ := hl
  rw [toNat_sub_depth hr.le] at hl
  refine ⟨hle, ?_⟩
  rw [toNat_sub_depth hr.le]
  exact .operation hl hr.nests

/-- A list charges its elements and its tail. -/
theorem ofList (hargs : ∀ t ∈ args, g.Allows (depth + 1) t) (ht : g.Allows (depth + 1) t) :
    g.Allows depth (Term.ofList args t) := by
  refine ⟨ht.outer.le, ?_⟩
  rw [toNat_sub_depth ht.le]
  exact .ofList (fun e he => (hargs e he).nests) ht.nests

end Allows

/-- What the four readers yield with this count. -/
structure NestsAt (g : Grammar) (n : Nat) : Prop where
  /-- A term. -/
  term : ∀ max depth, (g.term n max depth).Admits (g.Allows depth)
  /-- A term behind its left operand. -/
  climb : ∀ left priority max depth, g.Allows depth left →
    (g.climb n left priority max depth).Admits (g.Allows depth)
  /-- An operand. -/
  operand : ∀ max depth, (g.operand n max depth).Admits fun r => g.Allows depth r.1
  /-- Arguments. -/
  elements : ∀ depth, (g.elements n depth).Admits fun ts =>
    ts ≠ [] ∧ ∀ t ∈ ts, g.Allows (depth + 1) t

theorem numberTerm_admits (hle : depth ≤ g.maxDepth) (t : Token) (negative : Bool) :
    (numberTerm t negative).Admits (g.Allows depth) := by
  unfold numberTerm
  split
  · exact .pure ⟨hle, .const⟩
  · exact .throw

theorem variableTerm_admits (hle : depth ≤ g.maxDepth) (t : Token) :
    (variableTerm t).Admits (g.Allows depth) :=
  .ite (fun _ => .after fun _ => .after fun _ => .pure ⟨hle, .var⟩) fun _ => .pure ⟨hle, .var⟩

/-- Climbing the operators keeps to the depth. -/
theorem climb_nests (ih : g.NestsAt n) {left : Term} (hleft : g.Allows depth left)
    (priority max : Int) : (g.climb (n + 1) left priority max depth).Admits (g.Allows depth) := by
  refine .after fun t => ?_
  split
  · exact .pure hleft
  · refine .ite (fun _ => .pure hleft) fun _ => .ite (fun _ => .fail) fun _ => .after fun _ => ?_
    exact (ih.term _ _).bind fun right hright => ih.climb _ _ _ _ (hleft.operation hright)

/-- A list behind its opening bracket. -/
theorem list_nests (ih : g.NestsAt n) (depth : Int) :
    Admits (do
      let elements ← g.elements n depth
      let tail ← if (← current).kind = .bar then do
          advance
          g.term n 999 (depth + 1)
        else pure (.const .nil (-1))
      expect .bracketClose
      return (Term.ofList elements tail, (0 : Int))) fun r => g.Allows depth r.1 := by
  refine (ih.elements depth).bind fun es hes => .after fun t => ?_
  obtain ⟨e, he⟩ := List.exists_mem_of_ne_nil es hes.1
  have hnil : g.Allows (depth + 1) (.const .nil (-1)) := ⟨(hes.2 e he).le, .const⟩
  refine .ite (fun _ => .after fun _ => ?_) fun _ => ?_
  · exact (ih.term _ _).bind fun tail ht => .after fun _ => .pure (Allows.ofList hes.2 ht)
  · exact (Admits.pure hnil).bind fun tail ht => .after fun _ => .pure (Allows.ofList hes.2 ht)

/-- An operand behind the name it starts with. -/
theorem named_nests (ih : g.NestsAt n) (hle : depth ≤ g.maxDepth) (t : Token) (max : Int) :
    Admits (do
      let next ← current
      if next.kind = .parenOpen && !next.layout then do
        advance
        let args ← g.elements n depth
        expect .parenClose
        return (Term.app t.value args .none t.position, (0 : Int))
      else if t.quoted then return (t.atom, 0)
      else if t.value = "-" && next.kind = .number && !next.layout then do
        advance
        return (← numberTerm next true, 0)
      else match g.operators.before? t.value with
        | some d =>
          if d.priority ≤ max && g.startsTerm next then do
            let arg ← g.term n d.rightMax (depth + 1)
            return (.app t.value [arg] .none t.position, d.priority)
          else return (t.atom, 0)
        | none => return (t.atom, 0)) fun r => g.Allows depth r.1 := by
  -- An atom has no depth of its own; arguments and operands are read one level down.
  have hatom : g.Allows depth t.atom := ⟨hle, .const⟩
  refine .after fun next => .ite (fun _ => .after fun _ => ?_) fun _ => .ite (fun _ => .pure hatom)
    fun _ => .ite (fun _ => .after fun _ => ?_) fun _ => ?_
  · exact (ih.elements depth).bind fun args hargs => .after fun _ => .pure (.app hargs.2 hargs.1)
  · exact (numberTerm_admits hle next true).bind fun _ h => .pure h
  · split
    · refine .ite (fun _ => (ih.term _ _).bind fun arg harg => .pure ?_) fun _ => .pure hatom
      exact .app (fun t ht => List.mem_singleton.1 ht ▸ harg) (List.cons_ne_nil _ _)
    · exact .pure hatom

/-- An operand keeps to the depth. -/
theorem operand_nests (ih : g.NestsAt n) (max depth : Int) :
    (g.operand (n + 1) max depth).Admits fun r => g.Allows depth r.1 := by
  refine .ite (fun _ => .fail) fun hdeep => ?_
  have hle : depth ≤ g.maxDepth := Int.not_lt.1 hdeep
  refine .after fun t => ?_
  split
  · exact .fail
  · exact .after fun _ => .throw
  · exact .after fun _ => (numberTerm_admits hle t false).bind fun _ h => .pure h
  · exact .after fun _ => (variableTerm_admits hle t).bind fun _ h => .pure h
  · exact .after fun _ => .pure ⟨hle, .const⟩
  · exact .after fun _ => (ih.term _ _).bind fun inner h => .after fun _ => .pure h.outer
  · refine .after fun _ => .after fun _ => .ite (fun _ => ?_) fun _ => list_nests ih depth
    exact .after fun _ => .pure ⟨hle, .const⟩
  · exact .after fun _ => named_nests ih hle t max
  · exact .fail

/-- **The readers keep to the depth that is left to them**, by induction on the count. -/
theorem nests (g : Grammar) (n : Nat) : g.NestsAt n := by
  induction n with
  | zero =>
    exact ⟨fun _ _ => .fail, fun _ _ _ _ _ => .fail, fun _ _ => .fail, fun _ => .fail⟩
  | succ n ih =>
    refine ⟨fun max depth => ?_, fun _ priority max _ h => climb_nests ih h priority max,
      operand_nests ih, fun depth => ?_⟩
    · exact (ih.operand max depth).bind fun r hr => ih.climb _ _ _ _ hr
    · refine (ih.term _ _).bind fun first hfirst => .after fun t => .ite (fun _ => ?_) fun _ => ?_
      · refine .after fun _ => (ih.elements depth).bind fun rest hrest =>
          .pure ⟨List.cons_ne_nil _ _, ?_⟩
        exact List.forall_mem_cons.2 ⟨hfirst, hrest.2⟩
      · exact .pure ⟨List.cons_ne_nil _ _, List.forall_mem_singleton.2 hfirst⟩

/-- So does a clause. -/
theorem clause_nests (g : Grammar) : g.clause.Admits (g.Allows 0) := by
  refine .after fun c => ?_
  split
  · exact .throw
  · exact .fail
  · exact ((g.nests _).term 1200 0).bind fun t ht => .after fun _ => .pure ht

end Grammar

/-! ## §4. Clauses. -/

/-- **THE DEPTH OF A GRAMMAR BOUNDS WHAT IS READ**, but for left operands: a clause nests no deeper,
    where neither they nor the tails of lists count as lying deeper. -/
theorem Cursor.next_nests {g : Grammar} {c : Cursor} {t : Term} (h : (c.next g).1 = .ok t) :
    0 ≤ g.maxDepth ∧ t.Nests g.maxDepth.toNat := by
  unfold Cursor.next at h
  rcases hrun : g.clause.run.run c with ⟨e | u, c₁⟩ <;> rw [hrun] at h
  · cases h
  · obtain rfl : u.shape = t := Except.ok.inj h
    obtain ⟨hle, hnests⟩ := g.clause_nests c u (by rw [hrun])
    rw [Int.sub_zero] at hnests
    exact ⟨hle, hnests.shape⟩

/-- Left operands nest at any depth. -/
example : (readClause { maxDepth := 1 } "a-b-c-d." 0).toOption.isSome = true := by
  with_unfolding_all rfl

end PrologMachine
