/-
  PrologMachine.Proofs.Reading.Canonical ── **CANONICAL NOTATION UNDER ANY OPERATORS.**

  A name with its arguments in parentheses and a list in brackets are read the same whichever names
  are operators, the names in them included, as long as the comma is an operator that binds looser
  than an argument.

  Where the comma is no operator, the reader takes it for one all the same, with a priority that no
  operand may have in front of it.  Two arguments cannot be written then: the first comma is an
  error.

    * `commaList`: written names with commas between them.
    * `readClause_canonical`: compounds and lists of names are read.
    * `Reading.Raises`: the error an action ends in.
    * `readClause_undefined_comma`: without the operator they are not.
-/
import PrologMachine.Proofs.Reading.RoundTrip

namespace PrologMachine

open Reading

/-! ## §1. Names with commas between them. -/

/-- An atom as a term. -/
def Term.ofName (a : String) : Term := .const (.atom a) 0

/-- The written names with commas between them. -/
def commaList (as : List String) : String :=
  ",".intercalate (as.map fun a => (Atomic.atom a).text)

/-- Behind the first name, the others are written as further arguments are. -/
theorem toList_commaList (a : String) (as : List String) :
    (commaList (a :: as)).toList =
      atomChars a.toList ++ Term.restChars (as.map Term.ofName) := by
  induction as generalizing a with
  | nil => simp [commaList, Atomic.text, Atomic.chars, Term.restChars]
  | cons b as ih =>
    have hmore : commaList (a :: b :: as) = (Atomic.atom a).text ++ "," ++ commaList (b :: as) :=
      String.intercalate_cons_cons
    rw [hmore, String.toList_append, String.toList_append, ih]
    simp [Atomic.text, Atomic.chars, Term.restChars, Term.ofName, Term.chars]

/-- In a list the further elements are written the same way. -/
theorem tailChars_ofNames (as : List String) :
    (Term.ofList (as.map Term.ofName) (.const .nil 0)).tailChars =
      Term.restChars (as.map Term.ofName) := by
  induction as with
  | nil => rfl
  | cons a as ih => rw [List.map_cons, Term.restChars, ← ih]; rfl

/-- A list of names has one level. -/
theorem tailNesting_ofNames (as : List String) :
    (Term.ofList (as.map Term.ofName) (.const .nil 0)).tailNesting ≤ 1 := by
  induction as with
  | nil => exact Nat.zero_le 1
  | cons a as ih => exact Nat.max_le.2 ⟨Nat.le_refl 1, ih⟩

theorem argsNesting_ofNames (as : List String) :
    Term.argsNesting (as.map Term.ofName) ≤ 1 := by
  induction as with
  | nil => exact Nat.zero_le 1
  | cons a as ih => exact Nat.max_le.2 ⟨Nat.le_refl 1, ih⟩

/-- Names hand out no anonymous variable. -/
theorem legible_ofNames (n : Nat) (as : List String) :
    LegibleAll n (as.map Term.ofName) n := by
  induction as with
  | nil => exact .nil
  | cons a as ih => exact .cons .const ih

/-- Names that can be written can be written as arguments. -/
theorem writable_ofNames {as : List String} (has : ∀ a ∈ as, WritableName a.toList) :
    Term.AllWritable (as.map Term.ofName) := by
  induction as with
  | nil => exact trivial
  | cons a as ih =>
    exact ⟨has a (List.mem_cons_self ..), ih fun b hb => has b (List.mem_cons_of_mem a hb)⟩

/-- They can be written as a list. -/
theorem writable_ofList {as : List String} (has : ∀ a ∈ as, WritableName a.toList) :
    (Term.ofList (as.map Term.ofName) (.const .nil 0)).Writable := by
  have hcons : WritableName "cons".toList :=
    .of_plain (by decide) (by decide) (by decide) (by decide)
  induction as with
  | nil => exact trivial
  | cons a as ih =>
    exact ⟨hcons, has a (List.mem_cons_self ..),
      ih fun b hb => has b (List.mem_cons_of_mem a hb), trivial⟩

/-- There are no variables to rename. -/
theorem bare_ofNames (name : String → String) (as : List String) :
    (Term.ofList (as.map Term.ofName) (.const .nil 0)).bare name =
      (Term.ofList (as.map Term.ofName) (.const .nil 0)).bare id := by
  induction as with
  | nil => rfl
  | cons a as ih =>
    change (Term.cons _ _).bare name = (Term.cons _ _).bare id
    rw [Term.bare_cons, Term.bare_cons, ← Term.ofList, ih]
    rfl

/-- Names have no positions and no variables to change. -/
theorem map_bare_ofNames (name : String → String) (as : List String) :
    (as.map Term.ofName).map (Term.bare name) = as.map Term.ofName := by
  rw [List.map_map]
  rfl

theorem shapes_ofNames (as : List String) :
    Term.shapes (as.map Term.ofName) = as.map Term.ofName := by
  induction as with
  | nil => rfl
  | cons a as ih => rw [List.map_cons, Term.shapes, ih]; rfl

theorem shape_ofList (as : List String) :
    (Term.ofList (as.map Term.ofName) (.const .nil 0)).shape =
      Term.ofList (as.map Term.ofName) (.const .nil 0) := by
  induction as with
  | nil => rfl
  | cons a as ih =>
    change (Term.cons (Term.ofName a) (Term.ofList (as.map Term.ofName) _)).shape = Term.cons _ _
    simp only [Term.cons, Term.shape, Term.shapes, ih]
    rfl

/-! ## §2. Read whatever the operators are. -/

section Read

variable {g : Grammar} {f a : String} {as : List String}

/-- A full stop at the end of the text is one token. -/
theorem Lexer.tokens_dot (pos : Nat) : ∃ stop eof l,
    Lexer.tokens ⟨['.'], pos, none⟩ = ([stop, eof], l) ∧ stop.kind = .stop ∧ eof.kind = .eof :=
  ⟨_, _, _, rfl, rfl, rfl⟩

/-- The tokens of a name in front of names spell the compound. -/
theorem prints_call (hf : WritableName f.toList) (has : ∀ b ∈ a :: as, WritableName b.toList)
    (n : Nat) (rest : List Char) :
    ∃ us t pos', Lexer.Scans
        ⟨atomChars f.toList ++ '(' :: (commaList (a :: as)).toList ++ ')' :: rest, 0, none⟩ us
        ⟨rest, pos', none⟩ ∧
      Spells 1 n us t n ∧
      t.bare id = .app f ((a :: as).map Term.ofName) .none 0 := by
  obtain ⟨ha, has⟩ := List.forall_mem_cons.1 has
  obtain ⟨name, pos₀, hscan, hkind, hvalue, -⟩ := Lexer.takes_name hf
    (delimited_cons (c := '(') (by decide) ((commaList (a :: as)).toList ++ ')' :: rest))
    (fun _ => by simp) 0
  obtain ⟨left, pos₁, hscan₀, hleft, -, hlayout⟩ := Lexer.takes_punctuation (c := '(') rfl
    ((commaList (a :: as)).toList ++ ')' :: rest) pos₀
  obtain ⟨hdelim, hspace⟩ := delimited_restChars (as.map Term.ofName) rest
  obtain ⟨us, arg, pos₂, hscan₁, hus, harg⟩ :=
    prints_atom (n := 0) (m := n) (k := 0) (d := 0) (p := 0) ha hdelim (fun _ => hspace) pos₁
  have hprints := @LegibleAll.prints (as.map Term.ofName) 0 n 0 0 0 rest (legible_ofNames _ as)
  obtain ⟨vs, args, pos₃, hscan₂, hvs, hargs⟩ :=
    hprints (writable_ofNames has) (argsNesting_ofNames as) pos₂
  obtain ⟨right, pos₄, hscan₃, hright, -, -⟩ := Lexer.takes_punctuation (c := ')') rfl rest pos₃
  -- The tokens of the call are those of its name, its first argument and the others.
  refine ⟨name :: left :: (us ++ vs ++ [right]), _, pos₄, ?_,
    .compound hkind hleft hlayout hus hvs hright, ?_⟩
  · rw [toList_commaList] at hscan hscan₀ ⊢
    simpa using (((hscan.append hscan₀).append (by simpa using hscan₁)).append hscan₂).append hscan₃
  · rw [Term.bare_app, hvalue, String.ofList_toList, List.map_cons, harg, hargs]
    simp [Term.ofName, Term.bare, Term.restate, Function.comp_def]

/-- The tokens of names in brackets spell the list. -/
theorem prints_brackets (has : ∀ b ∈ a :: as, WritableName b.toList) (n : Nat) (rest : List Char) :
    ∃ us t pos', Lexer.Scans ⟨'[' :: (commaList (a :: as)).toList ++ ']' :: rest, 0, none⟩ us
        ⟨rest, pos', none⟩ ∧
      Spells 1 n us t n ∧
      t.bare id = (Term.ofList ((a :: as).map Term.ofName) (.const .nil 0)).bare id := by
  obtain ⟨ha, has⟩ := List.forall_mem_cons.1 has
  have hlegible : LegibleAll (0 + 0) (as.map Term.ofName) (0 + 0) := legible_ofNames _ as
  have htail : Legible (0 + 0) (Term.ofList (as.map Term.ofName) (.const .nil 0)) (0 + 0) :=
    hlegible.ofList .const
  obtain ⟨left, pos₁, hscan₀, hleft, -, -⟩ := Lexer.takes_punctuation (c := '[') rfl
    ((commaList (a :: as)).toList ++ ']' :: rest) 0
  obtain ⟨hdelim, hspace⟩ := delimited_tailChars htail rest
  obtain ⟨us, head, pos₂, hscan₁, hus, hhead⟩ :=
    prints_atom (n := 0) (m := n) (k := 0) (d := 0) (p := 0) ha hdelim (fun _ => hspace) pos₁
  have hprints := @Legible.printsTail _ 0 n 0 0 0 rest htail
  obtain ⟨vs, tail, pos₃, hscan₂, hvs, htail'⟩ :=
    hprints (writable_ofList has) (tailNesting_ofNames as) pos₂
  obtain ⟨right, pos₄, hscan₃, hright, -, -⟩ := Lexer.takes_punctuation (c := ']') rfl rest pos₃
  refine ⟨left :: (us ++ vs ++ [right]), _, pos₄, ?_, hvs.cell hleft hus hright, ?_⟩
  · rw [tailChars_ofNames] at hscan₁ hscan₂
    rw [toList_commaList] at hscan₀ ⊢
    simpa using ((hscan₀.append (by simpa using hscan₁)).append hscan₂).append hscan₃
  · rw [Term.bare_cons, hhead, htail', bare_ofNames]
    rfl

/-- **Canonical notation does not depend on the operators.**  Where the comma separates arguments,
    a name in front of names in parentheses is read as that compound, under the name it has inside
    the machine, and names in brackets are read as the list of them. -/
theorem readClause_canonical (hg : g.Separates) (hdepth : 1 ≤ g.maxDepth)
    (hf : WritableName f.toList) (has : ∀ b ∈ a :: as, WritableName b.toList) (n : Nat) :
    (∃ t, readClause g ((Atomic.atom f).text ++ "(" ++ commaList (a :: as) ++ ").") n = .ok t ∧
      t.bare id = .app (internalName f (as.length + 1)) ((a :: as).map Term.ofName) .none 0) ∧
    ∃ t, readClause g ("[" ++ commaList (a :: as) ++ "].") n = .ok t ∧
      t.bare id = (Term.ofList ((a :: as).map Term.ofName) (.const .nil 0)).bare id := by
  constructor
  -- First the canonical form with parentheses, then the one with brackets.
  · obtain ⟨us, t, pos, hscan, hspells, ht⟩ := prints_call hf has n ['.']
    obtain ⟨stop, eof, l, hdot, hstop, heof⟩ := Lexer.tokens_dot pos
    have htext : Lexer.ofText ((Atomic.atom f).text ++ "(" ++ commaList (a :: as) ++ ").") =
        ⟨atomChars f.toList ++ '(' :: (commaList (a :: as)).toList ++ [')', '.'], 0, none⟩ := by
      simp [Lexer.ofText, Atomic.text, Atomic.chars]
    refine ⟨t.shape, hspells.readClause_of_separates hg (l := l) ?_ hstop heof (by omega), ?_⟩
    · rw [htext, hscan.tokens, hdot]
    · cases t with
      | app f' args attrs p =>
        rw [Term.bare_app] at ht
        obtain ⟨rfl, hargs⟩ := (Term.app.inj ht).imp_right And.left
        have hlength : args.length = as.length + 1 := by simpa using congrArg List.length hargs
        have hnames : (Term.shapes args).map (Term.bare id) = (a :: as).map Term.ofName := by
          rw [← map_bare_ofNames id, ← shapes_ofNames] at hargs ⊢
          exact Term.bare_shapes hargs
        rw [Term.bare_shape_app, hlength, hnames]
      | _ => cases ht
  · obtain ⟨us, t, pos, hscan, hspells, ht⟩ := prints_brackets has n ['.']
    obtain ⟨stop, eof, l, hdot, hstop, heof⟩ := Lexer.tokens_dot pos
    have htext : Lexer.ofText ("[" ++ commaList (a :: as) ++ "].") =
        ⟨'[' :: (commaList (a :: as)).toList ++ [']', '.'], 0, none⟩ := by
      simp [Lexer.ofText]
    refine ⟨t.shape, hspells.readClause_of_separates hg (l := l) ?_ hstop heof (by omega), ?_⟩
    · rw [htext, hscan.tokens, hdot]
    · rw [← shape_ofList] at ht ⊢
      exact Term.bare_shape ht

/-- The names of the operators among the names do not matter, nor the one in front. -/
theorem readClause_canonical_operators :
    ∃ g : Grammar, g.Separates ∧ (∃ d, g.operators.before? "neg" = some d) ∧
      (∃ d, g.operators.between? "likes" = some d) ∧
      (∃ t, readClause g "likes(mary,neg)." 0 = .ok t ∧
        t.bare id = .app "likes" [.ofName "mary", .ofName "neg"] .none 0) ∧
      ∃ t, readClause g "[mary,neg]." 0 = .ok t ∧
        t.bare id =
          (Term.ofList [.ofName "mary", .ofName "neg"] (.const .nil 0)).bare id := by
  have hg : (Grammar.mk (.ofList [⟨",", 1100, .yfx⟩, ⟨"neg", 1200, .fy⟩, ⟨"likes", 900, .xfy⟩])
      1).Separates := ⟨_, rfl, by decide⟩
  have hwritable : ∀ b ∈ ["likes", "mary", "neg"], WritableName b.toList := by
    simp only [List.forall_mem_cons]
    refine ⟨?_, ?_, ?_, by simp⟩ <;> exact .of_plain (by decide) (by decide) (by decide) (by decide)
  obtain ⟨hcall, hlist⟩ := readClause_canonical hg (by decide) (hwritable "likes" (by simp))
    (fun b hb => hwritable b (List.mem_cons_of_mem _ hb)) 0
  exact ⟨_, hg, ⟨_, rfl⟩, ⟨_, rfl⟩, hcall, hlist⟩

end Read

/-! ## §3. Without the operator. -/

/-- Begun at `c`, the action fails with `e`. -/
def Reading.Raises {α : Type} (x : Reading α) (c : Cursor) (e : SyntaxError) : Prop :=
  ∃ c', x.run.run c = (.error e, c')

namespace Reading

variable {α β : Type} {c c₁ : Cursor} {a : α} {e : SyntaxError} {t : Token} {ts : List Token}
  {fault : Option SyntaxError} {n : Nat}

theorem Raises.bind {x : Reading α} (h : Raises x c e) (k : α → Reading β) :
    Raises (x >>= k) c e := by
  obtain ⟨c', hrun⟩ := h
  exact ⟨c', run_bind_error hrun k⟩

/-- A reading that succeeds leads to an error of the next one. -/
theorem Gives.raises {x : Reading α} {k : α → Reading β} (hx : Gives x c a c₁)
    (hk : Raises (k a) c₁ e) : Raises (x >>= k) c e := by
  obtain ⟨c', hrun⟩ := hk
  exact ⟨c', (run_bind_ok hx k).trans hrun⟩

theorem Raises.get_bind {k : Cursor → Reading β} (h : Raises (k c) c e) :
    Raises (get >>= k) c e := h

theorem Raises.current_bind {k : Token → Reading β} (h : Raises (k t) (.over (t :: ts) fault n) e) :
    Raises (Reading.current >>= k) (.over (t :: ts) fault n) e := h

theorem Raises.advance_bind {k : Unit → Reading β} (hts : ts ≠ [])
    (h : Raises (k ()) (.over ts fault n) e) :
    Raises (Reading.advance >>= k) (.over (t :: ts) fault n) e := by
  obtain ⟨u, us, rfl⟩ := List.exists_cons_of_ne_nil hts
  exact h

end Reading

section Undefined

variable {g : Grammar} {f a : String} {count : Nat} {max depth : Int} {left : Term}
  {comma open' name : Token} {ts : List Token} {fault : Option SyntaxError} {n : Nat}

/-- Behind an argument, a comma that is no operator is an error. -/
theorem climb_undefined_comma (hg : g.operators.between? "," = none) (hcomma : comma.kind = .comma)
    (hmax : 0 ≤ max) (hcount : 0 < count) :
    Reading.Raises (g.climb count left 0 max depth) (.over (comma :: ts) fault n)
      ⟨.priorityClash ",", comma.position, comma.value⟩ := by
  obtain ⟨count, rfl⟩ : ∃ k, count = k + 1 := ⟨count - 1, by omega⟩
  rw [Grammar.climb]
  refine Raises.current_bind ?_
  have hbetween : g.between? comma = some ⟨",", 0, .xfx⟩ := by
    simp only [Grammar.between?, hcomma, hg, Option.getD_none]
  have hclash : OpDef.leftMax ⟨",", 0, .xfx⟩ < 0 := by decide
  simp only [hbetween, if_neg (Int.not_lt.2 hmax), if_pos hclash]
  exact ⟨_, rfl⟩

/-- So it is behind the first of several names. -/
theorem elements_undefined_comma (hg : g.operators.between? "," = none)
    (hname : name.kind = .name) (hcomma : comma.kind = .comma) (hdepth : depth + 1 ≤ g.maxDepth)
    (hcount : 3 < count) :
    Reading.Raises (g.elements count depth) (.over (name :: comma :: ts) fault n)
      ⟨.priorityClash ",", comma.position, comma.value⟩ := by
  obtain ⟨count, rfl⟩ : ∃ k, count = k + 2 := ⟨count - 2, by omega⟩
  have hdelim : Delimits 999 comma := by simp [Delimits, hcomma]
  rw [Grammar.elements, Grammar.term]
  exact ((hdelim.atom hname hdepth (by omega)).raises
    (climb_undefined_comma hg hcomma (by decide) (by omega))).bind _

/-- Names in parentheses behind a name are not read. -/
theorem operand_undefined_comma (hg : g.operators.between? "," = none) {f : Token}
    (hf : f.kind = .name) (hopen : open'.kind = .parenOpen) (hlayout : open'.layout = false)
    (hname : name.kind = .name) (hcomma : comma.kind = .comma) (hdepth : depth + 1 ≤ g.maxDepth)
    (hcount : 4 < count) :
    Reading.Raises (g.operand count max depth) (.over (f :: open' :: name :: comma :: ts) fault n)
      ⟨.priorityClash ",", comma.position, comma.value⟩ := by
  obtain ⟨count, rfl⟩ : ∃ k, count = k + 1 := ⟨count - 1, by omega⟩
  rw [Grammar.operand, if_neg (by omega)]
  refine Raises.current_bind ?_
  simp only [hf]
  refine Raises.advance_bind (List.cons_ne_nil _ _) (Raises.current_bind ?_)
  simp only [hopen, hlayout, decide_true, Bool.not_false, Bool.and_self, if_true]
  exact Raises.advance_bind (List.cons_ne_nil _ _)
    ((elements_undefined_comma hg hname hcomma hdepth (by omega)).bind _)

/-- Names in brackets are not read. -/
theorem list_undefined_comma (hg : g.operators.between? "," = none)
    (hopen : open'.kind = .bracketOpen) (hname : name.kind = .name) (hcomma : comma.kind = .comma)
    (hdepth : depth + 1 ≤ g.maxDepth) (hcount : 4 < count) :
    Reading.Raises (g.operand count max depth) (.over (open' :: name :: comma :: ts) fault n)
      ⟨.priorityClash ",", comma.position, comma.value⟩ := by
  obtain ⟨count, rfl⟩ : ∃ k, count = k + 1 := ⟨count - 1, by omega⟩
  rw [Grammar.operand, if_neg (by omega)]
  refine Raises.current_bind ?_
  simp only [hopen]
  refine Raises.advance_bind (List.cons_ne_nil _ _) (Raises.current_bind ?_)
  rw [if_neg (by simp [hname])]
  exact (elements_undefined_comma hg hname hcomma hdepth (by omega)).bind _

/-- A clause cannot be read if the operand it begins with cannot. -/
theorem readClause_of_operand {source : String} {t : Token} {l : Lexer} {e : SyntaxError}
    (htokens : (Lexer.ofText source).tokens = (t :: ts, l))
    (ht : t.kind = .name ∨ t.kind = .bracketOpen)
    (h : ∀ count, 4 < count →
      Reading.Raises (g.operand count 1200 0) (.over (t :: ts) l.fault n) e) :
    readClause g source n = .error e := by
  have hcursor : Cursor.ofText source n = .over (t :: ts) l.fault n := by
    rw [Cursor.ofText, htokens]
    rfl
  have hterm : Reading.Raises (g.term (Cursor.over (t :: ts) l.fault n).bound 1200 0)
      (.over (t :: ts) l.fault n) e := by
    rw [Cursor.bound, Grammar.term]
    exact (h _ (by omega)).bind _
  have hclause : Reading.Raises g.clause (.over (t :: ts) l.fault n) e := by
    refine Raises.get_bind ?_
    rcases ht with ht | ht <;> simp only [Cursor.over, List.headD_cons, ht] <;> exact hterm.bind _
  obtain ⟨c', hrun⟩ := hclause
  have hstart : (Cursor.over (t :: ts) l.fault n).atEnd = false := by
    rcases ht with ht | ht <;> simp [Cursor.atEnd, Cursor.over, ht]
  simp only [readClause, hcursor, hstart, Cursor.next, hrun, Except.map, Bool.false_eq_true,
    if_false]

/-- **Without the comma as an operator, canonical notation stops at the first comma**, whatever
    follows it: the comma counts as an operator that no argument can stand in front of. -/
theorem readClause_undefined_comma (hg : g.operators.between? "," = none)
    (hdepth : 1 ≤ g.maxDepth) (hf : WritableName f.toList) (ha : WritableName a.toList)
    (s : String) (n : Nat) :
    (∃ p, readClause g ((Atomic.atom f).text ++ "(" ++ (Atomic.atom a).text ++ "," ++ s) n =
      .error ⟨.priorityClash ",", p, ","⟩) ∧
    ∃ p, readClause g ("[" ++ (Atomic.atom a).text ++ "," ++ s) n =
      .error ⟨.priorityClash ",", p, ","⟩ := by
  have hafter (pos : Nat) : ∃ name comma pos', Lexer.Scans
      ⟨atomChars a.toList ++ ',' :: s.toList, pos, none⟩ [name, comma] ⟨s.toList, pos', none⟩ ∧
        name.kind = .name ∧ comma.kind = .comma ∧ comma.value = "," := by
    obtain ⟨name, pos₁, hscan, hkind, -⟩ :=
      Lexer.takes_name ha (delimited_cons (c := ',') (by decide) s.toList) (fun _ => by simp) pos
    obtain ⟨comma, pos₂, hscan', hcomma, hvalue, -⟩ :=
      Lexer.takes_punctuation (c := ',') rfl s.toList pos₁
    exact ⟨name, comma, pos₂, hscan.append hscan', hkind, hcomma, hvalue⟩
  have hdeep : (0 : Int) + 1 ≤ g.maxDepth := hdepth
  constructor
  -- Behind a name, the comma stands between arguments; behind a bracket, between elements.
  · obtain ⟨t, pos₀, hscan, hkind, -⟩ := Lexer.takes_name hf
      (delimited_cons (c := '(') (by decide) (atomChars a.toList ++ ',' :: s.toList))
      (fun _ => by simp) 0
    obtain ⟨open', pos₁, hscan₀, hopen, -, hlayout⟩ := Lexer.takes_punctuation (c := '(') rfl
      (atomChars a.toList ++ ',' :: s.toList) pos₀
    obtain ⟨name, comma, pos₂, hscan₁, hname, hcomma, hvalue⟩ := hafter pos₁
    have htext : Lexer.ofText ((Atomic.atom f).text ++ "(" ++ (Atomic.atom a).text ++ "," ++ s) =
        ⟨atomChars f.toList ++ '(' :: (atomChars a.toList ++ ',' :: s.toList), 0, none⟩ := by
      simp [Lexer.ofText, Atomic.text, Atomic.chars]
    have htokens := ((hscan.append hscan₀).append hscan₁).tokens
    rw [← htext] at htokens
    refine ⟨comma.position, readClause_of_operand htokens (.inl hkind) fun count hcount => ?_⟩
    refine (congrArg _ ?_).mp
      (operand_undefined_comma hg hkind hopen hlayout hname hcomma hdeep hcount)
    rw [hvalue]
  · obtain ⟨open', pos₁, hscan₀, hopen, -, -⟩ := Lexer.takes_punctuation (c := '[') rfl
      (atomChars a.toList ++ ',' :: s.toList) 0
    obtain ⟨name, comma, pos₂, hscan₁, hname, hcomma, hvalue⟩ := hafter pos₁
    have htext : Lexer.ofText ("[" ++ (Atomic.atom a).text ++ "," ++ s) =
        ⟨'[' :: (atomChars a.toList ++ ',' :: s.toList), 0, none⟩ := by
      simp [Lexer.ofText, Atomic.text, Atomic.chars]
    have htokens := (hscan₀.append hscan₁).tokens
    rw [← htext] at htokens
    refine ⟨comma.position, readClause_of_operand htokens (.inr hopen) fun count hcount => ?_⟩
    refine (congrArg _ ?_).mp (list_undefined_comma hg hopen hname hcomma hdeep hcount)
    rw [hvalue]

example : readClause ⟨{}, 1000⟩ "f(a,b)." 0 = .error ⟨.priorityClash ",", 3, ","⟩ := by
  with_unfolding_all rfl

end Undefined

end PrologMachine
