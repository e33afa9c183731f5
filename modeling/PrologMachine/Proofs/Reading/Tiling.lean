/-
  PrologMachine.Proofs.Reading.Tiling ── **TOKENS TILE THEIR TEXT.**

  Up to its end or its first fault, a text consists of the spans of its tokens and of layout between
  them.  No byte belongs to two tokens, and those that belong to none are white space or a comment.

    * `Layout`: white space and comments in front of a text.
    * `Occupies`: the text that a token takes up.
    * `Tile.Fits`: layout and a token where a text begins; `Lexer.exists_tile` says that the lexer
      takes one.
    * `Lexer.tiles_source`: whole texts.
-/
import PrologMachine.Proofs.Reading.Lexing

namespace PrologMachine

open PrologMachine.Text (isAlnum isAsciiDigit)

/-! ## §1. Layout. -/

/-- White space and comments in front of the text `rest`.  A line comment ends with its line,
    which in the last line of a text needs no line break; a block comment ends where it is first
    closed. -/
inductive Layout (rest : List Char) : List Char → Prop where
  /-- Nothing. -/
  | nil : Layout rest []
  /-- White space. -/
  | blank {c : Char} {gap : List Char} (hc : isLayoutChar c = true) (h : Layout rest gap) :
      Layout rest (c :: gap)
  /-- A comment to the end of a line. -/
  | line {body gap : List Char} (hbody : '\n' ∉ body) (h : Layout rest gap) :
      Layout rest ('%' :: body ++ '\n' :: gap)
  /-- A comment to the end of the text. -/
  | lastLine {body : List Char} (hbody : '\n' ∉ body) (hrest : rest = []) :
      Layout rest ('%' :: body)
  /-- A block comment. -/
  | block {body gap : List Char} (hbody : ¬ ['*', '/'] <:+: body ++ ['*']) (h : Layout rest gap) :
      Layout rest ('/' :: '*' :: body ++ '*' :: '/' :: gap)

/-- What a skipper goes over in a mode: layout, or the end of a comment and layout behind it. -/
def LayoutMode.Skips (rest : List Char) : LayoutMode → List Char → Prop
  | .plain, gap => Layout rest gap
  | .line, gap => (∃ body gap', gap = body ++ '\n' :: gap' ∧ '\n' ∉ body ∧ Layout rest gap') ∨
      '\n' ∉ gap ∧ rest = []
  | .block _ _, gap => ∃ body gap', gap = body ++ '*' :: '/' :: gap' ∧
      ¬ ['*', '/'] <:+: body ++ ['*'] ∧ Layout rest gap'

/-- **What is skipped is layout.** -/
theorem skipLayout_skips (mode : LayoutMode) (cs : List Char) (pos : Nat)
    (hclosed : (skipLayout mode cs pos).unclosed = false) :
    ∃ gap, cs = gap ++ (skipLayout mode cs pos).rest ∧
      (skipLayout mode cs pos).position = pos + byteLength gap ∧
      mode.Skips (skipLayout mode cs pos).rest gap := by
  -- By the cases of the scanner: in free layout, in a line comment, in a block comment.
  fun_induction skipLayout mode cs pos with
  | case1 cs pos ih =>
    obtain ⟨gap, hcs, hpos, hgap⟩ := ih hclosed
    refine ⟨'%' :: gap, by rw [List.cons_append, ← hcs], ?_, ?_⟩
    · rw [hpos, byteLength_cons, Nat.add_assoc]
      rfl
    · rcases hgap with ⟨body, gap', rfl, hbody, h⟩ | ⟨hbody, hrest⟩
      · exact .line hbody h
      · exact .lastLine hbody hrest
  | case2 cs pos ih =>
    obtain ⟨gap, hcs, hpos, body, gap', rfl, hbody, h⟩ := ih hclosed
    refine ⟨'/' :: '*' :: (body ++ '*' :: '/' :: gap'), ?_, ?_, .block hbody h⟩
    · rw [List.cons_append, List.cons_append, ← hcs]
    · rw [hpos, byteLength_cons, byteLength_cons, ← Nat.add_assoc, ← Nat.add_assoc]
      rfl
  | case3 c cs pos _ _ hc ih =>
    obtain ⟨gap, hcs, hpos, h⟩ := ih hclosed
    refine ⟨c :: gap, by rw [List.cons_append, ← hcs], ?_, .blank hc h⟩
    rw [hpos, byteLength_cons, Nat.add_assoc]
  | case4 c cs pos _ _ hc => exact ⟨[], rfl, rfl, .nil⟩
  | case5 cs pos ih =>
    obtain ⟨gap, hcs, hpos, h⟩ := ih hclosed
    refine ⟨'\n' :: gap, by rw [List.cons_append, ← hcs], ?_, .inl ⟨[], gap, rfl, by simp, h⟩⟩
    rw [hpos, byteLength_cons, Nat.add_assoc]
    rfl
  | case6 c cs pos hc ih =>
    obtain ⟨gap, hcs, hpos, h⟩ := ih hclosed
    refine ⟨c :: gap, by rw [List.cons_append, ← hcs], ?_, ?_⟩
    · rw [hpos, byteLength_cons, Nat.add_assoc]
    · rcases h with ⟨body, gap', rfl, hbody, h⟩ | ⟨hbody, hrest⟩
      · exact .inl ⟨c :: body, gap', rfl, by simp [hbody, Ne.symm hc], h⟩
      · exact .inr ⟨by simp [hbody, Ne.symm hc], hrest⟩
  | case7 r p cs pos ih =>
    obtain ⟨gap, hcs, hpos, h⟩ := ih hclosed
    refine ⟨'*' :: '/' :: gap, ?_, ?_, [], gap, rfl, by decide, h⟩
    · rw [List.cons_append, List.cons_append, ← hcs]
    · rw [hpos, byteLength_cons, byteLength_cons, ← Nat.add_assoc, ← Nat.add_assoc]
      rfl
  | case8 r p c cs pos hend ih =>
    obtain ⟨gap, hcs, hpos, body, gap', rfl, hbody, h⟩ := ih hclosed
    refine ⟨c :: (body ++ '*' :: '/' :: gap'), by rw [List.cons_append, ← hcs], ?_,
      c :: body, gap', rfl, fun hinfix => ?_, h⟩
    · rw [hpos, byteLength_cons, Nat.add_assoc]
    · -- The comment is not closed at `c`, and not behind it either.
      rcases List.infix_cons_iff.1 hinfix with hfirst | hlater
      · rw [List.cons_prefix_cons] at hfirst
        obtain ⟨rfl, hslash⟩ := hfirst
        cases body with
        | nil => simp at hslash
        | cons d body =>
          obtain ⟨rfl, -⟩ := List.cons_prefix_cons.1 hslash
          exact hend _ rfl hcs
      · exact hbody hlater
  | case9 pos => exact ⟨[], rfl, rfl, .nil⟩
  | case10 pos => exact ⟨[], rfl, rfl, .inr ⟨by simp, rfl⟩⟩
  | case11 r p pos => cases hclosed

/-! ## §2. Spans. -/

/-- What stands between two quotes, and what it stands for. -/
inductive Quotes (q : Char) : (body value : List Char) → Prop where
  /-- Nothing. -/
  | nil : Quotes q [] []
  /-- A character that stands for itself. -/
  | plain {c : Char} {body value : List Char} (hq : c ≠ q) (hescape : c ≠ '\\')
      (h : Quotes q body value) : Quotes q (c :: body) (c :: value)
  /-- A doubled quote. -/
  | doubled {body value : List Char} (h : Quotes q body value) :
      Quotes q (q :: q :: body) (q :: value)
  /-- An escaped character. -/
  | escaped {c : Char} {body value : List Char} (h : Quotes q body value) :
      Quotes q ('\\' :: c :: body) (unescape c :: value)

/-- **The text that a token takes up** in front of `rest`: its value, or quoted text up to the
    quote that closes it. -/
inductive Occupies (rest : List Char) : Token → List Char → Prop where
  /-- Text without quotes is the value. -/
  | bare {t : Token} (hquoted : t.quoted = false) (hkind : t.kind ≠ .string) :
      Occupies rest t t.value.toList
  /-- A quoted name. -/
  | name {t : Token} {body : List Char} (hquoted : t.quoted = true) (hkind : t.kind = .name)
      (hbody : Quotes '\'' body t.value.toList) (hrest : rest.head? ≠ some '\'') :
      Occupies rest t ('\'' :: body ++ ['\''])
  /-- A string. -/
  | string {t : Token} {body : List Char} (hquoted : t.quoted = false) (hkind : t.kind = .string)
      (hbody : Quotes '"' body t.value.toList) (hrest : rest.head? ≠ some '"') :
      Occupies rest t ('"' :: body ++ ['"'])

/-- Layout in front of a token does not change its span. -/
theorem Occupies.layout {rest span : List Char} {t : Token} (h : Occupies rest t span) (b : Bool) :
    Occupies rest { t with layout := b } span := by
  cases h with
  | bare hquoted hkind => exact .bare (t := { t with layout := b }) hquoted hkind
  | name hquoted hkind hbody hrest => exact .name hquoted hkind hbody hrest
  | string hquoted hkind hbody hrest => exact .string hquoted hkind hbody hrest

/-- Quoted text ends at its closing quote. -/
theorem quotedText_quotes {quote : Char} (cs : List Char) (pos : Nat) {v r : List Char} {p : Nat}
    (h : quotedText quote cs pos = some (v, r, p)) : ∃ body, cs = body ++ quote :: r ∧
      Quotes quote body v ∧ r.head? ≠ some quote ∧ p = pos + byteLength (body ++ [quote]) := by
  -- By the cases of the scanner: two quotes stand for one, and a backslash takes the next character.
  fun_induction quotedText quote cs pos generalizing v r p with
  | case1 => cases h
  | case2 pos =>
    cases h
    exact ⟨[], rfl, .nil, by simp, by simp⟩
  | case3 => cases h
  | case4 cs pos v r hin ih =>
    cases h
    obtain ⟨body, rfl, hbody, hhead, hp⟩ := ih hin
    exact ⟨quote :: quote :: body, rfl, .doubled hbody, hhead, by simp [hp]; omega⟩
  | case5 => cases h
  | case6 d cs pos hd =>
    cases h
    exact ⟨[], rfl, .nil, by simpa using hd, by simp⟩
  | case7 d cs pos v r _ hin ih =>
    cases h
    obtain ⟨body, rfl, hbody, hhead, hp⟩ := ih hin
    exact ⟨'\\' :: d :: body, rfl, .escaped hbody, hhead, by simp [hp]; omega⟩
  | case8 => cases h
  | case9 c d cs pos hc hb v r hin ih =>
    cases h
    obtain ⟨body, hcs, hbody, hhead, hp⟩ := ih hin
    exact ⟨c :: body, by rw [hcs]; rfl, .plain hc hb hbody, hhead, by simp [hp]; omega⟩
  | case10 => cases h

/-! ## §3. One token. -/

/-- The token was cut off the front of a text. -/
structure Cuts (cs : List Char) (pos : Nat) (r : Token × Lexer) (span : List Char) : Prop where
  /-- Its span and what is left make up the text. -/
  text : cs = span ++ r.2.rest
  /-- It takes up some of it. -/
  nonempty : span ≠ []
  /-- It begins where the text begins. -/
  position : r.1.position = pos
  /-- The lexer goes on behind it. -/
  behind : r.2.position = pos + byteLength span
  /-- The span is its own. -/
  occupies : Occupies r.2.rest r.1 span

namespace Lexer

/-- A word that is no string is cut as it stands. -/
theorem lexeme_cuts {kind : TokenKind} (hkind : kind ≠ .string) {word : List Char}
    (hword : word ≠ []) (rest : List Char) (pos : Nat) :
    Cuts (word ++ rest) pos (Lexer.lexeme kind word rest pos) word where
  text := rfl
  nonempty := hword
  position := rfl
  behind := rfl
  occupies := by
    have h : Occupies rest (Lexer.lexeme kind word rest pos).1 (String.ofList word).toList :=
      .bare rfl hkind
    rwa [String.toList_ofList] at h

/-- No punctuation is a string. -/
theorem punctuation?_ne_string {c : Char} {kind : TokenKind} (h : punctuation? c = some kind) :
    kind ≠ .string := by
  unfold punctuation? at h
  split at h <;> cases h <;> decide

/-- A quoted token is cut with its quotes. -/
theorem quotedToken_cuts {kind : TokenKind} {c : Char} {r : List Char} {pos : Nat}
    (quoted : Bool) (hkind : if quoted then c = '\'' ∧ kind = .name else c = '"' ∧ kind = .string)
    (hlast : (quotedToken kind c r pos).1.isLast = false) : ∃ span, Cuts (c :: r) pos
      ({ (quotedToken kind c r pos).1 with quoted }, (quotedToken kind c r pos).2) span := by
  unfold quotedToken at hlast ⊢
  split at hlast
  · next v rest p hq =>
    obtain ⟨body, rfl, hbody, hhead, hp⟩ := quotedText_quotes _ _ hq
    rw [← String.toList_ofList (l := v)] at hbody
    refine ⟨c :: body ++ [c], by simp, by simp, rfl, ?_, ?_⟩
    · simp only [hp, byteLength_cons, byteLength_append, List.cons_append]
      omega
    · cases quoted with
      | true =>
        obtain ⟨rfl, rfl⟩ := hkind
        simpa [hq] using .name rfl rfl hbody hhead
      | false =>
        obtain ⟨rfl, rfl⟩ := hkind
        simpa [hq] using .string rfl rfl hbody hhead
  · cases hlast

/-- **A token that is not the last one is cut off the text.** -/
theorem scan_cuts {cs : List Char} {pos : Nat} (hlast : (scan cs pos).1.isLast = false) :
    ∃ span, Cuts cs pos (scan cs pos) span := by
  have hone {kind : TokenKind} (hkind : kind ≠ .string) (c : Char) (r : List Char) :
      ∃ span, Cuts (c :: r) pos (Lexer.lexeme kind [c] r pos) span :=
    ⟨[c], lexeme_cuts hkind (List.cons_ne_nil c []) r pos⟩
  have hwhile {kind : TokenKind} (hkind : kind ≠ .string) (p : Char → Bool) (c : Char)
      (r : List Char) : ∃ span, Cuts (c :: r) pos
        (Lexer.lexeme kind (c :: r.takeWhile p) (r.dropWhile p) pos) span := by
    refine ⟨c :: r.takeWhile p, ?_⟩
    have h := lexeme_cuts hkind (List.cons_ne_nil c (r.takeWhile p)) (r.dropWhile p) pos
    rwa [List.cons_append, List.takeWhile_append_dropWhile] at h
  -- From here on the cases come in the order in which the scanner tries them.
  revert hlast
  unfold scan
  split
  · exact Bool.noConfusion
  next c r =>
  split
  · next kind hk => exact fun _ => hone (punctuation?_ne_string hk) c r
  split
  · exact fun _ => hone (by decide) c r
  split
  · exact fun _ => hwhile (by decide) isAlnum c r
  split
  · exact fun _ => hwhile (by decide) isAlnum c r
  split
  · next hdigit =>
    intro _
    have hkind : TokenKind.number ≠ .string := by decide
    have hword : (numberLexeme (c :: r)).1 ≠ [] := by simp [numberLexeme, hdigit]
    have h := lexeme_cuts hkind hword (numberLexeme (c :: r)).2 pos
    rw [numberLexeme_append] at h
    exact ⟨_, h⟩
  split
  · next hc => exact fun hlast => quotedToken_cuts true ⟨hc, rfl⟩ hlast
  split
  · next hc =>
    -- A string is told by its kind: it does not count as quoted.
    intro hlast
    have hplain : (quotedToken .string c r pos).1.quoted = false := by
      unfold quotedToken
      split <;> rfl
    have h := quotedToken_cuts false ⟨hc, rfl⟩ hlast
    rwa [← hplain] at h
  split
  · exact fun _ => hone (by decide) c r
  split
  · exact fun _ => hwhile (by decide) isSymbolChar c r
  · exact Bool.noConfusion

end Lexer

/-! ## §4. Tiles. -/

/-- Only the empty text has no bytes. -/
theorem byteLength_eq_zero {cs : List Char} : byteLength cs = 0 ↔ cs = [] := by
  cases cs with
  | nil => simp
  | cons c cs =>
    have := c.utf8Size_pos
    simp only [byteLength_cons, reduceCtorEq, iff_false]
    omega

/-- A text has no more characters than bytes. -/
theorem length_le_byteLength (cs : List Char) : cs.length ≤ byteLength cs := by
  induction cs with
  | nil => exact Nat.le_refl 0
  | cons c cs ih =>
    have := c.utf8Size_pos
    simp only [List.length_cons, byteLength_cons]
    omega

/-- The bytes of a string are those of its characters. -/
theorem byteLength_toList (s : String) : byteLength s.toList = s.utf8ByteSize := by
  suffices h : ∀ cs, (String.ofList cs).utf8ByteSize = byteLength cs by
    rw [← h, String.ofList_toList]
  intro cs
  induction cs with
  | nil => rfl
  | cons c cs ih =>
    rw [String.ofList_cons]
    simp [ih]

/-- A piece of a text: layout, and the span of a token behind it. -/
structure Tile where
  /-- The layout. -/
  gap : List Char
  /-- The span. -/
  span : List Char
  /-- The token. -/
  token : Token

/-- The text of a piece. -/
def Tile.text (x : Tile) : List Char := x.gap ++ x.span

/-- The piece is what it says, at offset `pos` and in front of `rest`. -/
structure Tile.Fits (x : Tile) (pos : Nat) (rest : List Char) : Prop where
  /-- The gap is layout. -/
  gap : Layout (x.span ++ rest) x.gap
  /-- The span is not empty. -/
  span : x.span ≠ []
  /-- The token begins behind the gap. -/
  position : x.token.position = pos + byteLength x.gap
  /-- The span is that of the token. -/
  occupies : Occupies rest x.token x.span
  /-- The token tells whether there is layout in front of it. -/
  layout : x.token.layout = true ↔ x.gap ≠ []
  /-- It is no end and no error. -/
  kind : x.token.kind ≠ .eof ∧ x.token.kind ≠ .error

namespace Lexer

variable {l l' : Lexer} {us : List Token}

/-- The layout in front of the next token. -/
theorem exists_gap (cs : List Char) (pos : Nat)
    (hclosed : (skipLayout .plain cs pos).unclosed = false) : ∃ gap,
      cs = gap ++ (skipLayout .plain cs pos).rest ∧
      (skipLayout .plain cs pos).position = pos + byteLength gap ∧
      Layout (skipLayout .plain cs pos).rest gap ∧
      (decide (pos < (skipLayout .plain cs pos).position) = true ↔ gap ≠ []) := by
  obtain ⟨gap, hcs, hpos, hgap⟩ := skipLayout_skips .plain cs pos hclosed
  refine ⟨gap, hcs, hpos, hgap, ?_⟩
  rw [hpos, ← not_iff_not, not_not, ← byteLength_eq_zero, decide_eq_true_iff]
  omega

/-- **The lexer takes a tile off a text.** -/
theorem exists_tile (hl : l.fault = none) (hlast : l.next.1.isLast = false) :
    ∃ x : Tile, x.token = l.next.1 ∧ l.rest = x.text ++ l.next.2.rest ∧
      l.next.2.position = l.position + byteLength x.text ∧ x.Fits l.position l.next.2.rest := by
  obtain ⟨cs, pos, fault⟩ := l
  obtain rfl : fault = none := hl
  have hkind : (next ⟨cs, pos, none⟩).1.kind ≠ .eof ∧ (next ⟨cs, pos, none⟩).1.kind ≠ .error := by
    simpa [Token.isLast] using hlast
  rw [next_eq] at hlast hkind ⊢
  have hclosed := closed_of_kind hkind.2
  rw [behind_closed hclosed] at hlast hkind ⊢
  -- The tile is the gap in front of the token and the token's own span.
  obtain ⟨gap, hcs, hpos, hgap, hflag⟩ := exists_gap cs pos hclosed
  obtain ⟨span, hcuts⟩ := scan_cuts hlast
  refine ⟨⟨gap, span, _⟩, rfl, ?_, ?_, ?_, hcuts.nonempty, ?_, hcuts.occupies.layout _, hflag,
    hkind⟩
  · rw [Tile.text, List.append_assoc, ← hcuts.text]
    exact hcs
  · rw [Tile.text, byteLength_append, ← Nat.add_assoc, ← hpos]
    exact hcuts.behind
  · rw [← hcuts.text]
    exact hgap
  · rw [← hpos]
    exact hcuts.position

/-- **Tokens that are taken one after the other tile the text.** -/
theorem Scans.exists_tiles (h : l.Scans us l') (hl : l.fault = none) : ∃ tiles : List Tile,
    tiles.map Tile.token = us ∧ l.rest = tiles.flatMap Tile.text ++ l'.rest ∧
    ∀ before x after, tiles = before ++ x :: after →
      x.Fits (l.position + byteLength (before.flatMap Tile.text))
        (after.flatMap Tile.text ++ l'.rest) := by
  induction h with
  | done => exact ⟨[], rfl, rfl, fun before x after h => by simp at h⟩
  | @more l l' us hlast hrest ih =>
    obtain ⟨x, htoken, htext, hbehind, hfits⟩ := exists_tile hl hlast
    obtain ⟨tiles, htokens, hmore, hall⟩ := ih (Scans.fault (.more hlast .done) hl)
    refine ⟨x :: tiles, by rw [List.map_cons, htoken, htokens], ?_, fun before y after hsplit => ?_⟩
    · rw [htext, hmore, List.flatMap_cons, List.append_assoc]
    -- A tile is the first one, which was just read, or one of those behind.
    · cases before with
      | nil =>
        obtain ⟨rfl, rfl⟩ := List.cons.inj hsplit
        rw [← hmore]
        exact hfits
      | cons y' before =>
        obtain ⟨rfl, htiles⟩ := List.cons.inj hsplit
        have hy := hall before y after htiles
        rw [hbehind, Nat.add_assoc, ← byteLength_append] at hy
        exact hy

/-- Every token that is taken leaves less of the text. -/
theorem Scans.length_le (h : l.Scans us l') : us.length + l'.rest.length ≤ l.rest.length := by
  induction h with
  | done => exact Nat.le_of_eq (Nat.zero_add _)
  | more hlast hrest ih =>
    have := next_length _ hlast
    rw [List.length_cons]
    omega

/-- Further tokens come behind those that are taken. -/
theorem Scans.more_tokens (h : l.Scans us l') (n : Nat) :
    (l.more (us.length + n)).1 = us ++ (l'.more n).1 := by
  induction h with
  | done => rw [List.length_nil, Nat.zero_add, List.nil_append]
  | @more l l' us hlast hrest ih =>
    rw [List.length_cons, Nat.succ_add, List.cons_append, ← ih]
    rfl

/-! ## §5. The end. -/

/-- The layout in front of the end of a text. -/
theorem last_layout (hl : l.fault = none) (hkind : l.next.1.kind = .eof) :
    Layout [] l.rest ∧ l.next.1.position = l.position + byteLength l.rest ∧
      (l.next.1.layout = true ↔ l.rest ≠ []) := by
  obtain ⟨cs, pos, fault⟩ := l
  obtain rfl : fault = none := hl
  obtain ⟨hclosed, hrest⟩ := skipLayout_eof hkind
  obtain ⟨gap, hcs, hpos, hgap, hflag⟩ := exists_gap cs pos hclosed
  rw [next_eq, behind_closed hclosed, hrest]
  rw [hrest, List.append_nil] at hcs
  subst hcs
  rw [hrest] at hgap
  exact ⟨hgap, hpos, hflag⟩

/-- Behind the last token the lexer stays where it is. -/
theorem next_of_last (hl : l.fault = none) (hlast : l.next.1.isLast = true) :
    ∃ again, l.next.2.next = (again, l.next.2) ∧ again.kind = l.next.1.kind := by
  rw [Token.isLast, Bool.or_eq_true, beq_iff_eq, beq_iff_eq] at hlast
  rcases hlast with hkind | hkind
  · obtain ⟨cs, pos, fault⟩ := l
    obtain rfl : fault = none := hl
    obtain ⟨hclosed, hrest⟩ := skipLayout_eof hkind
    rw [hkind, next_eq, behind_closed hclosed, hrest]
    exact ⟨_, rfl, rfl⟩
  · obtain ⟨e, hfault, -⟩ := (next_coherent hl).error hkind
    rw [hkind, next, hfault]
    exact ⟨_, rfl, rfl⟩

/-- A lexer that stays where it is gives the same token again and again. -/
theorem more_of_next {t : Token} (h : l.next = (t, l)) (n : Nat) :
    (l.more n).1 = List.replicate n t := by
  induction n with
  | zero => rfl
  | succ n ih => rw [more, h, List.replicate_succ, ← ih]

/-! ## §6. Whole texts. -/

/-- Tiles that fit do not overlap. -/
theorem pairwise_of_fits {tiles : List Tile} {pos : Nat} {rest : List Char}
    (h : ∀ before x after, tiles = before ++ x :: after →
      x.Fits (pos + byteLength (before.flatMap Tile.text)) (after.flatMap Tile.text ++ rest)) :
    tiles.Pairwise (fun x y => x.token.position + byteLength x.span ≤ y.token.position) := by
  induction tiles generalizing pos with
  | nil => exact .nil
  | cons x tiles ih =>
    have hx := (h [] x tiles rfl).position
    have hbehind (before : List Tile) : pos + byteLength ((x :: before).flatMap Tile.text) =
        pos + byteLength x.text + byteLength (before.flatMap Tile.text) := by
      rw [List.flatMap_cons, byteLength_append, Nat.add_assoc]
    -- The tiles behind start where the first one ends.
    have htail (before : List Tile) (y : Tile) (after : List Tile)
        (hsplit : tiles = before ++ y :: after) :
        y.Fits (pos + byteLength x.text + byteLength (before.flatMap Tile.text))
          (after.flatMap Tile.text ++ rest) := by
      rw [← hbehind]
      exact h (x :: before) y after (by rw [hsplit, List.cons_append])
    refine .cons (fun y hy => ?_) (ih htail)
    obtain ⟨before, after, hsplit⟩ := List.append_of_mem hy
    have hy := (htail before y after hsplit).position
    rw [hx, hy, Tile.text, byteLength_append, List.flatMap_nil, byteLength_nil]
    omega

/-- **Tokens tile their text.**  After as many tokens as the text has bytes, and one more, at the
    latest comes an end or an error, and then the like of it for ever.  The text up to there is made
    of tiles, one for each token, and behind them, where it is read to its end, of layout. -/
theorem tiles_source (source : String) :
    ∃ (tiles : List Tile) (remainder : List Char) (last again : Token),
      tiles.length + 1 ≤ source.utf8ByteSize + 1 ∧
      last.isLast = true ∧ again.kind = last.kind ∧
      (∀ n, ((ofText source).more (tiles.length + (n + 1))).1 =
        tiles.map Tile.token ++ last :: List.replicate n again) ∧
      source.toList = tiles.flatMap Tile.text ++ remainder ∧
      (∀ before x after, tiles = before ++ x :: after →
        x.Fits (byteLength (before.flatMap Tile.text)) (after.flatMap Tile.text ++ remainder)) ∧
      tiles.Pairwise (fun x y => x.token.position + byteLength x.span ≤ y.token.position) ∧
      (last.kind = .eof → Layout [] remainder ∧ last.position = source.utf8ByteSize ∧
        (last.layout = true ↔ remainder ≠ [])) := by
  -- The text is scanned to its last token, which is repeated for ever.
  obtain ⟨us, l', hscans, hlast⟩ := exists_scans (ofText source)
  have hfault : (ofText source).fault = none := rfl
  have hl' := hscans.fault hfault
  obtain ⟨tiles, rfl, htext, hfits⟩ := hscans.exists_tiles hfault
  obtain ⟨again, hnext, hkind⟩ := next_of_last hl' hlast
  have hapart := pairwise_of_fits hfits
  have hzero : (ofText source).position = 0 := rfl
  have hrest : (ofText source).rest = source.toList := rfl
  simp only [hzero, Nat.zero_add] at hfits
  refine ⟨tiles, l'.rest, l'.next.1, again, ?_, hlast, hkind, fun n => ?_, htext, hfits, hapart,
    fun heof => ?_⟩
  · -- A token takes up a character at least, and a character a byte.
    have hlength := hscans.length_le
    have hbytes := length_le_byteLength source.toList
    rw [byteLength_toList] at hbytes
    rw [List.length_map, hrest] at hlength
    omega
  · have hmore := hscans.more_tokens (n + 1)
    rw [List.length_map] at hmore
    rw [hmore, more, ← more_of_next hnext]
  · obtain ⟨hlayout, hposition, hflag⟩ := last_layout hl' heof
    refine ⟨hlayout, ?_, hflag⟩
    rw [hposition, hscans.bytes hfault, hzero, Nat.zero_add]
    exact byteLength_toList source

end Lexer

end PrologMachine
