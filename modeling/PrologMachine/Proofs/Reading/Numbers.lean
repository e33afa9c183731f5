/-
  PrologMachine.Proofs.Reading.Numbers ── **NUMBERS ARE THE LONGEST MATCH.**

  A number is described by a regular expression.  Where a token starts with a digit, the lexer takes
  the longest piece of the text that the expression matches, and goes on right behind it.  A point,
  an exponent letter or a sign that no digit follows is left for the next token.

    * `numberPattern`: digits, then possibly a fraction, then possibly an exponent.
    * `splitFraction_matches`, `splitExponent_matches`: what is split off is empty or matches.
    * `splitFraction_keeps`, `splitExponent_keeps`: nothing that matches is cut short.
    * `numberLexeme_matches`, `numberLexeme_longest`: the same of whole numbers.
    * `Lexer.number_longest`: the tokens of a text.
-/
import Mathlib.Computability.RegularExpressions
import Mathlib.Data.List.TakeWhile
import PrologMachine.Proofs.Reading.Tiling

namespace PrologMachine

open PrologMachine.Text (isAsciiDigit)

/-! ## §1. What a number is. -/

/-- One decimal digit. -/
def digitPattern : RegularExpression Char := ("0123456789".toList.map .char).sum

/-- One or more of them. -/
def digitsPattern : RegularExpression Char := digitPattern * digitPattern.star

/-- A fraction: a point and digits. -/
def fractionPattern : RegularExpression Char := .char '.' * digitsPattern

/-- An exponent: a letter, a sign or none, and digits. -/
def exponentPattern : RegularExpression Char :=
  (.char 'e' + .char 'E') * (.char '+' + .char '-' + 1) * digitsPattern

/-- A number: `[0-9]+(\.[0-9]+)?([eE][+-]?[0-9]+)?`. -/
def numberPattern : RegularExpression Char :=
  digitsPattern * (fractionPattern + 1) * (exponentPattern + 1)

/-- `2E-3` is a number, `1.` and `4e+` are none. -/
example : numberPattern.rmatch "2E-3".toList = true ∧ numberPattern.rmatch "1.".toList = false ∧
    numberPattern.rmatch "4e+".toList = false := by decide

/-- All characters are digits, and there is one. -/
def Digits (ds : List Char) : Prop := ds ≠ [] ∧ ∀ c ∈ ds, isAsciiDigit c = true

variable {cs t ds r : List Char}

theorem isAsciiDigit_iff_mem {c : Char} : isAsciiDigit c = true ↔ c ∈ "0123456789".toList := by
  constructor
  · intro h
    have hall : ∀ n < 58, 48 ≤ n → Char.ofNat n ∈ "0123456789".toList := by decide
    simp only [isAsciiDigit, Bool.and_eq_true, decide_eq_true_iff] at h
    have hlow : 48 ≤ c.toNat := h.1
    have hhigh : c.toNat ≤ 57 := h.2
    rw [← Char.ofNat_toNat c]
    exact hall _ (by omega) hlow
  · intro h
    have hall : "0123456789".toList.all isAsciiDigit = true := by decide
    exact List.all_eq_true.1 hall c h

/-- What a sum matches is matched by one of its terms. -/
theorem mem_matches'_sum {P : List (RegularExpression Char)} :
    t ∈ P.sum.matches' ↔ ∃ p ∈ P, t ∈ p.matches' := by
  induction P with
  | nil => simp [Language.notMem_zero]
  | cons p P ih => simp [Language.mem_add, ih]

theorem mem_digitPattern : t ∈ digitPattern.matches' ↔ ∃ c, isAsciiDigit c = true ∧ t = [c] := by
  rw [digitPattern, mem_matches'_sum]
  constructor
  · rintro ⟨p, hp, ht⟩
    obtain ⟨c, hc, rfl⟩ := List.mem_map.1 hp
    exact ⟨c, isAsciiDigit_iff_mem.2 hc, ht⟩
  · rintro ⟨c, hc, rfl⟩
    exact ⟨.char c, List.mem_map.2 ⟨c, isAsciiDigit_iff_mem.1 hc, rfl⟩, rfl⟩

theorem mem_digitsPattern : t ∈ digitsPattern.matches' ↔ Digits t := by
  rw [digitsPattern, RegularExpression.matches'_mul, RegularExpression.matches'_star,
    Language.mem_mul]
  constructor
  · rintro ⟨a, ha, b, hb, rfl⟩
    obtain ⟨c, hc, rfl⟩ := mem_digitPattern.1 ha
    obtain ⟨L, rfl, hL⟩ := Language.mem_kstar.1 hb
    refine ⟨List.cons_ne_nil _ _, fun d hd => ?_⟩
    rcases List.mem_cons.1 hd with rfl | hd
    · exact hc
    · obtain ⟨u, hu, hd⟩ := List.mem_flatten.1 hd
      obtain ⟨c', hc', rfl⟩ := mem_digitPattern.1 (hL u hu)
      rwa [List.mem_singleton.1 hd]
  · rintro ⟨hne, hall⟩
    obtain ⟨c, ds, rfl⟩ := List.exists_cons_of_ne_nil hne
    refine ⟨[c], mem_digitPattern.2 ⟨c, hall c List.mem_cons_self, rfl⟩, ds, ?_, rfl⟩
    refine Language.mem_kstar.2 ⟨ds.map fun d => [d], ds.flatMap_singleton'.symm, fun u hu => ?_⟩
    obtain ⟨d, hd, rfl⟩ := List.mem_map.1 hu
    exact mem_digitPattern.2 ⟨d, hall d (List.mem_cons_of_mem c hd), rfl⟩

theorem mem_fractionPattern : t ∈ fractionPattern.matches' ↔ ∃ ds, Digits ds ∧ t = '.' :: ds := by
  rw [fractionPattern, RegularExpression.matches'_mul, Language.mem_mul]
  constructor
  · rintro ⟨a, ha, ds, hds, rfl⟩
    obtain rfl : a = ['.'] := ha
    exact ⟨ds, mem_digitsPattern.1 hds, rfl⟩
  · rintro ⟨ds, hds, rfl⟩
    exact ⟨['.'], rfl, ds, mem_digitsPattern.2 hds, rfl⟩

/-- What may stand between the letter of an exponent and its digits. -/
def IsSign (sign : List Char) : Prop := sign = ['+'] ∨ sign = ['-'] ∨ sign = []

/-- An exponent: the letter, a sign or none, and digits. -/
theorem mem_exponentPattern : t ∈ exponentPattern.matches' ↔
    ∃ e sign ds, (e = 'e' ∨ e = 'E') ∧ IsSign sign ∧ Digits ds ∧ t = e :: sign ++ ds := by
  -- What the letter and the sign may be.
  have hletter (u : List Char) : u ∈ (.char 'e' + .char 'E' : RegularExpression Char).matches' ↔
      u = ['e'] ∨ u = ['E'] := Iff.rfl
  have hsign (u : List Char) : u ∈ (.char '+' + .char '-' + 1 : RegularExpression Char).matches' ↔
      (u = ['+'] ∨ u = ['-']) ∨ u = [] := Iff.rfl
  rw [exponentPattern, RegularExpression.matches'_mul, Language.mem_mul,
    RegularExpression.matches'_mul]
  constructor
  · rintro ⟨a, ha, ds, hds, rfl⟩
    obtain ⟨u, hu, sign, hs, rfl⟩ := Language.mem_mul.1 ha
    have hs' : IsSign sign := or_assoc.1 ((hsign sign).1 hs)
    rcases (hletter u).1 hu with rfl | rfl
    · exact ⟨'e', sign, ds, .inl rfl, hs', mem_digitsPattern.1 hds, rfl⟩
    · exact ⟨'E', sign, ds, .inr rfl, hs', mem_digitsPattern.1 hds, rfl⟩
  · rintro ⟨e, sign, ds, he, hs, hds, rfl⟩
    have hu : [e] ∈ (.char 'e' + .char 'E' : RegularExpression Char).matches' := by
      rw [hletter]
      rcases he with rfl | rfl
      · exact .inl rfl
      · exact .inr rfl
    have hs' := (hsign sign).2 (or_assoc.2 hs)
    exact ⟨[e] ++ sign, Language.mem_mul.2 ⟨[e], hu, sign, hs', rfl⟩, ds, mem_digitsPattern.2 hds, rfl⟩

theorem mem_matches'_optional {P : RegularExpression Char} :
    t ∈ (P + 1).matches' ↔ t ∈ P.matches' ∨ t = [] := Iff.rfl

/-- A number: digits, a fraction or none, an exponent or none. -/
theorem mem_numberPattern : t ∈ numberPattern.matches' ↔ ∃ ds f x, Digits ds ∧
    (f ∈ fractionPattern.matches' ∨ f = []) ∧ (x ∈ exponentPattern.matches' ∨ x = []) ∧
    t = ds ++ f ++ x := by
  rw [numberPattern, RegularExpression.matches'_mul, Language.mem_mul,
    RegularExpression.matches'_mul]
  constructor
  · rintro ⟨a, ha, x, hx, rfl⟩
    obtain ⟨ds, hds, f, hf, rfl⟩ := Language.mem_mul.1 ha
    exact ⟨ds, f, x, mem_digitsPattern.1 hds, mem_matches'_optional.1 hf,
      mem_matches'_optional.1 hx, rfl⟩
  · rintro ⟨ds, f, x, hds, hf, hx, rfl⟩
    exact ⟨ds ++ f, Language.mem_mul.2 ⟨ds, mem_digitsPattern.2 hds, f, hf, rfl⟩, x, hx, rfl⟩

/-! ## §2. What is split off matches. -/

/-- Digits that are taken are digits. -/
theorem digits_takeWhile (h : cs.takeWhile isAsciiDigit ≠ []) : Digits (cs.takeWhile isAsciiDigit) :=
  ⟨h, fun _ hc => List.mem_takeWhile_imp hc⟩

/-- What is taken as a fraction is one, or nothing. -/
theorem splitFraction_matches (cs : List Char) :
    (splitFraction cs).1 ∈ fractionPattern.matches' ∨ (splitFraction cs).1 = [] := by
  unfold splitFraction
  split
  · split
    · exact .inr rfl
    · next r hne =>
      exact .inl (mem_fractionPattern.2 ⟨_, digits_takeWhile hne, rfl⟩)
  · exact .inr rfl

/-- What is taken as an exponent is one, or nothing. -/
theorem splitExponent_matches (cs : List Char) :
    (splitExponent cs).1 ∈ exponentPattern.matches' ∨ (splitExponent cs).1 = [] := by
  unfold splitExponent
  split
  · exact .inr rfl
  next e r =>
  split
  · next he =>
    split
    next sign ds hread =>
    -- The sign may be left out.
    have hsign : IsSign sign := by
      unfold IsSign
      split at hread
      · split at hread <;> cases hread
        · next hs => simpa [or_assoc] using hs
        · exact .inr (.inr rfl)
      · cases hread
        exact .inr (.inr rfl)
    split
    · exact .inr rfl
    · next hne =>
      have he' : e = 'e' ∨ e = 'E' := by simpa using he
      exact .inl (mem_exponentPattern.2 ⟨e, sign, _, he', hsign, digits_takeWhile hne, rfl⟩)
  · exact .inr rfl

/-- **What is split off is a number.** -/
theorem numberLexeme_matches {c : Char} (hc : isAsciiDigit c = true) (cs : List Char) :
    (numberLexeme (c :: cs)).1 ∈ numberPattern.matches' := by
  have hdigits : (c :: cs).takeWhile isAsciiDigit ≠ [] := by simp [hc]
  exact mem_numberPattern.2 ⟨_, _, _, digits_takeWhile hdigits, splitFraction_matches _,
    splitExponent_matches _, rfl⟩

/-! ## §3. Nothing that matches is cut short. -/

/-- Digits in front of a text are taken with all that follow them. -/
theorem takeWhile_digits (hds : Digits ds) (r : List Char) :
    (ds ++ r).takeWhile isAsciiDigit = ds ++ r.takeWhile isAsciiDigit ∧
      (ds ++ r).dropWhile isAsciiDigit = r.dropWhile isAsciiDigit :=
  ⟨List.takeWhile_append_of_pos hds.2, List.dropWhile_append_of_pos hds.2⟩

/-- A fraction is not cut short. -/
theorem splitFraction_keeps (ht : t ∈ fractionPattern.matches') (r : List Char) :
    splitFraction (t ++ r) = (t ++ r.takeWhile isAsciiDigit, r.dropWhile isAsciiDigit) := by
  obtain ⟨ds, hds, rfl⟩ := mem_fractionPattern.1 ht
  obtain ⟨htake, hdrop⟩ := takeWhile_digits hds r
  obtain ⟨d, ds', rfl⟩ := List.exists_cons_of_ne_nil hds.1
  rw [List.cons_append, splitFraction, htake, hdrop]
  rfl

theorem splitExponent_keeps (ht : t ∈ exponentPattern.matches') (r : List Char) :
    splitExponent (t ++ r) = (t ++ r.takeWhile isAsciiDigit, r.dropWhile isAsciiDigit) := by
  obtain ⟨e, sign, ds, he, hsign, hds, rfl⟩ := mem_exponentPattern.1 ht
  obtain ⟨htake, hdrop⟩ := takeWhile_digits hds r
  obtain ⟨d, ds', rfl⟩ := List.exists_cons_of_ne_nil hds.1
  have he' : (e = 'e' || e = 'E') = true := by simpa using he
  -- The first digit is no sign, so it is not taken for one where there is none.
  have hd : (d = '+' || d = '-') = false := by
    have hplus : isAsciiDigit '+' = false := by decide
    have hminus : isAsciiDigit '-' = false := by decide
    have hdigit := hds.2 d List.mem_cons_self
    rw [Bool.or_eq_false_iff, decide_eq_false_iff_not, decide_eq_false_iff_not]
    constructor <;> rintro rfl <;> simp_all
  rcases hsign with rfl | rfl | rfl
  all_goals
    rw [List.cons_append] at htake hdrop
    simp only [splitExponent, List.cons_append, List.nil_append, he', if_true, hd, htake, hdrop,
      Bool.false_eq_true, if_false, decide_true, Bool.true_or, Bool.or_true]

/-- Neither a fraction nor an exponent begins with a digit. -/
theorem takeWhile_pattern
    (ht : t ∈ fractionPattern.matches' ∨ t ∈ exponentPattern.matches') (r : List Char) :
    (t ++ r).takeWhile isAsciiDigit = [] ∧ (t ++ r).dropWhile isAsciiDigit = t ++ r := by
  have hpoint : isAsciiDigit '.' = false := by decide
  have hlower : isAsciiDigit 'e' = false := by decide
  have hupper : isAsciiDigit 'E' = false := by decide
  rcases ht with ht | ht
  · obtain ⟨ds, -, rfl⟩ := mem_fractionPattern.1 ht
    simp [hpoint]
  · obtain ⟨e, sign, ds, rfl | rfl, -, -, rfl⟩ := mem_exponentPattern.1 ht
    · simp [hlower]
    · simp [hupper]

/-- An exponent is not taken for a fraction. -/
theorem splitFraction_exponent (ht : t ∈ exponentPattern.matches') (r : List Char) :
    splitFraction (t ++ r) = ([], t ++ r) := by
  obtain ⟨e, sign, ds, rfl | rfl, -, -, rfl⟩ := mem_exponentPattern.1 ht <;> rfl

/-- **Every number in front of a text is a part of what is split off.** -/
theorem numberLexeme_longest (ht : t ∈ numberPattern.matches') (r : List Char) :
    t <+: (numberLexeme (t ++ r)).1 := by
  obtain ⟨ds, f, x, hds, hf, hx, rfl⟩ := mem_numberPattern.1 ht
  obtain ⟨htake, hdrop⟩ := takeWhile_digits hds (f ++ (x ++ r))
  have hlexeme : (numberLexeme (ds ++ f ++ x ++ r)).1 =
      ds ++ (f ++ (x ++ r)).takeWhile isAsciiDigit ++
        (splitFraction ((f ++ (x ++ r)).dropWhile isAsciiDigit)).1 ++
        (splitExponent (splitFraction ((f ++ (x ++ r)).dropWhile isAsciiDigit)).2).1 := by
    rw [← htake, ← hdrop, ← List.append_assoc, ← List.append_assoc]
    rfl
  rw [hlexeme]
  -- A part that is there begins with no digit, so the part in front of it ends where it begins.
  rcases hf with hf | rfl
  · obtain ⟨hnone, hall⟩ := takeWhile_pattern (.inl hf) (x ++ r)
    rw [hnone, hall, splitFraction_keeps hf]
    rcases hx with hx | rfl
    · obtain ⟨hnone', hall'⟩ := takeWhile_pattern (.inr hx) r
      rw [hnone', hall', splitExponent_keeps hx]
      exact ⟨r.takeWhile isAsciiDigit, by simp⟩
    · simp only [List.append_nil, List.append_assoc]
      rw [List.prefix_append_right_inj]
      exact List.prefix_append f _
  · rw [List.nil_append]
    rcases hx with hx | rfl
    · obtain ⟨hnone, hall⟩ := takeWhile_pattern (.inr hx) r
      rw [hnone, hall, splitFraction_exponent hx, splitExponent_keeps hx]
      exact ⟨r.takeWhile isAsciiDigit, by simp⟩
    · rw [List.append_nil, List.append_nil, List.append_assoc, List.append_assoc]
      exact List.prefix_append _ _

/-! ## §4. Where a token starts. -/

/-- The gap ends inside a text, and if it does not end, where a comment begins. -/
structure Gap.EndsIn (g : Gap) (cs : List Char) (pos : Nat) : Prop where
  /-- What is left is an end of the text. -/
  suffix : g.rest <:+ cs
  /-- It begins at the offset of the gap. -/
  bytes : g.position + byteLength g.rest = pos + byteLength cs
  /-- A comment that does not end begins with a slash. -/
  comment : g.unclosed = true → ∃ r, g.rest = '/' :: r

/-- The gap begins one character earlier. -/
theorem Gap.EndsIn.cons {g : Gap} {c : Char} {pos : Nat} (h : g.EndsIn cs (pos + c.utf8Size)) :
    g.EndsIn (c :: cs) pos := by
  refine ⟨h.suffix.trans (List.suffix_cons c cs), ?_, h.comment⟩
  rw [h.bytes, byteLength_cons, Nat.add_assoc]

/-- Nothing is skipped. -/
theorem Gap.EndsIn.here (cs : List Char) (pos : Nat) : Gap.EndsIn ⟨cs, pos, false⟩ cs pos :=
  ⟨List.suffix_rfl, rfl, fun h => absurd h Bool.false_ne_true⟩

/-- The skipper ends inside the text, unless it is in a comment that does not end. -/
theorem skipLayout_endsIn (mode : LayoutMode) (cs : List Char) (pos : Nat) :
    (skipLayout mode cs pos).EndsIn cs pos ∨
      ∃ r p, mode = .block r p ∧ skipLayout mode cs pos = ⟨r, p, true⟩ := by
  -- By the cases of the scanner; only a comment that is not closed ends nowhere.
  fun_induction skipLayout mode cs pos with
  | case1 cs pos ih =>
    obtain h | ⟨r, p, hmode, -⟩ := ih
    · exact .inl (.cons h)
    · cases hmode
  | case2 cs pos ih =>
    obtain h | ⟨r, p, hmode, hg⟩ := ih
    · exact .inl (.cons (.cons h))
    · cases hmode
      rw [hg]
      exact .inl ⟨List.suffix_rfl, rfl, fun _ => ⟨_, rfl⟩⟩
  | case3 c cs pos _ _ hc ih =>
    obtain h | ⟨r, p, hmode, -⟩ := ih
    · exact .inl (.cons h)
    · cases hmode
  | case4 c cs pos _ _ hc => exact .inl (.here _ _)
  | case5 cs pos ih =>
    obtain h | ⟨r, p, hmode, -⟩ := ih
    · exact .inl (.cons h)
    · cases hmode
  | case6 c cs pos hc ih =>
    obtain h | ⟨r, p, hmode, -⟩ := ih
    · exact .inl (.cons h)
    · cases hmode
  | case7 r p cs pos ih =>
    obtain h | ⟨r, p, hmode, -⟩ := ih
    · exact .inl (.cons (.cons h))
    · cases hmode
  | case8 r p c cs pos _ ih =>
    obtain h | ⟨r', p', hmode, hg⟩ := ih
    · exact .inl (.cons h)
    · exact .inr ⟨r', p', hmode, hg⟩
  | case9 pos => exact .inl (.here _ _)
  | case10 pos => exact .inl (.here _ _)
  | case11 r p pos => exact .inr ⟨r, p, rfl, rfl⟩

/-- The layout in front of a token ends inside the text. -/
theorem skipLayout_plain_endsIn (cs : List Char) (pos : Nat) :
    (skipLayout .plain cs pos).EndsIn cs pos := by
  obtain h | ⟨r, p, hmode, -⟩ := skipLayout_endsIn .plain cs pos
  · exact h
  · cases hmode

/-- An end of a text is known by its offset. -/
theorem eq_of_suffix {whole : List Char} (ht : t <:+ whole) (hr : r <:+ whole)
    (hbytes : byteLength t = byteLength r) : t = r := by
  obtain ⟨a, rfl⟩ | ⟨a, rfl⟩ := List.suffix_or_suffix_of_suffix ht hr
  · obtain rfl : a = [] := byteLength_eq_zero.1 (by rw [byteLength_append] at hbytes; omega)
    rfl
  · obtain rfl : a = [] := byteLength_eq_zero.1 (by rw [byteLength_append] at hbytes; omega)
    rfl

namespace Lexer

/-- A digit starts a number. -/
theorem scan_digit {c : Char} (hc : isAsciiDigit c = true) (cs : List Char) (pos : Nat) :
    scan (c :: cs) pos =
      lexeme .number (numberLexeme (c :: cs)).1 (numberLexeme (c :: cs)).2 pos := by
  have hall : "0123456789".toList.all (fun d => punctuation? d == none && !isSolo d &&
      !Text.isLower d && !(Text.isUpper d || d = '_')) = true := by decide
  have hd := List.all_eq_true.1 hall c (isAsciiDigit_iff_mem.1 hc)
  simp only [Bool.and_eq_true, beq_iff_eq, Bool.not_eq_true'] at hd
  obtain ⟨⟨⟨hpunctuation, hsolo⟩, hlower⟩, hupper⟩ := hd
  simp only [scan, hpunctuation, hsolo, hlower, hupper, hc, Bool.false_eq_true, if_false, if_true]

/-- Quoted text stands where its quote does. -/
theorem quotedToken_position (kind : TokenKind) (c : Char) (cs : List Char) (pos : Nat) :
    (quotedToken kind c cs pos).1.position = pos := by
  unfold quotedToken
  split <;> rfl

/-- A token stands where it was looked for. -/
theorem scan_position (cs : List Char) (pos : Nat) : (scan cs pos).1.position = pos := by
  unfold scan
  split
  · rfl
  split
  · rfl
  · simp only [apply_ite Prod.fst, apply_ite Token.position, quotedToken_position]
    simp [lexeme, stop]

/-- The next token stands where the layout in front of it ends. -/
theorem behind_position (pos : Nat) (g : Gap) : (behind pos g).1.position = g.position := by
  cases hopen : g.unclosed with
  | true => rw [behind_unclosed hopen]
  | false =>
    rw [behind_closed hopen]
    exact scan_position g.rest g.position

/-- **Number tokens are the longest match.**  Where a token of a text starts at a digit, it is a number,
    and the number is the longest piece of the text from there on that is one.  The lexer goes on
    right behind it. -/
theorem number_longest {source : String} {us : List Token} {l : Lexer}
    (hscans : (ofText source).Scans us l) {before cs : List Char} {c : Char}
    (htext : source.toList = before ++ c :: cs) (hposition : l.next.1.position = byteLength before)
    (hdigit : isAsciiDigit c = true) :
    ∃ number rest, c :: cs = number ++ rest ∧ number ∈ numberPattern.matches' ∧
      (∀ t, t <+: c :: cs → t ∈ numberPattern.matches' → t <+: number) ∧
      l.next.1.kind = .number ∧ l.next.1.value = String.ofList number ∧
      l.next.1.quoted = false ∧
      l.next.2 = ⟨rest, byteLength (before ++ number), none⟩ := by
  have hfault : (ofText source).fault = none := rfl
  have hbytes := hscans.bytes hfault
  obtain ⟨tiles, -, hconsumed, -⟩ := hscans.exists_tiles hfault
  have hl := hscans.fault hfault
  obtain ⟨left, pos, fault⟩ := l
  obtain rfl : fault = none := hl
  have hzero : (ofText source).position = 0 := rfl
  have hrest : (ofText source).rest = source.toList := rfl
  simp only [hzero, hrest, Nat.zero_add] at hbytes hconsumed
  -- The token is looked for at the end of the text that begins with the digit.
  have hends := skipLayout_plain_endsIn left pos
  rw [next_eq] at hposition ⊢
  generalize skipLayout .plain left pos = g at hends hposition ⊢
  rw [behind_position] at hposition
  have hleft : left <:+ source.toList := ⟨_, hconsumed.symm⟩
  have hdigits : c :: cs <:+ source.toList := ⟨before, htext.symm⟩
  have hg : g.rest = c :: cs := by
    refine eq_of_suffix (hends.suffix.trans hleft) hdigits ?_
    have htotal := hends.bytes
    rw [hbytes, htext, byteLength_append, hposition] at htotal
    omega
  have hclosed : g.unclosed = false := by
    by_contra hopen
    obtain ⟨r, hr⟩ := hends.comment (by simpa using hopen)
    have hslash : isAsciiDigit '/' = false := by decide
    obtain ⟨rfl, -⟩ := List.cons.inj (hg.symm.trans hr)
    rw [hslash] at hdigit
    cases hdigit
  rw [behind_closed hclosed, hg, hposition, scan_digit hdigit]
  refine ⟨(numberLexeme (c :: cs)).1, (numberLexeme (c :: cs)).2, (numberLexeme_append _).symm,
    numberLexeme_matches hdigit cs, ?_, rfl, rfl, rfl, ?_⟩
  · rintro t ⟨r, hr⟩ ht
    rw [← hr]
    exact numberLexeme_longest ht r
  · rw [byteLength_append]
    rfl

/-- Behind the name in `a 1.5e+.2` the number is `1.5`: no digit follows the sign of the exponent. -/
theorem number_longest_signed : ∃ number rest, "1.5e+.2".toList = number ++ rest ∧
    number ∈ numberPattern.matches' ∧
    (∀ t, t <+: "1.5e+.2".toList → t ∈ numberPattern.matches' → t <+: number) ∧
    (ofText "a 1.5e+.2").next.2.next.1.kind = .number ∧
    (ofText "a 1.5e+.2").next.2.next.1.value = String.ofList number ∧
    (ofText "a 1.5e+.2").next.2.next.1.quoted = false ∧
    (ofText "a 1.5e+.2").next.2.next.2 = ⟨rest, byteLength ("a ".toList ++ number), none⟩ := by
  have hscans : (ofText "a 1.5e+.2").Scans [(ofText "a 1.5e+.2").next.1] (ofText "a 1.5e+.2").next.2 :=
    .more (by decide +kernel) .done
  have htext : "a 1.5e+.2".toList = "a ".toList ++ '1' :: ".5e+.2".toList := by decide
  have hposition : (ofText "a 1.5e+.2").next.2.next.1.position = byteLength "a ".toList := by
    decide +kernel
  exact number_longest hscans htext hposition (by decide)

end Lexer

end PrologMachine
