/-
  PrologMachine.Proofs.Reading.Atoms ── **ATOMS READ BACK.**

  The writer puts an atom between quotes when it could not be read back bare.  The lexer undoes this:
  the written atom is one name, quoted or not, and its value is the atom.

  The empty list shares its brackets with the atom of that name, which is written like it and so is two
  tokens.

    * `ReadableName`: which atoms this is about.
    * `Lexer.oneName_atom`: their written form is one name.
    * `Lexer.brackets_not_oneName`: the brackets are not.
-/
import PrologMachine.Proofs.Reading.RoundTrip

namespace PrologMachine

/-- The atom is written so that the lexer takes it for what it is: it is no pair of brackets and no full
    stop, it is put between quotes if it starts like a comment, and if it has a backslash it is not. -/
structure ReadableName (name : List Char) : Prop where
  /-- Brackets are the empty list. -/
  brackets : name ≠ ['[', ']']
  /-- Braces are no token. -/
  braces : name ≠ ['\x7b', '\x7d']
  /-- A full stop in front of a space ends a clause. -/
  stop : name ≠ ['.']
  /-- A bare name does not start a comment. -/
  comment : ['/', '*'] <+: name → ¬ ∀ c ∈ name, isSymbolChar c = true
  /-- Between quotes a backslash would escape the next character. -/
  backslash : '\\' ∈ name → ∀ c ∈ name, isSymbolChar c = true

/-- A bare name that starts with a slash is made of symbol characters. -/
theorem symbols_of_bare {r : List Char} (h : needsQuotes ('/' :: r) = false) :
    ∀ c ∈ '/' :: r, isSymbolChar c = true := by
  have hlower : Text.isLower '/' = false := by decide
  simpa [needsQuotes, hlower] using h

/-- A readable name that is written bare can be written anywhere. -/
theorem ReadableName.writable {name : List Char} (h : ReadableName name)
    (hbare : needsQuotes name = false) : WritableName name where
  brackets := h.brackets
  braces := h.braces
  comment hstart := by
    refine h.comment hstart ?_
    obtain ⟨r, rfl⟩ := hstart
    exact symbols_of_bare hbare
  backslash := h.backslash

namespace Lexer

theorem takes_atom {name rest : List Char} (h : ReadableName name) (hrest : Delimited rest) :
    Takes .name (String.ofList name) (atomChars name ++ rest) rest := by
  cases hquotes : needsQuotes name with
  | false => exact takes_name (h.writable hquotes) hrest fun hstop => absurd hstop h.stop
  | true =>
    have hback : '\\' ∉ name := by
      intro hmem
      rw [needsQuotes_symbols (List.ne_nil_of_mem hmem) (h.backslash hmem)] at hquotes
      cases hquotes
    rw [atomChars, if_pos hquotes]
    exact takes_quoted hback hrest

/-- The whole text is one name with this value. -/
def OneName (source value : String) : Prop :=
  ∃ t eof l, (ofText source).tokens = ([t, eof], l) ∧ t.kind = .name ∧ t.value = value ∧
    eof.kind = .eof

/-- Behind a space the text ends. -/
theorem tokens_space (pos : Nat) :
    ∃ eof l, tokens ⟨[' '], pos, none⟩ = ([eof], l) ∧ eof.kind = .eof :=
  ⟨_, _, rfl, rfl⟩

/-- **A written atom in front of a space is one name**, whose value is the atom. -/
theorem oneName_atom {s : String} (h : ReadableName s.toList) :
    OneName ((Atomic.atom s).text ++ " ") s := by
  obtain ⟨t, pos', hscan, hkind, hvalue, -⟩ := takes_atom h (delimited_cons (c := ' ') (by decide) []) 0
  obtain ⟨eof, l, hspace, heof⟩ := tokens_space pos'
  have htext : ofText ((Atomic.atom s).text ++ " ") = ⟨atomChars s.toList ++ [' '], 0, none⟩ := by
    simp [ofText, Atomic.text, Atomic.chars]
  refine ⟨t, eof, l, ?_, hkind, ?_, heof⟩
  · rw [htext, hscan.tokens, hspace]
    rfl
  · rw [hvalue, String.ofList_toList]

/-- An atom with a comment sign and a quote is written between quotes, one of symbols with a backslash is
    not. -/
theorem oneName_atom_quoted :
    OneName ((Atomic.atom "/*'").text ++ " ") "/*'" ∧
      OneName ((Atomic.atom "\\=").text ++ " ") "\\=" := by
  have hquote : ReadableName "/*'".toList :=
    ⟨by decide, by decide, by decide, fun _ hall => absurd (hall '\'' (by decide)) (by decide),
      fun hmem => absurd hmem (by decide)⟩
  have hsymbols : ReadableName "\\=".toList :=
    ⟨by decide, by decide, by decide,
      fun hstart => absurd hstart (Lexer.not_comment (c := '\\') (by decide)),
      fun _ => List.all_eq_true.1 (by decide)⟩
  exact ⟨oneName_atom hquote, oneName_atom hsymbols⟩

/-- The atom of two brackets is written like the empty list, and is two tokens. -/
theorem brackets_not_oneName :
    (Atomic.atom "[]").text = "[]" ∧
      (ofText ((Atomic.atom "[]").text ++ " ")).tokens.1.map Token.kind =
        [.bracketOpen, .bracketClose, .eof] ∧
      ¬ OneName ((Atomic.atom "[]").text ++ " ") "[]" := by
  have htokens : (ofText ((Atomic.atom "[]").text ++ " ")).tokens.1.map Token.kind =
      [.bracketOpen, .bracketClose, .eof] := by rfl
  refine ⟨rfl, htokens, ?_⟩
  rintro ⟨t, eof, l, hone, -⟩
  rw [hone] at htokens
  exact absurd (congrArg List.length htokens) (by simp)

end Lexer

end PrologMachine
