/-
  PrologMachine.Proofs.Signature ── **WRITTEN FORMS TELL PREDICATES APART.**

  Predicates are stored under their written form `name/arity`.  A name may itself contain slashes
  and digits, but the decimal text of a number has no slash, so the last slash of a written form
  parts the name from the arity.

    * `toDigits_inj`: decimal texts are different for different numbers.
    * `Signature.text_inj`: so are the written forms of predicates.
-/
import Mathlib
import PrologMachine.Signature

namespace PrologMachine

/-! ## §1. Decimal texts. -/

theorem toDigits_inj {a b : Nat} : Nat.toDigits 10 a = Nat.toDigits 10 b ↔ a = b := by
  refine ⟨fun h => ?_, fun h => h ▸ rfl⟩
  rw [← Nat.ofDigitChars_ten_toDigits (n := a), h, Nat.ofDigitChars_ten_toDigits]

theorem notMem_toDigits {c : Char} (hc : c.isDigit = false) (n : Nat) : c ∉ Nat.toDigits 10 n := by
  intro hmem
  rw [Nat.isDigit_of_mem_toDigits (by decide) (by decide) hmem] at hc
  cases hc

/-- The characters of the decimal text of a whole number. -/
theorem toList_wholeText (n : Int) : (wholeText n).toList =
    if n < 0 then '-' :: Nat.toDigits 10 n.natAbs else Nat.toDigits 10 n.natAbs := by
  cases n with
  | ofNat k => simp [wholeText]
  | negSucc k => simp [wholeText, Int.negSucc_lt_zero]

theorem slash_notMem_wholeText (n : Int) : '/' ∉ (wholeText n).toList := by
  rw [toList_wholeText]
  split <;> simp [notMem_toDigits]

theorem wholeText_inj {a b : Int} : wholeText a = wholeText b ↔ a = b := by
  refine ⟨fun h => ?_, fun h => h ▸ rfl⟩
  have hchars := congrArg String.toList h
  simp only [toList_wholeText] at hchars
  have hminus : ∀ n cs, Nat.toDigits 10 n ≠ '-' :: cs := fun n cs heq =>
    notMem_toDigits (c := '-') (by decide) n (heq ▸ List.mem_cons_self)
  -- One text has a minus sign exactly when the other has.
  split at hchars <;> split at hchars
  · have := toDigits_inj.1 (List.cons.inj hchars).2
    omega
  · exact absurd hchars.symm (hminus _ _)
  · exact absurd hchars (hminus _ _)
  · have := toDigits_inj.1 hchars
    omega

/-! ## §2. Written forms. -/

/-- Two texts that end behind their last slash agree on both sides of it. -/
theorem append_cons_inj_of_notMem_right {α : Type} {x : α} {as bs cs ds : List α} (hb : x ∉ bs)
    (hd : x ∉ ds) (h : as ++ x :: bs = cs ++ x :: ds) : as = cs ∧ bs = ds := by
  rcases List.append_eq_append_iff.1 h with ⟨es, hcs, hbs⟩ | ⟨es, has, hds⟩
  · cases es with
    | nil => exact ⟨by simpa using hcs.symm, (List.cons.inj hbs).2⟩
    | cons e es => exact absurd ((List.cons.inj hbs).2 ▸ by simp) hb
  · cases es with
    | nil => exact ⟨by simpa using has, (List.cons.inj hds).2.symm⟩
    | cons e es => exact absurd ((List.cons.inj hds).2 ▸ by simp) hd

theorem Signature.toList_text (s : Signature) :
    s.text.toList = s.name.toList ++ '/' :: (wholeText s.arity).toList := by
  simp [text]

/-- **The written form tells predicates apart**, whatever characters their names have. -/
theorem Signature.text_inj {a b : Signature} : a.text = b.text ↔ a = b := by
  refine ⟨fun h => ?_, fun h => h ▸ rfl⟩
  have hchars := congrArg String.toList h
  rw [toList_text, toList_text] at hchars
  obtain ⟨hname, harity⟩ := append_cons_inj_of_notMem_right (slash_notMem_wholeText _)
    (slash_notMem_wholeText _) hchars
  obtain ⟨name, arity⟩ := a
  obtain ⟨name', arity'⟩ := b
  obtain rfl : name = name' := String.toList_inj.1 hname
  obtain rfl : arity = arity' := wholeText_inj.1 (String.toList_inj.1 harity)
  rfl

end PrologMachine
