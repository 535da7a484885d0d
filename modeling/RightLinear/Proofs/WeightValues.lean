import Mathlib.Data.List.Basic
import RightLinear.Lines.Directive
import RightLinear.Proofs.Digits

/-! # The values of weights

The digits of a weight are read from the left, each behind the value of those before it.  A digit fits if
it is ASCII and the value stays below 32 bits (`weightValue_cons`).  If all digits fit, the value is
that of the number (`weightValue_of_fits`), and if not, the first that does not is what is reported
(`weightValue_eq_error`). -/

namespace RightLinear.Lines

open Text

/-- ASCII digits that make a number of 32 bits behind the value `n`. -/
def Fits (n : Nat) (digits : List Char) : Prop :=
  (∀ c ∈ digits, c.isDigit = true) ∧ Nat.ofDigitChars 10 digits n < UInt32.size

/-- What is wrong with the first digit that does not fit behind the value `n`. -/
def DigitFault (n : Nat) (digits : List Char) (fault : LineFault) : Prop :=
  ∃ before c after, digits = before ++ c :: after ∧ Fits n before ∧ ¬ Fits n (before ++ [c]) ∧
    fault = if c.isDigit then .largeWeight else .foreignDigit

theorem fits_cons {n : Nat} {c : Char} {digits : List Char} :
    Fits n (c :: digits) ↔ c.isDigit = true ∧ Fits (10 * n + (c.toNat - '0'.toNat)) digits := by
  simp only [Fits, List.forall_mem_cons, Nat.ofDigitChars_cons, and_assoc]

theorem fits_singleton {n : Nat} {c : Char} :
    Fits n [c] ↔ c.isDigit = true ∧ 10 * n + (c.toNat - '0'.toNat) < UInt32.size := by
  rw [fits_cons]
  simp [Fits]

theorem Fits.of_cons {n : Nat} {c : Char} {digits : List Char} (h : Fits n (c :: digits)) :
    Fits n [c] := by
  obtain ⟨hc, hrest⟩ := fits_cons.mp h
  have hle := le_ofDigitChars digits (10 * n + (c.toNat - '0'.toNat))
  exact fits_singleton.mpr ⟨hc, Nat.lt_of_le_of_lt hle hrest.2⟩

theorem asciiValue?_eq (c : Char) :
    asciiValue? c = if c.isDigit then some (c.toNat - '0'.toNat) else none := by
  simp [asciiValue?, Char.isDigit]
  rfl

theorem weightValue_cons (n : Nat) (c : Char) (digits : List Char) :
    (Fits n [c] ∧ weightValue n (c :: digits) =
      weightValue (10 * n + (c.toNat - '0'.toNat)) digits) ∨
    (¬ Fits n [c] ∧ weightValue n (c :: digits) =
      .error (if c.isDigit then .largeWeight else .foreignDigit)) := by
  rw [weightValue, asciiValue?_eq, fits_singleton]
  by_cases hc : c.isDigit = true
  · rw [if_pos hc, if_pos hc]
    by_cases hlt : 10 * n + (c.toNat - '0'.toNat) < UInt32.size
    · exact .inl ⟨⟨hc, hlt⟩, if_pos hlt⟩
    · exact .inr ⟨fun h => hlt h.2, if_neg hlt⟩
  · rw [if_neg hc, if_neg hc]
    exact .inr ⟨fun h => hc h.1, rfl⟩

/-- Digits that fit have the value that they have as a number. -/
theorem weightValue_of_fits {digits : List Char} {n : Nat} (h : Fits n digits) :
    weightValue n digits = .ok (Nat.ofDigitChars 10 digits n).toUInt32 := by
  induction digits generalizing n with
  | nil => rw [weightValue, Nat.ofDigitChars_nil]
  | cons c digits ih =>
      rcases weightValue_cons n c digits with ⟨_, heq⟩ | ⟨hc, _⟩
      · rw [heq, ih (fits_cons.mp h).2, Nat.ofDigitChars_cons]
      · exact absurd h.of_cons hc

theorem weightValue_toDigits (n : UInt32) : weightValue 0 (Nat.toDigits 10 n.toNat) = .ok n := by
  have hfits : Fits 0 (Nat.toDigits 10 n.toNat) := by
    refine ⟨fun _ hc => isDigit_of_mem_toDigits hc, ?_⟩
    rw [Nat.ofDigitChars_ten_toDigits]
    exact n.toNat_lt
  rw [weightValue_of_fits hfits, Nat.ofDigitChars_ten_toDigits]
  exact congrArg Except.ok UInt32.ofNat_toNat

/-- A value is refused for its first digit that does not fit. -/
theorem weightValue_eq_error {digits : List Char} {n : Nat} (hn : n < UInt32.size)
    {fault : LineFault} : weightValue n digits = .error fault ↔ DigitFault n digits fault := by
  induction digits generalizing n with
  | nil =>
      refine iff_of_false (by simp [weightValue]) ?_
      rintro ⟨before, c, after, h, _⟩
      simp at h
  | cons c digits ih =>
      rcases weightValue_cons n c digits with ⟨hc, heq⟩ | ⟨hc, heq⟩
      · rw [heq, ih (fits_singleton.mp hc).2]
        have hdigit := (fits_singleton.mp hc).1
        constructor
        · rintro ⟨before, d, after, rfl, hbefore, hd, hfault⟩
          refine ⟨c :: before, d, after, rfl, fits_cons.mpr ⟨hdigit, hbefore⟩, ?_, hfault⟩
          exact fun h => hd (fits_cons.mp h).2
        · rintro ⟨_ | ⟨b, before⟩, d, after, h, hbefore, hd, hfault⟩
          · cases h
            exact absurd hc hd
          · cases h
            refine ⟨before, d, after, rfl, (fits_cons.mp hbefore).2, ?_, hfault⟩
            exact fun h => hd (fits_cons.mpr ⟨hdigit, h⟩)
      · rw [heq, Except.error.injEq]
        constructor
        · rintro rfl
          exact ⟨[], c, digits, rfl, ⟨by simp, by simpa using hn⟩, hc, rfl⟩
        · rintro ⟨_ | ⟨b, before⟩, d, after, h, hbefore, hd, hfault⟩
          · cases h
            exact hfault.symm
          · cases h
            exact absurd hbefore.of_cons hc

theorem exists_weightValue {digits : List Char} {n : Nat} (hn : n < UInt32.size) :
    (∃ w, weightValue n digits = .ok w) ↔ Fits n digits := by
  constructor
  · rintro ⟨w, h⟩
    induction digits generalizing n with
    | nil => exact ⟨by simp, by simpa using hn⟩
    | cons c digits ih =>
        rcases weightValue_cons n c digits with ⟨hc, heq⟩ | ⟨_, heq⟩
        · have hdigit := fits_singleton.mp hc
          exact fits_cons.mpr ⟨hdigit.1, ih hdigit.2 (heq.symm.trans h)⟩
        · cases heq.symm.trans h
  · intro h
    exact ⟨_, weightValue_of_fits h⟩

end RightLinear.Lines
