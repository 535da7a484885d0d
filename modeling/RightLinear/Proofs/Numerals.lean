import RightLinear.Json.Number
import RightLinear.Json.Printer
import RightLinear.Proofs.Digits

/-! # Numbers are read as they are written

A number that fits 64 bits is read back exactly (`numeral_natural`).  Its digits are taken up to the
last, since none of what can stand behind a number would carry it on; none of them is left over,
since the value only grows and stays in range; and none is a superfluous zero. -/

namespace RightLinear.Json

open Text

/-- No part of a number: what may stand behind its last digit. -/
def EndsNumber (rest : List Char) : Prop :=
  ∀ c, rest.head? = some c → c.isDigit = false ∧ c ≠ '.' ∧ c ≠ 'e' ∧ c ≠ 'E'

theorem someDigits_append {digits rest : List Char} (hne : digits ≠ [])
    (hdigits : ∀ c ∈ digits, c.isDigit = true) (hrest : EndsNumber rest) :
    someDigits (digits ++ rest) = .ok (digits, rest) := by
  obtain ⟨c, t, rfl⟩ := List.exists_cons_of_ne_nil hne
  have hhead : ¬ ∃ d ∈ rest.head?, d.isDigit = true := by
    rintro ⟨d, hd, h⟩
    rw [(hrest d hd).1] at h
    cases h
  have htake : rest.takeWhile Char.isDigit = [] := by
    cases rest with
    | nil => rfl
    | cons d rest => exact List.takeWhile_cons_of_neg fun h => hhead ⟨d, rfl, h⟩
  have hdrop : rest.dropWhile Char.isDigit = rest := by
    cases rest with
    | nil => rfl
    | cons d rest => exact List.dropWhile_cons_of_neg fun h => hhead ⟨d, rfl, h⟩
  show (if c.isDigit then Except.ok (digitRun (c :: t ++ rest),
    (c :: t ++ rest).dropWhile Char.isDigit) else _) = _
  rw [if_pos (hdigits c List.mem_cons_self), digitRun, List.takeWhile_append_of_pos hdigits,
    List.dropWhile_append_of_pos hdigits, htake, hdrop, List.append_nil]

/-- Digits whose value fits 64 bits all go into the significand. -/
theorem significand_eq {digits : List Char} {v : Nat}
    (h : Nat.ofDigitChars 10 digits v < UInt64.size) :
    significand v digits = (Nat.ofDigitChars 10 digits v, 0) := by
  induction digits generalizing v with
  | nil => rw [significand, Nat.ofDigitChars_nil]
  | cons c digits ih =>
      rw [Nat.ofDigitChars_cons] at h ⊢
      have hle := le_ofDigitChars digits (10 * v + (c.toNat - '0'.toNat))
      rw [significand, digitValue, if_pos (Nat.lt_of_le_of_lt hle h)]
      exact ih h

theorem numeral_natural {n : Nat} (hn : n < UInt64.size) {rest : List Char}
    (hrest : EndsNumber rest) : numeral (natural n ++ rest) = .ok (.natural n, rest) := by
  have hdigits : ∀ c ∈ natural n, c.isDigit = true := fun c hc => isDigit_of_mem_toDigits hc
  have hne : natural n ≠ [] := Nat.toDigits_ne_nil
  have hvalue : Nat.ofDigitChars 10 (natural n) 0 = n := Nat.ofDigitChars_ten_toDigits
  have hzero : ¬ ((natural n).head? = some '0' ∧ (natural n).length ≠ 1) := by
    rintro ⟨hhead, hlength⟩
    rw [eq_zero_of_head?_toDigits hhead] at hlength
    exact hlength rfl
  have hsignificand : significand 0 (natural n) = (n, 0) := by
    rw [significand_eq (hvalue.symm ▸ hn), hvalue]
  have hunsigned : readUnsigned false (natural n ++ rest) = .ok (.natural n, rest) := by
    unfold readUnsigned
    rw [someDigits_append hne hdigits hrest]
    simp only [bind, Except.bind, if_neg hzero, hsignificand]
    split
    · exact absurd rfl (hrest _ rfl).2.1
    · exact absurd rfl (hrest _ rfl).2.2.1
    · exact absurd rfl (hrest _ rfl).2.2.2
    · rfl
  obtain ⟨c, t, hct⟩ := List.exists_cons_of_ne_nil hne
  have hminus : ¬ c = '-' := by
    rintro rfl
    exact absurd (hdigits '-' (hct ▸ List.mem_cons_self)) (by decide)
  rw [← hunsigned, hct, List.cons_append]
  unfold numeral
  split
  · next heq => exact absurd (List.cons.inj heq).1 hminus
  · rfl

end RightLinear.Json
