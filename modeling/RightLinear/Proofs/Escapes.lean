import RightLinear.Json.Text

/-! # Strings are read as they are written

A character that is written by an escape is read from that escape, however it is chosen: by its own
sign, by a short name or by number (`decodeFrom_encodeChar`).  So a string is read back up to its
closing quotation mark, whatever stands behind it (`decode_encode`). -/

namespace RightLinear.Json

/-! ### Escapes -/

theorem decodeFrom_skip (before taken rest : List Char) :
    decodeFrom before taken.length (taken ++ rest) = decodeFrom before 0 rest := by
  induction taken with
  | nil => rfl
  | cons c taken ih =>
      rw [List.length_cons, List.cons_append, decodeFrom]
      exact ih

theorem decodeFrom_escape {before rest : List Char} {c : Char} (taken : List Char)
    (h : escape (taken ++ rest) = .ok (c, taken.length)) :
    decodeFrom before 0 ('\\' :: (taken ++ rest)) = decodeFrom (c :: before) 0 rest := by
  rw [decodeFrom, if_neg (by decide), if_pos rfl, h]
  exact decodeFrom_skip (c :: before) taken rest

theorem hexValue?_hexDigit (n : Nat) : hexValue? (hexDigit n) = some (n % 16) := by
  have h : ∀ m < 16, hexValue? (Nat.digitChar m) = some m := by decide
  exact h (n % 16) (Nat.mod_lt n (by decide))

theorem fourDigits_control {n : Nat} (h : n < 32) (rest : List Char) :
    fourDigits ('0' :: '0' :: hexDigit (n / 16) :: hexDigit n :: rest) = .ok n := by
  have hdigits : [('0' : Char), '0', hexDigit (n / 16), hexDigit n].mapM hexValue? =
      some [0, 0, n / 16 % 16, n % 16] := by
    have hzero : hexValue? '0' = some 0 := by decide
    simp only [List.mapM_cons, List.mapM_nil, hzero, hexValue?_hexDigit]
    rfl
  unfold fourDigits
  rw [List.take_succ_cons, List.take_succ_cons, List.take_succ_cons, List.take_succ_cons,
    List.take_zero, hdigits]
  dsimp only
  congr 1
  omega

theorem escape_control {c : Char} (h : c.toNat < 32) (rest : List Char) :
    escape ('u' :: '0' :: '0' :: hexDigit (c.toNat / 16) :: hexDigit c.toNat :: rest) =
      .ok (c, 5) := by
  -- A control is no half of a pair, so its number stands for a character by itself.
  have htrailing : isTrailing c.toNat = false := by
    simp only [isTrailing, Bool.and_eq_false_iff, decide_eq_false_iff_not]
    omega
  have hleading : isLeading c.toNat = false := by
    simp only [isLeading, Bool.and_eq_false_iff, decide_eq_false_iff_not]
    omega
  have hnumber : numberedEscape
      ('0' :: '0' :: hexDigit (c.toNat / 16) :: hexDigit c.toNat :: rest) = .ok (c, 4) := by
    unfold numberedEscape
    rw [fourDigits_control h]
    simp only [bind, Except.bind, htrailing, hleading, Char.ofNat_toNat]
    rfl
  rw [escape, hnumber]
  rfl

/-! ### Strings -/

/-- Each character is read from the form in which it is written. -/
theorem decodeFrom_encodeChar (before : List Char) (c : Char) (rest : List Char) :
    decodeFrom before 0 (encodeChar c ++ rest) = decodeFrom (c :: before) 0 rest := by
  unfold encodeChar
  split
  · next h =>
    have hescape : escape ([c] ++ rest) = .ok (c, 1) := by
      rcases h with rfl | rfl <;> rfl
    exact decodeFrom_escape [c] hescape
  · next hplain =>
    rw [not_or] at hplain
    split
    · next h => subst h; exact decodeFrom_escape ['b'] rfl
    split
    · next h => subst h; exact decodeFrom_escape ['f'] rfl
    split
    · next h => subst h; exact decodeFrom_escape ['n'] rfl
    split
    · next h => subst h; exact decodeFrom_escape ['r'] rfl
    split
    · next h => subst h; exact decodeFrom_escape ['t'] rfl
    split
    · next h =>
      exact decodeFrom_escape ['u', '0', '0', hexDigit (c.toNat / 16), hexDigit c.toNat]
        (escape_control h rest)
    · next h =>
      rw [List.singleton_append, decodeFrom, if_neg hplain.1, if_neg hplain.2, if_neg h]

theorem decodeFrom_encoded (before s rest : List Char) :
    decodeFrom before 0 (s.flatMap encodeChar ++ '"' :: rest) =
      .ok (before.reverse ++ s, rest) := by
  induction s generalizing before with
  | nil =>
      rw [List.flatMap_nil, List.nil_append, decodeFrom, if_pos rfl, List.append_nil]
  | cons c s ih =>
      rw [List.flatMap_cons, List.append_assoc, decodeFrom_encodeChar, ih, List.reverse_cons,
        List.append_assoc, List.singleton_append]

/-- Behind its opening quotation mark a string is read back. -/
theorem decode_encode (s rest : List Char) :
    decode (s.flatMap encodeChar ++ '"' :: rest) = .ok (s, rest) :=
  decodeFrom_encoded [] s rest

end RightLinear.Json
