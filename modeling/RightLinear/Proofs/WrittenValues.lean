import RightLinear.Json.Typed
import RightLinear.Proofs.Escapes
import RightLinear.Proofs.Numerals

/-! # Values are read as they are written

`Written r text a` says that the reader `r` takes the text off for the value `a`, behind blanks and
whatever stands behind it.  Strings, characters and numbers are written so by the printer.  A reader is
followed step by step: when its first part has read something, the rest of it goes on with what is left
(`bind_ok`). -/

namespace RightLinear.Json

open Reader Text

variable {α β : Type}

/-- White space only. -/
def IsSpaces (s : List Char) : Prop := ∀ c ∈ s, isSpace c = true

/-- What may stand behind a value: nothing, a blank, a comma or a closing bracket. -/
def Ends (rest : List Char) : Prop :=
  ∀ c, rest.head? = some c → isSpace c = true ∨ c = ',' ∨ c = ']' ∨ c = '\x7d'

/-- The text starts with a sign of its own, which is neither a blank nor closes a list. -/
def Starts (text : List Char) : Prop :=
  ∃ c t, text = c :: t ∧ isSpace c = false ∧ c ≠ ']'

/-- The reader takes the text off for the value, whatever stands behind it. -/
structure Written (r : Reader α) (text : List Char) (a : α) : Prop where
  starts : Starts text
  read : ∀ {blanks rest}, IsSpaces blanks → Ends rest → r (blanks ++ (text ++ rest)) = .ok (a, rest)

theorem Written.read_front {r : Reader α} {text rest : List Char} {a : α} (h : Written r text a)
    (hrest : Ends rest) : r (text ++ rest) = .ok (a, rest) :=
  h.read (List.forall_mem_nil _) hrest

theorem isSpaces_nil : IsSpaces [] := List.forall_mem_nil _

theorem isSpaces_indent (style : Style) (depth : Nat) : IsSpaces (style.indent depth) := by
  intro c h
  cases style with
  | compact => cases h
  | pretty =>
      rcases List.mem_cons.mp h with rfl | h
      · rfl
      · rw [(List.mem_replicate.mp h).2]
        rfl

theorem ends_nil : Ends [] := fun _ h => nomatch h

theorem ends_cons {c : Char} (h : isSpace c = true ∨ c = ',' ∨ c = ']' ∨ c = '\x7d')
    (rest : List Char) : Ends (c :: rest) := by
  intro d hd
  cases hd
  exact h

theorem ends_append {blanks rest : List Char} (hblanks : IsSpaces blanks) (hrest : Ends rest) :
    Ends (blanks ++ rest) := by
  cases blanks with
  | nil => exact hrest
  | cons c blanks => exact ends_cons (.inl (hblanks c List.mem_cons_self)) _

/-! ### Steps of readers -/

namespace Reader

/-- After one reader the next goes on with what is left. -/
theorem bind_ok {r : Reader α} {f : α → Reader β} {s s' : List Char} {a : α}
    (h : r s = .ok (a, s')) : (r >>= f) s = f a s' := by
  show (r s >>= fun p => f p.1 p.2) = f a s'
  rw [h]
  rfl

theorem drop_cons (c : Char) (s : List Char) : drop (c :: s) = .ok ((), s) := rfl

theorem upcoming_blanks {blanks : List Char} (hblanks : IsSpaces blanks) {c : Char}
    (hc : isSpace c = false) (s : List Char) : upcoming (blanks ++ c :: s) = .ok (c, c :: s) := by
  have hdrop : (blanks ++ c :: s).dropWhile isSpace = c :: s := by
    rw [List.dropWhile_append_of_pos hblanks]
    exact List.dropWhile_cons_of_neg (by rw [hc]; exact Bool.false_ne_true)
  unfold upcoming
  rw [hdrop]

theorem symbol_blanks {blanks : List Char} (hblanks : IsSpaces blanks) {c : Char}
    (hc : isSpace c = false) (s : List Char) : symbol c (blanks ++ c :: s) = .ok ((), s) := by
  unfold symbol
  rw [bind_ok (upcoming_blanks hblanks hc s), if_pos rfl]
  rfl

theorem symbol_cons {c : Char} (hc : isSpace c = false) (s : List Char) :
    symbol c (c :: s) = .ok ((), s) :=
  symbol_blanks isSpaces_nil hc s

end Reader

/-! ### Strings -/

theorem encode_append (s rest : List Char) :
    encode s ++ rest = '"' :: (s.flatMap encodeChar ++ '"' :: rest) := by
  simp [encode]

theorem starts_encode (s : List Char) : Starts (encode s) :=
  ⟨'"', _, rfl, rfl, by decide⟩

theorem characters_encode (expected : String) (s : List Char) {blanks : List Char}
    (hblanks : IsSpaces blanks) (rest : List Char) :
    characters expected (blanks ++ (encode s ++ rest)) = .ok (s, rest) := by
  unfold characters
  rw [encode_append, bind_ok (upcoming_blanks hblanks rfl _), if_pos rfl, bind_ok (drop_cons _ _)]
  exact decode_encode s rest

theorem written_string (s : String) : Written string (encode s.toList) s where
  starts := starts_encode _
  read := by
    intro blanks rest hblanks _
    unfold string
    rw [bind_ok (characters_encode _ _ hblanks _), String.ofList_toList]
    rfl

theorem written_character (c : Char) : Written character (encode [c]) c where
  starts := starts_encode _
  read := by
    intro blanks rest hblanks _
    unfold character
    rw [bind_ok (characters_encode _ _ hblanks _)]
    rfl

theorem key_encode (s : String) (rest : List Char) :
    key (encode s.toList ++ rest) = .ok (s, rest) := by
  unfold key
  rw [encode_append, bind_ok (drop_cons _ _), bind_ok (decode_encode _ _), String.ofList_toList]
  rfl

/-! ### Numbers -/

theorem eq_of_isSpace {c : Char} (h : isSpace c = true) :
    c = ' ' ∨ c = '\n' ∨ c = '\t' ∨ c = '\r' := by
  simpa [isSpace, or_assoc] using h

theorem Ends.endsNumber {rest : List Char} (h : Ends rest) : EndsNumber rest := by
  intro c hc
  rcases h c hc with hspace | rfl | rfl | rfl
  · rcases eq_of_isSpace hspace with rfl | rfl | rfl | rfl <;> decide
  · decide
  · decide
  · decide

theorem not_isSpace_of_isDigit {c : Char} (h : c.isDigit = true) : isSpace c = false := by
  by_contra hspace
  rw [Bool.not_eq_false] at hspace
  rcases eq_of_isSpace hspace with rfl | rfl | rfl | rfl <;> exact absurd h (by decide)

theorem exists_digit_natural (n : Nat) : ∃ c t, natural n = c :: t ∧ c.isDigit = true := by
  obtain ⟨c, t, hct⟩ := List.exists_cons_of_ne_nil (Nat.toDigits_ne_nil (n := n) (b := 10))
  exact ⟨c, t, hct, isDigit_of_mem_toDigits (hct ▸ List.mem_cons_self)⟩

theorem starts_natural (n : Nat) : Starts (natural n) := by
  obtain ⟨c, t, hct, hdigit⟩ := exists_digit_natural n
  refine ⟨c, t, hct, not_isSpace_of_isDigit hdigit, ?_⟩
  rintro rfl
  exact absurd hdigit (by decide)

theorem naturalBelow_natural {bound n : Nat} (hbound : bound ≤ UInt64.size) (hn : n < bound)
    (expected : String) {blanks rest : List Char} (hblanks : IsSpaces blanks) (hrest : Ends rest) :
    naturalBelow bound expected (blanks ++ (natural n ++ rest)) = .ok (n, rest) := by
  have hread := numeral_natural (Nat.lt_of_lt_of_le hn hbound) hrest.endsNumber
  obtain ⟨c, t, hct, hdigit⟩ := exists_digit_natural n
  rw [hct, List.cons_append] at hread ⊢
  unfold naturalBelow
  rw [bind_ok (upcoming_blanks hblanks (not_isSpace_of_isDigit hdigit) _), if_pos (.inr hdigit),
    bind_ok hread]
  dsimp only
  rw [if_pos hn]
  rfl

theorem written_word32 (n : UInt32) : Written word32 (natural n.toNat) n where
  starts := starts_natural _
  read := by
    intro blanks rest hblanks hrest
    unfold word32
    rw [bind_ok (naturalBelow_natural (by decide) n.toNat_lt _ hblanks hrest)]
    exact congrArg (fun m => Except.ok (m, rest)) UInt32.ofNat_toNat

theorem written_word64 (n : UInt64) : Written word64 (natural n.toNat) n where
  starts := starts_natural _
  read := by
    intro blanks rest hblanks hrest
    unfold word64
    rw [bind_ok (naturalBelow_natural (Nat.le_refl _) n.toNat_lt _ hblanks hrest)]
    exact congrArg (fun m => Except.ok (m, rest)) UInt64.ofNat_toNat

end RightLinear.Json
