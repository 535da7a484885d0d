import Mathlib.Data.List.Basic
import RightLinear.Text.Blank
import RightLinear.Text.Listing

/-! # Cutting what has been joined

Texts are put together with separators and cut at them again.  Everything about `fields` and `words`
follows from one equation, that a cut at a separator cuts both sides on their own (`cutWhere_append`).
So items without the separator can be told apart in the text that they make up (`ended_injective`,
`joined_injective`).  A text without blanks at its ends is what trimming leaves of it (`trim_append`). -/

namespace RightLinear.Text

/-- A text with characters, none of them blank. -/
def IsRun (s : List Char) : Prop := s ≠ [] ∧ ∀ c ∈ s, isBlank c = false

-- decided along the list; the characters are also finitely many, which is of no use here
instance (s : List Char) : Decidable (IsRun s) :=
  @instDecidableAnd _ _ _ (List.decidableBAll (fun c => isBlank c = false) s)

/-- A text without blanks at its ends. -/
def IsTrimmed (s : List Char) : Prop :=
  (∀ c, s.head? = some c → isBlank c = false) ∧ ∀ c, s.getLast? = some c → isBlank c = false

theorem isRun_singleton {c : Char} : IsRun [c] ↔ isBlank c = false := by
  simp [IsRun]

/-! ### Joining -/

theorem joined_singleton (sep s : List Char) : joined sep [s] = s := List.intercalate_singleton

theorem joined_cons_cons (sep s t : List Char) (l : List (List Char)) :
    joined sep (s :: t :: l) = s ++ (sep ++ joined sep (t :: l)) := by
  unfold joined
  rw [List.intercalate_cons_cons, List.append_assoc]

theorem mem_joined {sep : List Char} {items : List (List Char)} {c : Char}
    (h : c ∈ joined sep items) : c ∈ sep ∨ ∃ s ∈ items, c ∈ s := by
  induction items with
  | nil => cases h
  | cons s items ih =>
      cases items with
      | nil =>
          rw [joined_singleton] at h
          exact .inr ⟨s, List.mem_cons_self, h⟩
      | cons t items =>
          rw [joined_cons_cons, List.mem_append, List.mem_append] at h
          rcases h with h | h | h
          · exact .inr ⟨s, List.mem_cons_self, h⟩
          · exact .inl h
          · rcases ih h with h | ⟨u, hu, h⟩
            · exact .inl h
            · exact .inr ⟨u, List.mem_cons_of_mem _ hu, h⟩

/-! ### Cutting -/

theorem cutWhere_ne_nil (p : Char → Bool) (s : List Char) : cutWhere p s ≠ [] := by
  cases s with
  | nil => exact List.cons_ne_nil _ _
  | cons c s =>
      rw [cutWhere_cons]
      split
      · exact List.cons_ne_nil _ _
      · cases cutWhere p s <;> exact List.cons_ne_nil _ _

theorem consFirst_append {c : Char} {fs gs : List (List Char)} (h : fs ≠ []) :
    consFirst c (fs ++ gs) = consFirst c fs ++ gs := by
  cases fs with
  | nil => exact absurd rfl h
  | cons f fs => rfl

/-- A cut at a separator cuts both sides on their own. -/
theorem cutWhere_append {p : Char → Bool} {c : Char} (hc : p c = true) (s t : List Char) :
    cutWhere p (s ++ c :: t) = cutWhere p s ++ cutWhere p t := by
  induction s with
  | nil =>
      rw [List.nil_append, cutWhere_cons, if_pos hc]
      rfl
  | cons a s ih =>
      rw [List.cons_append, cutWhere_cons, cutWhere_cons, ih]
      split
      · rfl
      · exact consFirst_append (cutWhere_ne_nil p s)

theorem cutWhere_of_forall {p : Char → Bool} {s : List Char} (h : ∀ c ∈ s, p c = false) :
    cutWhere p s = [s] := by
  induction s with
  | nil => rfl
  | cons c s ih =>
      have hc : ¬ p c = true := by
        rw [h c List.mem_cons_self]
        exact Bool.false_ne_true
      rw [cutWhere_cons, if_neg hc, ih fun a ha => h a (List.mem_cons_of_mem _ ha)]
      rfl

/-! ### Fields -/

theorem fields_append (sep : Char) (s t : List Char) :
    fields sep (s ++ sep :: t) = fields sep s ++ fields sep t :=
  cutWhere_append (p := fun c => c == sep) (beq_self_eq_true sep) s t

theorem fields_of_not_mem {sep : Char} {s : List Char} (h : ¬ sep ∈ s) : fields sep s = [s] :=
  cutWhere_of_forall fun _ hc => beq_eq_false_iff_ne.mpr fun e => h (e ▸ hc)

/-- Texts that each end in a separator, and the nothing behind the last. -/
theorem fields_ended {sep : Char} {items : List (List Char)} (h : ∀ s ∈ items, ¬ sep ∈ s) :
    fields sep (items.flatMap fun s => s ++ [sep]) = items ++ [[]] := by
  induction items with
  | nil => rfl
  | cons s items ih =>
      have hs := h s List.mem_cons_self
      have hrest := ih fun t ht => h t (List.mem_cons_of_mem _ ht)
      rw [List.flatMap_cons, List.append_assoc, List.singleton_append, fields_append,
        fields_of_not_mem hs, hrest]
      rfl

theorem fields_lines {lines : List (List Char)} (h : ∀ s ∈ lines, ¬ '\n' ∈ s) :
    fields '\n' (lines.flatMap line) = lines ++ [[]] :=
  fields_ended h

/-- Texts without the separator can be told apart when each ends in it. -/
theorem ended_injective {sep : Char} {items items' : List (List Char)}
    (h : ∀ s ∈ items, ¬ sep ∈ s) (h' : ∀ s ∈ items', ¬ sep ∈ s)
    (heq : (items.flatMap fun s => s ++ [sep]) = items'.flatMap fun s => s ++ [sep]) :
    items = items' := by
  have hfields := congrArg (fields sep) heq
  rw [fields_ended h, fields_ended h'] at hfields
  exact List.append_cancel_right hfields

/-- A cut at the first character of what has been put between leaves the rest of it in front. -/
theorem fields_joined {sep : Char} {pad : List Char} (hpad : ¬ sep ∈ pad) {s : List Char}
    {items : List (List Char)} (h : ∀ t ∈ s :: items, ¬ sep ∈ t) :
    fields sep (joined (sep :: pad) (s :: items)) = s :: items.map (pad ++ ·) := by
  induction items generalizing s with
  | nil => rw [joined_singleton, fields_of_not_mem (h s List.mem_cons_self), List.map_nil]
  | cons t items ih =>
      have hs := h s List.mem_cons_self
      have hrest : ∀ u ∈ (pad ++ t) :: items, ¬ sep ∈ u := by
        intro u hu
        rcases List.mem_cons.mp hu with rfl | hu
        · rw [List.mem_append, not_or]
          exact ⟨hpad, h t (by simp)⟩
        · exact h u (by simp [hu])
      -- What stands between belongs to the item behind it.
      have hfront : pad ++ joined (sep :: pad) (t :: items) =
          joined (sep :: pad) ((pad ++ t) :: items) := by
        cases items with
        | nil => rw [joined_singleton, joined_singleton]
        | cons u items => rw [joined_cons_cons, joined_cons_cons, List.append_assoc]
      rw [joined_cons_cons, List.cons_append, fields_append, fields_of_not_mem hs, hfront, ih hrest]
      rfl

/-- Items with characters but without the separator can be told apart when they are joined. -/
theorem joined_injective {sep : Char} {pad : List Char} (hpad : ¬ sep ∈ pad)
    {items items' : List (List Char)} (h : ∀ s ∈ items, s ≠ [] ∧ ¬ sep ∈ s)
    (h' : ∀ s ∈ items', s ≠ [] ∧ ¬ sep ∈ s)
    (heq : joined (sep :: pad) items = joined (sep :: pad) items') : items = items' := by
  have hcut : ∀ {s : List Char} {l : List (List Char)}, (∀ t ∈ s :: l, t ≠ [] ∧ ¬ sep ∈ t) →
      fields sep (joined (sep :: pad) (s :: l)) = s :: l.map (pad ++ ·) :=
    fun hl => fields_joined hpad fun t ht => (hl t ht).2
  have hfields := congrArg (fields sep) heq
  cases items with
  | nil =>
      cases items' with
      | nil => rfl
      | cons s' items' =>
          rw [hcut h'] at hfields
          exact absurd (List.cons.inj hfields).1.symm (h' s' List.mem_cons_self).1
  | cons s items =>
      cases items' with
      | nil =>
          rw [hcut h] at hfields
          exact absurd (List.cons.inj hfields).1 (h s List.mem_cons_self).1
      | cons s' items' =>
          rw [hcut h, hcut h'] at hfields
          obtain ⟨rfl, htail⟩ := List.cons.inj hfields
          have hinj : Function.Injective (pad ++ ·) := fun _ _ => List.append_cancel_left
          rw [hinj.list_map htail]

/-! ### Words -/

theorem words_append {c : Char} (hc : isBlank c = true) (s t : List Char) :
    words (s ++ c :: t) = words s ++ words t := by
  unfold words
  rw [cutWhere_append hc, List.filter_append]

theorem words_of_isRun {s : List Char} (h : IsRun s) : words s = [s] := by
  unfold words
  rw [cutWhere_of_forall h.2]
  simp [h.1]

theorem words_joined {runs : List (List Char)} (h : ∀ s ∈ runs, IsRun s) :
    words (joined [' '] runs) = runs := by
  induction runs with
  | nil => rfl
  | cons s runs ih =>
      have hs := h s List.mem_cons_self
      have hrest := ih fun t ht => h t (List.mem_cons_of_mem _ ht)
      cases runs with
      | nil =>
          rw [joined_singleton]
          exact words_of_isRun hs
      | cons t runs =>
          rw [joined_cons_cons, List.singleton_append, words_append (by decide), words_of_isRun hs,
            hrest]
          rfl

/-! ### Trimming -/

theorem trimStart_blanks {b s : List Char} (hb : ∀ c ∈ b, isBlank c = true) :
    trimStart (b ++ s) = trimStart s :=
  List.dropWhile_append_of_pos hb

theorem trimStart_of_head {s : List Char} (h : ∀ c, s.head? = some c → isBlank c = false) :
    trimStart s = s := by
  cases s with
  | nil => rfl
  | cons c s =>
      have hc : ¬ isBlank c = true := by
        rw [h c rfl]
        exact Bool.false_ne_true
      exact List.dropWhile_cons_of_neg hc

theorem trimEnd_eq (s : List Char) : trimEnd s = (trimStart s.reverse).reverse := rfl

theorem trim_cons {c : Char} (hc : isBlank c = true) (s : List Char) : trim (c :: s) = trim s := by
  unfold trim
  rw [trimStart, List.dropWhile_cons_of_pos hc]
  rfl

/-- Trimming drops the blanks around a text without blanks at its ends. -/
theorem trim_append {b s b' : List Char} (hb : ∀ c ∈ b, isBlank c = true)
    (hb' : ∀ c ∈ b', isBlank c = true) (hs : IsTrimmed s) (hne : s ≠ []) :
    trim (b ++ s ++ b') = s := by
  have hhead : ∀ c, (s ++ b').head? = some c → isBlank c = false := by
    intro c hc
    rw [List.head?_append_of_ne_nil s hne] at hc
    exact hs.1 c hc
  have hlast : ∀ c, s.reverse.head? = some c → isBlank c = false := by
    intro c hc
    rw [List.head?_reverse] at hc
    exact hs.2 c hc
  unfold trim
  rw [List.append_assoc, trimStart_blanks hb, trimStart_of_head hhead, trimEnd_eq,
    List.reverse_append, trimStart_blanks (by simpa using hb'), trimStart_of_head hlast,
    List.reverse_reverse]

theorem trim_of_isTrimmed {s : List Char} (hs : IsTrimmed s) : trim s = s := by
  by_cases hne : s = []
  · rw [hne]
    rfl
  · have h : trim ([] ++ s ++ []) = s := trim_append (by simp) (by simp) hs hne
    rw [List.nil_append, List.append_nil] at h
    exact h

theorem IsRun.isTrimmed {s : List Char} (h : IsRun s) : IsTrimmed s :=
  ⟨fun c hc => h.2 c (List.mem_of_head? hc), fun c hc => h.2 c (List.mem_of_getLast? hc)⟩

theorem trimStart_run {s : List Char} (h : IsRun s) (t : List Char) : trimStart (s ++ t) = s ++ t := by
  refine trimStart_of_head ?_
  intro c hc
  rw [List.head?_append_of_ne_nil s h.1] at hc
  exact h.isTrimmed.1 c hc

theorem IsTrimmed.append {s t : List Char} (hs : IsTrimmed s) (ht : IsTrimmed t) (hsne : s ≠ [])
    (htne : t ≠ []) (m : List Char) : IsTrimmed (s ++ (m ++ t)) := by
  constructor
  · intro c hc
    rw [List.head?_append_of_ne_nil s hsne] at hc
    exact hs.1 c hc
  · intro c hc
    rw [← List.append_assoc, List.getLast?_append_of_ne_nil _ htne] at hc
    exact ht.2 c hc

theorem joined_ne_nil {sep : List Char} {items : List (List Char)} (hne : items ≠ [])
    (h : ∀ s ∈ items, IsRun s) : joined sep items ≠ [] := by
  cases items with
  | nil => exact absurd rfl hne
  | cons s items =>
      have hs := (h s List.mem_cons_self).1
      cases items with
      | nil =>
          rw [joined_singleton]
          exact hs
      | cons t items =>
          rw [joined_cons_cons]
          exact List.append_ne_nil_of_left_ne_nil hs _

theorem isTrimmed_joined {sep : List Char} {items : List (List Char)} (h : ∀ s ∈ items, IsRun s) :
    IsTrimmed (joined sep items) := by
  induction items with
  | nil =>
      refine ⟨?_, ?_⟩
      · rintro c ⟨⟩
      · rintro c ⟨⟩
  | cons s items ih =>
      have hs := h s List.mem_cons_self
      have hrest := fun t ht => h t (List.mem_cons_of_mem s ht)
      cases items with
      | nil =>
          rw [joined_singleton]
          exact hs.isTrimmed
      | cons t items =>
          rw [joined_cons_cons]
          exact hs.isTrimmed.append (ih hrest) hs.1 (joined_ne_nil (List.cons_ne_nil _ _) hrest) sep

/-! ### Alternatives -/

theorem map_trim_fields_cons {sep c : Char} (hc : isBlank c = true) (hne : ¬ c = sep)
    (s : List Char) : (fields sep (c :: s)).map trim = (fields sep s).map trim := by
  have hcons : fields sep (c :: s) = consFirst c (fields sep s) := by
    unfold fields
    rw [cutWhere_cons, if_neg fun e => hne (beq_iff_eq.mp e)]
  rw [hcons]
  cases hf : fields sep s with
  | nil => exact absurd hf (cutWhere_ne_nil _ s)
  | cons f fs => exact congrArg (· :: fs.map trim) (trim_cons hc f)

theorem map_trim_fields_joined {runs : List (List Char)} (hne : runs ≠ [])
    (h : ∀ s ∈ runs, IsRun s ∧ ¬ '|' ∈ s) :
    (fields '|' (joined [' ', '|', ' '] runs)).map trim = runs := by
  induction runs with
  | nil => exact absurd rfl hne
  | cons s runs ih =>
      obtain ⟨hs, hbar⟩ := h s List.mem_cons_self
      have hrest := fun t ht => h t (List.mem_cons_of_mem s ht)
      cases runs with
      | nil =>
          rw [joined_singleton, fields_of_not_mem hbar, List.map_singleton,
            trim_of_isTrimmed hs.isTrimmed]
      | cons t runs =>
          have hsplit : joined [' ', '|', ' '] (s :: t :: runs) =
              (s ++ [' ']) ++ '|' :: (' ' :: joined [' ', '|', ' '] (t :: runs)) := by
            rw [joined_cons_cons, List.append_assoc]
            rfl
          have hfirst : ¬ '|' ∈ s ++ [' '] := by simpa using hbar
          have htrim : trim ([] ++ s ++ [' ']) = s :=
            trim_append (by simp) (by simp; decide) hs.isTrimmed hs.1
          rw [hsplit, fields_append, fields_of_not_mem hfirst, List.map_append,
            map_trim_fields_cons (by decide) (by decide), ih (List.cons_ne_nil _ _) hrest,
            List.map_singleton]
          exact congrArg (· :: t :: runs) htrim

end RightLinear.Text
