import RightLinear.Proofs.Digits
import RightLinear.Proofs.LinePatterns

/-! # Which form claims a line

The forms of lines overlap, so a line is cut by the first form that fits, and every name is as long
as the rest of the line allows.  Two facts settle who claims a line and where it is cut.  A keyword
that stands in front of a run is the beginning of that run (`after?_run`), so a rule is claimed by
none of the forms with a keyword unless its nonterminal is one of the few that `IsLeft` excludes
(`ofLine_of_ruleParts?`).  A run ends before a blank (`splitRun_run`), so names may contain arrows and
equals signs.

From these follows the form of each line that is written out: `ofLine_nonterminals`,
`ofLine_terminals`, `ofLine_start`, `ofLine_weight` and `ofLine_rule`. -/

namespace RightLinear.Lines

open Text

/-- A nonterminal whose rule is not taken for a line of another form. -/
structure IsLeft (left : List Char) : Prop where
  run : IsRun left
  ne_weight : left ≠ "weight".toList
  not_comment : ¬ "#".toList <+: left
  not_nonterminals : ¬ "nonterminals:".toList <+: left
  not_terminals : ¬ "terminals:".toList <+: left
  not_start : ¬ "start:".toList <+: left

instance (left : List Char) : Decidable (IsLeft left) :=
  decidable_of_iff (IsRun left ∧ left ≠ "weight".toList ∧ ¬ "#".toList <+: left ∧
      ¬ "nonterminals:".toList <+: left ∧ ¬ "terminals:".toList <+: left ∧
      ¬ "start:".toList <+: left)
    ⟨fun ⟨h₁, h₂, h₃, h₄, h₅, h₆⟩ => ⟨h₁, h₂, h₃, h₄, h₅, h₆⟩,
      fun h => ⟨h.1, h.2, h.3, h.4, h.5, h.6⟩⟩

/-! ### Keywords -/

/-- A keyword in front of a line that begins with `left` and no letter behind it is the beginning of
`left`. -/
theorem after?_run {keyword left rest r : List Char} {c : Char}
    (hk : keyword.all Char.isAlpha = true) (hc : c.isAlpha = false)
    (h : after? keyword (left ++ c :: rest) = some r) :
    ∃ m, left = keyword ++ m ∧ r = m ++ c :: rest := by
  rcases List.append_eq_append_iff.mp (after?_eq_some.mp h) with ⟨m, hm, hr⟩ | ⟨m, hm, hr⟩
  · cases m with
    | nil =>
        rw [List.append_nil] at hm
        rw [List.nil_append] at hr
        exact ⟨[], by rw [hm, List.append_nil], hr.symm⟩
    | cons d m =>
        -- the character behind `left` would stand in the keyword
        rw [List.cons_append, List.cons.injEq] at hr
        have hd : d ∈ keyword := by
          rw [hm]
          exact List.mem_append_right _ List.mem_cons_self
        rw [hr.1, List.all_eq_true.mp hk d hd] at hc
        cases hc
  · exact ⟨m, hm, hr⟩

theorem afterColon?_eq_none {keyword left rest : List Char} {c : Char}
    (hk : keyword.all Char.isAlpha = true) (hc : c.isAlpha = false) (hleft : IsRun left)
    (hrest : ¬ ∃ t, trimStart (c :: rest) = ':' :: t) (hn : ¬ keyword ++ [':'] <+: left) :
    afterColon? keyword (left ++ c :: rest) = none := by
  unfold afterColon?
  cases ha : after? keyword (left ++ c :: rest) with
  | none => rfl
  | some r =>
      obtain ⟨m, hm, rfl⟩ := after?_run hk hc ha
      have hcolon : ¬ ∃ t, trimStart (m ++ c :: rest) = ':' :: t := by
        rintro ⟨t, ht⟩
        cases m with
        | nil => exact hrest ⟨t, ht⟩
        | cons d m =>
            have hm' : IsRun (d :: m) :=
              ⟨List.cons_ne_nil _ _, fun a ha => hleft.2 a (hm ▸ List.mem_append_right _ ha)⟩
            rw [trimStart_run hm', List.cons_append, List.cons.injEq] at ht
            refine hn ⟨m, ?_⟩
            rw [hm, ht.1, List.append_assoc]
            rfl
      rw [Option.map_some]
      split
      · next t h => exact absurd ⟨t, Option.some.inj h⟩ hcolon
      · rfl

/-- A line with a run in front is not a weight, unless the run is the keyword. -/
theorem weightParts?_eq_none {left rest : List Char} {c : Char} (hc : c.isAlpha = false)
    (hleft : IsRun left) (hn : left ≠ "weight".toList) :
    weightParts? (left ++ c :: rest) = none := by
  unfold weightParts?
  cases ha : after? "weight".toList (left ++ c :: rest) with
  | none => rfl
  | some r =>
      obtain ⟨m, hm, rfl⟩ := after?_run (by decide) hc ha
      cases m with
      | nil => exact absurd (hm.trans (List.append_nil _)) hn
      | cons d m =>
          have hd : ¬ isBlank d = true := by
            rw [hleft.2 d (by simp [hm])]
            exact Bool.false_ne_true
          exact if_neg hd

/-! ### Runs and numbers -/

theorem splitRun_run {β : Type} {next : List Char → Option β} {run rest : List Char} {b : Char}
    {found : β} (hrun : IsRun run) (hb : isBlank b = true) (h : next (b :: rest) = some found) :
    splitRun next (run ++ b :: rest) = some (run, found) :=
  splitRun_eq_some.mpr ⟨b :: rest, rfl, hrun, h, splitRun_of_isBlank hb rest⟩

theorem isDecimalDigit_of_mem_toDigits {n : Nat} {c : Char} (h : c ∈ Nat.toDigits 10 n) :
    isDecimalDigit c = true :=
  isDecimalDigit_of_isDigit (isDigit_of_mem_toDigits h)

theorem isRun_toDigits (n : Nat) : IsRun (Nat.toDigits 10 n) :=
  isRun_of_digits Nat.toDigits_ne_nil fun _ hc => isDecimalDigit_of_mem_toDigits hc

theorem digitsAfterEquals?_toDigits (n : Nat) :
    digitsAfterEquals? (' ' :: '=' :: ' ' :: Nat.toDigits 10 n) = some (Nat.toDigits 10 n) :=
  digitsAfterEquals?_eq_some.mpr ⟨[' '], [' '], allBlank_space, allBlank_space,
    Nat.toDigits_ne_nil, fun _ hc => isDecimalDigit_of_mem_toDigits hc, rfl⟩

/-! ### Forms -/

theorem ofLine_nonterminals (rest : List Char) :
    Form.ofLine ("nonterminals".toList ++ ':' :: rest) = .nonterminals (words (trimStart rest)) :=
  rfl

theorem ofLine_terminals (rest : List Char) :
    Form.ofLine ("terminals".toList ++ ':' :: rest) = .terminals (words (trimStart rest)) :=
  rfl

theorem ofLine_start {name : List Char} (h : IsRun name) :
    Form.ofLine ("start".toList ++ ':' :: ' ' :: name) = .start name :=
  ofLine_of_starts ⟨h, [], [' '], allBlank_nil, allBlank_space, rfl⟩

/-- A weight is cut at its arrow and its equals sign, whatever its names contain. -/
theorem ofLine_weight {left alternative : List Char} (hl : IsRun left) (ha : IsRun alternative)
    (n : Nat) :
    Form.ofLine ("weight".toList ++ ' ' :: (left ++ ' ' :: '-' :: '>' :: ' ' ::
      (alternative ++ ' ' :: '=' :: ' ' :: Nat.toDigits 10 n))) =
      .weight left alternative (Nat.toDigits 10 n) := by
  have halternative : splitRun digitsAfterEquals?
      (alternative ++ ' ' :: '=' :: ' ' :: Nat.toDigits 10 n) =
      some (alternative, Nat.toDigits 10 n) :=
    splitRun_run ha (by decide) (digitsAfterEquals?_toDigits n)
  have harrow : afterArrow? (' ' :: '-' :: '>' :: ' ' ::
      (alternative ++ ' ' :: '=' :: ' ' :: Nat.toDigits 10 n)) =
      some (alternative ++ ' ' :: '=' :: ' ' :: Nat.toDigits 10 n) :=
    congrArg some (trimStart_run ha _)
  generalize hrest : left ++ ' ' :: '-' :: '>' :: ' ' ::
    (alternative ++ ' ' :: '=' :: ' ' :: Nat.toDigits 10 n) = rest
  have hhead : ¬ (("weight".toList ++ ' ' :: rest).isEmpty ||
      ("weight".toList ++ ' ' :: rest).head? == some '#') = true := Bool.false_ne_true
  have hnonterminals :
      afterColon? "nonterminals".toList ("weight".toList ++ ' ' :: rest) = none := rfl
  have hterminals : afterColon? "terminals".toList ("weight".toList ++ ' ' :: rest) = none := rfl
  have hstart : startSymbol? ("weight".toList ++ ' ' :: rest) = none := rfl
  have hweight : weightParts? ("weight".toList ++ ' ' :: rest) =
      some (left, alternative, Nat.toDigits 10 n) := by
    show splitRun _ (trimStart rest) = _
    rw [← hrest, trimStart_run hl]
    refine splitRun_run hl (by decide) ?_
    rw [harrow, Option.bind_some, halternative]
  unfold Form.ofLine
  rw [if_neg hhead, hnonterminals, hterminals, hstart, hweight]

theorem ofLine_of_ruleParts? {left rest left' body : List Char} {c : Char} (h : IsLeft left)
    (hc : c.isAlpha = false) (hrest : ¬ ∃ t, trimStart (c :: rest) = ':' :: t)
    (hparts : ruleParts? (left ++ c :: rest) = some (left', body)) :
    Form.ofLine (left ++ c :: rest) = .production left' ((fields '|' body).map trim) := by
  have hhead : ¬ ((left ++ c :: rest).isEmpty || (left ++ c :: rest).head? == some '#') = true := by
    obtain ⟨d, m, hm⟩ := List.exists_cons_of_ne_nil h.run.1
    have hd : ¬ d = '#' := fun e => h.not_comment ⟨m, by rw [hm, e]; rfl⟩
    rw [hm]
    simpa using hd
  have hdeclared : ∀ keyword : List Char, keyword.all Char.isAlpha = true →
      ¬ keyword ++ [':'] <+: left → afterColon? keyword (left ++ c :: rest) = none :=
    fun _ hk hn => afterColon?_eq_none hk hc h.run hrest hn
  unfold Form.ofLine
  rw [if_neg hhead, hdeclared _ (by decide) h.not_nonterminals,
    hdeclared _ (by decide) h.not_terminals,
    startSymbol?_eq_none (hdeclared _ (by decide) h.not_start),
    weightParts?_eq_none hc h.run h.ne_weight, hparts]

/-- A rule is cut at the arrow behind its nonterminal. -/
theorem ofLine_rule {left : List Char} (h : IsLeft left) (rest : List Char) :
    Form.ofLine (left ++ ' ' :: '→' :: ' ' :: rest) =
      .production left ((fields '|' (trimStart rest)).map trim) := by
  have harrow : ¬ ∃ t, trimStart (' ' :: '→' :: ' ' :: rest) = ':' :: t := by
    rintro ⟨t, ht⟩
    cases ht
  exact ofLine_of_ruleParts? h (by decide) harrow (splitRun_run h.run (by decide) rfl)

end RightLinear.Lines
