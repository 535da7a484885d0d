import RightLinear.Grammar.Render
import RightLinear.Proofs.LineForms
import RightLinear.Proofs.Reading
import RightLinear.Proofs.WeightValues

/-! # Directives as lines

`Directive.toText` writes a directive as a line.  A directive is `Writable` if its names are runs and
no rule begins like a line of another form; such a directive is read back from its line
(`readLine_toText`), and a text of such lines enters exactly these directives into a draft
(`readLines_toText`). -/

namespace RightLinear.Lines

open Text

namespace Directive

/-- A directive as a line. -/
def toText : Directive → List Char
  | nonterminals names =>
    "nonterminals".toList ++ ':' :: ' ' :: joined [' '] (names.map String.toList)
  | terminals symbols => "terminals".toList ++ ':' :: ' ' :: joined [' '] (symbols.map fun t => [t])
  | start name => "start".toList ++ ':' :: ' ' :: name.toList
  | weight left alternative n =>
    "weight".toList ++ ' ' :: (left.toList ++ ' ' :: '-' :: '>' :: ' ' ::
      (alternative.toList ++ ' ' :: '=' :: ' ' :: Nat.toDigits 10 n.toNat))
  | production left alternatives => ' ' :: ' ' :: Grammar.renderRule left alternatives

/-- The names of a directive are runs, and a rule is not taken for a line of another form. -/
def Writable : Directive → Prop
  | nonterminals names => ∀ n ∈ names, IsRun n.toList
  | terminals symbols => ∀ t ∈ symbols, isBlank t = false
  | start name => IsRun name.toList
  | weight left alternative _ => IsRun left.toList ∧ IsRun alternative.toList
  | production left alternatives =>
    IsLeft left.toList ∧ alternatives ≠ [] ∧ ∀ r ∈ alternatives, IsRun r.toList ∧ ¬ '|' ∈ r.toList

end Directive

/-! ### Declarations -/

theorem trim_declaration {keyword body : List Char} (hk : IsRun keyword) (hb : IsTrimmed body) :
    ∃ rest, trim (keyword ++ ':' :: ' ' :: body) = keyword ++ ':' :: rest ∧ trimStart rest = body := by
  by_cases hne : body = []
  · subst hne
    have hcolon : IsTrimmed [':'] := IsRun.isTrimmed (by decide)
    have ht : IsTrimmed (keyword ++ ([] ++ [':'])) :=
      hk.isTrimmed.append hcolon hk.1 (List.cons_ne_nil _ _) []
    have h : trim ([] ++ (keyword ++ ([] ++ [':'])) ++ [' ']) = keyword ++ ([] ++ [':']) :=
      trim_append (by simp) (by simp; decide) ht (List.append_ne_nil_of_left_ne_nil hk.1 _)
    refine ⟨[], ?_, rfl⟩
    simpa using h
  · have ht : IsTrimmed (keyword ++ ([':', ' '] ++ body)) :=
      hk.isTrimmed.append hb hk.1 hne [':', ' ']
    exact ⟨' ' :: body, trim_of_isTrimmed ht, trimStart_of_head hb.1⟩

theorem readLine_nonterminals {names : List String} (h : ∀ n ∈ names, IsRun n.toList) :
    readLine (Directive.nonterminals names).toText = .ok (some (.nonterminals names)) := by
  have hruns : ∀ s ∈ names.map String.toList, IsRun s := List.forall_mem_map.mpr h
  have hk : IsRun "nonterminals".toList := by decide
  have hb : IsTrimmed (joined [' '] (names.map String.toList)) := isTrimmed_joined hruns
  obtain ⟨rest, ht, hr⟩ := trim_declaration hk hb
  show (Form.ofLine (trim ("nonterminals".toList ++ ':' :: ' ' ::
    joined [' '] (names.map String.toList)))).check = _
  rw [ht, ofLine_nonterminals, hr, words_joined hruns]
  simp [Form.check]

theorem mapM_singleChar (symbols : List Char) :
    (symbols.map fun t => [t]).mapM singleChar = .ok symbols := by
  induction symbols with
  | nil => rfl
  | cons t symbols ih =>
      rw [List.map_cons, List.mapM_cons, ih]
      rfl

theorem readLine_terminals {symbols : List Char} (h : ∀ t ∈ symbols, isBlank t = false) :
    readLine (Directive.terminals symbols).toText = .ok (some (.terminals symbols)) := by
  have hruns : ∀ s ∈ symbols.map fun t => [t], IsRun s :=
    List.forall_mem_map.mpr fun t ht => isRun_singleton.mpr (h t ht)
  have hk : IsRun "terminals".toList := by decide
  have hb : IsTrimmed (joined [' '] (symbols.map fun t => [t])) := isTrimmed_joined hruns
  obtain ⟨rest, ht, hr⟩ := trim_declaration hk hb
  show (Form.ofLine (trim ("terminals".toList ++ ':' :: ' ' ::
    joined [' '] (symbols.map fun t => [t])))).check = _
  rw [ht, ofLine_terminals, hr, words_joined hruns, Form.check, mapM_singleChar]
  rfl

theorem readLine_start {name : String} (h : IsRun name.toList) :
    readLine (Directive.start name).toText = .ok (some (.start name)) := by
  have hs : IsRun "start".toList := by decide
  have ht : IsTrimmed ("start".toList ++ ':' :: ' ' :: name.toList) :=
    hs.isTrimmed.append h.isTrimmed hs.1 h.1 [':', ' ']
  show (Form.ofLine (trim ("start".toList ++ ':' :: ' ' :: name.toList))).check = _
  rw [trim_of_isTrimmed ht, ofLine_start h]
  simp [Form.check]

/-! ### Weights and rules -/

theorem readLine_weight {left alternative : String} (hl : IsRun left.toList)
    (ha : IsRun alternative.toList) (n : UInt32) :
    readLine (Directive.weight left alternative n).toText =
      .ok (some (.weight left alternative n)) := by
  have hw : IsRun "weight".toList := by decide
  have hd := isRun_toDigits n.toNat
  have ht : IsTrimmed ("weight".toList ++ ' ' :: (left.toList ++ ' ' :: '-' :: '>' :: ' ' ::
      (alternative.toList ++ ' ' :: '=' :: ' ' :: Nat.toDigits 10 n.toNat))) := by
    have h := hw.isTrimmed.append hd.isTrimmed hw.1 hd.1 (' ' :: left.toList ++
      [' ', '-', '>', ' '] ++ alternative.toList ++ [' ', '=', ' '])
    simp only [List.append_assoc, List.cons_append, List.nil_append] at h
    exact h
  show (Form.ofLine (trim ("weight".toList ++ ' ' :: (left.toList ++ ' ' :: '-' :: '>' :: ' ' ::
    (alternative.toList ++ ' ' :: '=' :: ' ' :: Nat.toDigits 10 n.toNat))))).check = _
  rw [trim_of_isTrimmed ht, ofLine_weight hl ha, Form.check, weightValue_toDigits]
  simp [Except.map]

theorem readLine_production {left : String} {alternatives : List String} (hl : IsLeft left.toList)
    (hne : alternatives ≠ []) (h : ∀ r ∈ alternatives, IsRun r.toList ∧ ¬ '|' ∈ r.toList) :
    readLine (Directive.production left alternatives).toText =
      .ok (some (.production left alternatives)) := by
  have hruns : ∀ s ∈ alternatives.map String.toList, IsRun s ∧ ¬ '|' ∈ s :=
    List.forall_mem_map.mpr h
  have hmap : alternatives.map String.toList ≠ [] := mt List.map_eq_nil_iff.mp hne
  have hbody : IsTrimmed (Grammar.renderAlternatives alternatives) :=
    isTrimmed_joined fun s hs => (hruns s hs).1
  have hbne : Grammar.renderAlternatives alternatives ≠ [] :=
    joined_ne_nil hmap fun s hs => (hruns s hs).1
  have hline : Grammar.renderRule left alternatives =
      left.toList ++ ([' ', '→', ' '] ++ Grammar.renderAlternatives alternatives) :=
    List.append_assoc _ _ _
  have ht : trim (Directive.production left alternatives).toText =
      left.toList ++ ([' ', '→', ' '] ++ Grammar.renderAlternatives alternatives) := by
    show trim (' ' :: ' ' :: Grammar.renderRule left alternatives) = _
    rw [trim_cons (by decide), trim_cons (by decide), hline]
    exact trim_of_isTrimmed (hl.run.isTrimmed.append hbody hl.run.1 hbne _)
  have hcut : (fields '|' (trimStart (Grammar.renderAlternatives alternatives))).map trim =
      alternatives.map String.toList := by
    rw [trimStart_of_head hbody.1]
    exact map_trim_fields_joined hmap hruns
  rw [readLine, ht]
  show (Form.ofLine
    (left.toList ++ ' ' :: '→' :: ' ' :: Grammar.renderAlternatives alternatives)).check = _
  rw [ofLine_rule hl, hcut]
  simp [Form.check]

/-- A directive is read back from its line. -/
theorem readLine_toText {d : Directive} (h : d.Writable) : readLine d.toText = .ok (some d) := by
  cases d with
  | nonterminals names => exact readLine_nonterminals h
  | terminals symbols => exact readLine_terminals h
  | start name => exact readLine_start h
  | weight left alternative n => exact readLine_weight h.1 h.2 n
  | production left alternatives => exact readLine_production h.1 h.2.1 h.2.2

/-! ### Texts of directives -/

theorem newline_not_mem_of_isRun {s : List Char} (h : IsRun s) : ¬ '\n' ∈ s := by
  intro hn
  have hb : isBlank '\n' = false := h.2 _ hn
  exact absurd hb (by decide)

theorem newline_not_mem_joined {sep : List Char} {items : List (List Char)} (hsep : ¬ '\n' ∈ sep)
    (h : ∀ s ∈ items, IsRun s) : ¬ '\n' ∈ joined sep items := by
  intro hn
  rcases mem_joined hn with hn | ⟨s, hs, hn⟩
  · exact hsep hn
  · exact newline_not_mem_of_isRun (h s hs) hn

theorem newline_not_mem_declaration {keyword body : List Char} (hk : IsRun keyword)
    (hb : ¬ '\n' ∈ body) : ¬ '\n' ∈ keyword ++ ':' :: ' ' :: body := by
  simp [newline_not_mem_of_isRun hk, hb]

theorem newline_not_mem_toText {d : Directive} (h : d.Writable) : ¬ '\n' ∈ d.toText := by
  cases d with
  | nonterminals names =>
      have hruns : ∀ s ∈ names.map String.toList, IsRun s := List.forall_mem_map.mpr h
      exact newline_not_mem_declaration (by decide)
        (newline_not_mem_joined (by decide) hruns)
  | terminals symbols =>
      have hruns : ∀ s ∈ symbols.map fun t => [t], IsRun s :=
        List.forall_mem_map.mpr fun t ht => isRun_singleton.mpr (h t ht)
      exact newline_not_mem_declaration (by decide)
        (newline_not_mem_joined (by decide) hruns)
  | start name =>
      exact newline_not_mem_declaration (by decide) (newline_not_mem_of_isRun h)
  | weight left alternative n =>
      have hw : ¬ '\n' ∈ "weight".toList := by decide
      have hl : ¬ '\n' ∈ left.toList := newline_not_mem_of_isRun h.1
      have ha : ¬ '\n' ∈ alternative.toList := newline_not_mem_of_isRun h.2
      have hd := newline_not_mem_of_isRun (isRun_toDigits n.toNat)
      show ¬ '\n' ∈ "weight".toList ++ ' ' :: (left.toList ++ ' ' :: '-' :: '>' :: ' ' ::
        (alternative.toList ++ ' ' :: '=' :: ' ' :: Nat.toDigits 10 n.toNat))
      rw [List.mem_append, not_or]
      exact ⟨hw, by simp [hl, ha, hd]⟩
  | production left alternatives =>
      have hl : ¬ '\n' ∈ left.toList := newline_not_mem_of_isRun h.1.run
      have hruns : ∀ s ∈ alternatives.map String.toList, IsRun s :=
        List.forall_mem_map.mpr fun r hr => (h.2.2 r hr).1
      have hbody : ¬ '\n' ∈ Grammar.renderAlternatives alternatives :=
        newline_not_mem_joined (by decide) hruns
      show ¬ '\n' ∈ ' ' :: ' ' :: (left.toList ++ [' ', '→', ' '] ++
        Grammar.renderAlternatives alternatives)
      simp [hl, hbody]

theorem readLines_toText {directives : List Directive} (h : ∀ d ∈ directives, d.Writable)
    (number : Nat) (draft : Draft) :
    readLines number (directives.map Directive.toText ++ [[]]) draft =
      .ok (directives.foldl Draft.add draft) := by
  have hsaid : List.Forall₂ (fun s x => readLine s = .ok x) (directives.map Directive.toText)
      (directives.map some) := by
    rw [List.forall₂_map_left_iff, List.forall₂_map_right_iff, List.forall₂_same]
    exact fun d hd => readLine_toText (h d hd)
  rw [readLines_append hsaid, List.reduceOption, List.filterMap_map]
  simp
  rfl

/-- A text of directives, one a line, is read as the draft that they make up. -/
theorem ofText_lines {directives : List Directive} (h : ∀ d ∈ directives, d.Writable) :
    Definition.ofText (directives.flatMap fun d => line d.toText) =
      (directives.foldl Draft.add {}).finish := by
  have hlines : ∀ s ∈ directives.map Directive.toText, ¬ '\n' ∈ s := by
    intro s hs
    obtain ⟨d, hd, rfl⟩ := List.mem_map.mp hs
    exact newline_not_mem_toText (h d hd)
  have htext : (directives.flatMap fun d => line d.toText) =
      (directives.map Directive.toText).flatMap line := by
    rw [List.flatMap_map]
  unfold Definition.ofText
  rw [htext, fields_lines hlines, readLines_toText h]

end RightLinear.Lines
