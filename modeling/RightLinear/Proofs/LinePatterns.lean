import Mathlib.Data.List.TakeWhile
import RightLinear.Lines.Form
import RightLinear.Proofs.Cutting

/-! # Patterns of lines

What a line of each form looks like, said without a search for the cuts: a line matches a pattern if it
can be cut in some way into the parts that the pattern names, with blanks between them where the pattern
lets them stand.

The functions that recognise lines search for one cut.  For a declaration the cut is found behind the
first colon; the body is settled up to blanks in front (`afterColon?_of_declares`).  A run is cut as late
as the rest allows, and so is the longest one (`splitRun_eq_some_iff_longest`).  From this follows that the
functions recognise exactly the lines that match (`startSymbol?_eq_some`, `exists_weightParts?`,
`exists_ruleParts?`), and that the parts which they find are those with the latest cuts
(`weightParts?_eq_some`, `ruleParts?_of_lastRules`).  The digits of a weight do not depend on the cut
(`Weighs.digits_eq`).

The form that a line is given is one that it has (`hasForm_ofLine`).  Lines may match several patterns,
but those that begin with a keyword only exclude each other, so declarations, start symbols and weights are
found whatever else the line matches (`ofLine_of_nonterminals`, `ofLine_of_terminals`,
`ofLine_of_starts`, `ofLine_of_lastWeighs`). -/

namespace RightLinear.Lines

open Text

/-! ### Patterns -/

/-- A text of blanks only, or none. -/
def AllBlank (s : List Char) : Prop := ∀ c ∈ s, isBlank c = true

/-- An arrow, in either form. -/
def IsArrow (s : List Char) : Prop := s = ['-', '>'] ∨ s = ['→']

/-- The keyword, a colon and the body, with blanks around the colon. -/
def Declares (keyword body s : List Char) : Prop :=
  ∃ b b', AllBlank b ∧ AllBlank b' ∧ s = keyword ++ (b ++ ':' :: (b' ++ body))

/-- An arrow and the body, with blanks around the arrow. -/
def Points (body s : List Char) : Prop :=
  ∃ b arrow b', AllBlank b ∧ IsArrow arrow ∧ AllBlank b' ∧ s = b ++ (arrow ++ (b' ++ body))

/-- An equals sign and decimal digits of any script, with blanks around the sign. -/
def Equates (digits s : List Char) : Prop :=
  ∃ b b', AllBlank b ∧ AllBlank b' ∧ digits ≠ [] ∧ (∀ c ∈ digits, isDecimalDigit c = true) ∧
    s = b ++ '=' :: (b' ++ digits)

/-- The line of a start symbol. -/
def Starts (name s : List Char) : Prop := IsRun name ∧ Declares "start".toList name s

/-- The line of a weight: the keyword, blanks, a nonterminal, an arrow, an alternative and digits. -/
def Weighs (left alternative digits s : List Char) : Prop :=
  ∃ b t u, b ≠ [] ∧ AllBlank b ∧ IsRun left ∧ Points (alternative ++ u) t ∧ IsRun alternative ∧
    Equates digits u ∧ s = "weight".toList ++ (b ++ (left ++ t))

/-- The line of a rule: a nonterminal, an arrow and the alternatives. -/
def Rules (left body s : List Char) : Prop := ∃ t, IsRun left ∧ Points body t ∧ s = left ++ t

/-- The parts of a weight where the nonterminal is cut as late as possible, and then the alternative. -/
def LastWeighs (left alternative digits s : List Char) : Prop :=
  Weighs left alternative digits s ∧
    ∀ left' alternative' digits', Weighs left' alternative' digits' s →
      left'.length ≤ left.length ∧ (left' = left → alternative'.length ≤ alternative.length)

/-- The parts of a rule where the nonterminal is cut as late as possible. -/
def LastRules (left body s : List Char) : Prop :=
  Rules left body s ∧ ∀ left' body', Rules left' body' s → left'.length ≤ left.length

/-- The line says nothing: it is blank or a comment. -/
def Silent (s : List Char) : Prop := s = [] ∨ s.head? = some '#'

/-- The line matches one of the five patterns. -/
def Recognized (s : List Char) : Prop :=
  (∃ body, Declares "nonterminals".toList body s) ∨ (∃ body, Declares "terminals".toList body s) ∨
    (∃ name, Starts name s) ∨ (∃ left alternative digits, Weighs left alternative digits s) ∨
    ∃ left body, Rules left body s

/-- What a form says about the line. -/
inductive HasForm (s : List Char) : Form → Prop
  | silent : Silent s → HasForm s .silent
  | nonterminals {body : List Char} :
      Declares "nonterminals".toList body s → HasForm s (.nonterminals (words body))
  | terminals {body : List Char} :
      Declares "terminals".toList body s → HasForm s (.terminals (words body))
  | start {name : List Char} : Starts name s → HasForm s (.start name)
  | weight {left alternative digits : List Char} :
      LastWeighs left alternative digits s → HasForm s (.weight left alternative digits)
  | production {left body : List Char} : ¬ Silent s →
      LastRules left body s → HasForm s (.production left ((fields '|' body).map trim))
  | unknown : ¬ Silent s → ¬ Recognized s → HasForm s (.unknown s)

/-! ### Blanks -/

theorem allBlank_nil : AllBlank [] := fun _ h => (List.not_mem_nil h).elim

theorem allBlank_space : AllBlank [' '] := List.forall_mem_singleton.mpr (by decide)

theorem exists_trimStart (s : List Char) : ∃ b, AllBlank b ∧ s = b ++ trimStart s :=
  ⟨s.takeWhile isBlank, fun _ hc => List.mem_takeWhile_imp hc, List.takeWhile_append_dropWhile.symm⟩

theorem trimStart_cons {c : Char} (hc : isBlank c = false) (s : List Char) :
    trimStart (c :: s) = c :: s :=
  List.dropWhile_cons_of_neg (by simp [hc])

theorem words_blanks {b : List Char} (hb : AllBlank b) (s : List Char) : words (b ++ s) = words s := by
  induction b with
  | nil => rfl
  | cons c b ih =>
      have hc : isBlank c = true := hb c List.mem_cons_self
      have hcut : words ([] ++ c :: (b ++ s)) = words [] ++ words (b ++ s) := words_append hc [] _
      rw [List.nil_append] at hcut
      rw [List.cons_append, hcut, ih fun a ha => hb a (List.mem_cons_of_mem _ ha)]
      rfl

theorem words_trimStart (s : List Char) : words (trimStart s) = words s := by
  obtain ⟨b, hb, hs⟩ := exists_trimStart s
  calc
    words (trimStart s) = words (b ++ trimStart s) := (words_blanks hb _).symm
    _ = words s := by rw [← hs]

/-- Blanks in front do not matter to the fields, once these are trimmed. -/
theorem map_trim_fields_trimStart (s : List Char) :
    (fields '|' (trimStart s)).map trim = (fields '|' s).map trim := by
  induction s with
  | nil => rfl
  | cons c s ih =>
      cases hc : isBlank c with
      | true =>
          have hbar : ¬ c = '|' := by
            rintro rfl
            exact absurd hc (by decide)
          rw [map_trim_fields_cons hc hbar, ← ih, trimStart, List.dropWhile_cons_of_pos hc]
          rfl
      | false => rw [trimStart_cons hc]

/-! ### Declarations -/

theorem after?_eq_some {keyword s r : List Char} :
    after? keyword s = some r ↔ s = keyword ++ r := by
  induction keyword generalizing s with
  | nil => simp [after?]
  | cons k keyword ih =>
      cases s with
      | nil => simp [after?]
      | cons c s =>
          by_cases h : k = c
          · subst h
            simp [after?, ih]
          · have h' : ¬ c = k := fun e => h e.symm
            simp [after?, h, h']

/-- The body of a declaration is found up to blanks in front. -/
theorem afterColon?_of_declares {keyword body s : List Char} (h : Declares keyword body s) :
    afterColon? keyword s = some (trimStart body) := by
  obtain ⟨b, b', hb, hb', rfl⟩ := h
  have hkeyword : after? keyword (keyword ++ (b ++ ':' :: (b' ++ body))) =
      some (b ++ ':' :: (b' ++ body)) := after?_eq_some.mpr rfl
  have hcolon : trimStart (b ++ ':' :: (b' ++ body)) = ':' :: (b' ++ body) :=
    (trimStart_blanks hb).trans (trimStart_cons (by decide) _)
  unfold afterColon?
  rw [hkeyword, Option.map_some, hcolon]
  exact congrArg some (trimStart_blanks hb')

theorem declares_of_afterColon? {keyword body s : List Char} (h : afterColon? keyword s = some body) :
    Declares keyword body s := by
  unfold afterColon? at h
  split at h
  · next rest hrest =>
    obtain ⟨t, ht, htrim⟩ := Option.map_eq_some_iff.mp hrest
    obtain ⟨b, hb, hbt⟩ := exists_trimStart t
    obtain ⟨b', hb', hbrest⟩ := exists_trimStart rest
    cases h
    refine ⟨b, b', hb, hb', ?_⟩
    rw [← hbrest, ← htrim, ← hbt]
    exact after?_eq_some.mp ht
  · cases h

theorem exists_afterColon? {keyword s : List Char} :
    (∃ body, afterColon? keyword s = some body) ↔ ∃ body, Declares keyword body s :=
  ⟨fun ⟨body, h⟩ => ⟨body, declares_of_afterColon? h⟩, fun ⟨_, h⟩ => ⟨_, afterColon?_of_declares h⟩⟩

theorem afterColon?_of_head? {keyword s : List Char} (hk : keyword ≠ [])
    (h : s.head? ≠ keyword.head?) : afterColon? keyword s = none := by
  cases hs : afterColon? keyword s with
  | none => rfl
  | some body =>
      obtain ⟨b, b', _, _, rfl⟩ := declares_of_afterColon? hs
      exact absurd (List.head?_append_of_ne_nil keyword hk) h

theorem Declares.head? {keyword body s : List Char} (h : Declares keyword body s)
    (hk : keyword ≠ []) : s.head? = keyword.head? := by
  obtain ⟨b, b', _, _, rfl⟩ := h
  exact List.head?_append_of_ne_nil keyword hk

theorem startSymbol?_eq_none {s : List Char} (h : afterColon? "start".toList s = none) :
    startSymbol? s = none := by
  unfold startSymbol?
  rw [h]

theorem startSymbol?_eq_some {name s : List Char} : startSymbol? s = some name ↔ Starts name s := by
  have hrun : ∀ body : List Char, (body.isEmpty || body.any isBlank) = false ↔ IsRun body := by
    intro body
    simp [IsRun]
  unfold startSymbol? Starts
  constructor
  · intro h
    split at h
    · next body hbody =>
      split at h
      · cases h
      · next hb =>
        cases h
        exact ⟨(hrun _).mp (Bool.not_eq_true _ ▸ hb), declares_of_afterColon? hbody⟩
    · cases h
  · rintro ⟨hname, hdeclares⟩
    rw [afterColon?_of_declares hdeclares, trimStart_of_head hname.isTrimmed.1]
    dsimp only
    rw [(hrun name).mpr hname, if_neg Bool.false_ne_true]

/-! ### Runs -/

section Runs

variable {β : Type} {next : List Char → Option β}

theorem splitRun_of_isBlank {c : Char} (hc : isBlank c = true) (s : List Char) :
    splitRun next (c :: s) = none := by
  rw [splitRun, if_pos hc]

theorem splitRun_cons {c : Char} (hc : isBlank c = false) (s : List Char) :
    splitRun next (c :: s) = ((splitRun next s).map fun p => (c :: p.1, p.2)).or
      ((next s).map fun found => ([c], found)) := by
  rw [splitRun, if_neg (by simp [hc])]
  cases splitRun next s <;> rfl

theorem splitRun_eq_none {s : List Char} :
    splitRun next s = none ↔ ∀ run rest, s = run ++ rest → IsRun run → next rest = none := by
  induction s with
  | nil =>
      refine iff_of_true rfl ?_
      rintro run rest h hrun
      exact absurd (List.append_eq_nil_iff.mp h.symm).1 hrun.1
  | cons c s ih =>
      cases hc : isBlank c with
      | true =>
          refine iff_of_true (splitRun_of_isBlank hc s) ?_
          rintro (_ | ⟨d, run⟩) rest h hrun
          · exact absurd rfl hrun.1
          · cases h
            exact absurd (hrun.2 c List.mem_cons_self) (by simp [hc])
      | false =>
          rw [splitRun_cons hc, Option.or_eq_none_iff, Option.map_eq_none_iff,
            Option.map_eq_none_iff, ih]
          constructor
          · rintro ⟨hlater, hnow⟩ (_ | ⟨d, run⟩) rest h hrun
            · exact absurd rfl hrun.1
            · cases h
              cases run with
              | nil => exact hnow
              | cons d run =>
                  exact hlater _ _ rfl ⟨List.cons_ne_nil _ _, fun a ha =>
                    hrun.2 a (List.mem_cons_of_mem _ ha)⟩
          · intro h
            refine ⟨fun run rest hs hrun => h (c :: run) rest (by rw [hs]; rfl) ?_, ?_⟩
            · exact ⟨List.cons_ne_nil _ _, List.forall_mem_cons.mpr ⟨hc, hrun.2⟩⟩
            · exact h [c] s rfl (isRun_singleton.mpr hc)

/-- The run is split off at the last place where the rest is recognised. -/
theorem splitRun_eq_some {s run : List Char} {found : β} :
    splitRun next s = some (run, found) ↔ ∃ rest, s = run ++ rest ∧ IsRun run ∧
      next rest = some found ∧ splitRun next rest = none := by
  induction s generalizing run with
  | nil =>
      refine iff_of_false (by simp [splitRun]) ?_
      rintro ⟨rest, h, hrun, _⟩
      exact absurd (List.append_eq_nil_iff.mp h.symm).1 hrun.1
  | cons c s ih =>
      cases hc : isBlank c with
      | true =>
          rw [splitRun_of_isBlank hc]
          refine iff_of_false (by simp) ?_
          rintro ⟨rest, h, hrun, _⟩
          obtain ⟨d, run, rfl⟩ := List.exists_cons_of_ne_nil hrun.1
          cases h
          exact absurd (hrun.2 c List.mem_cons_self) (by simp [hc])
      | false =>
          rw [splitRun_cons hc, Option.or_eq_some_iff, Option.map_eq_some_iff,
            Option.map_eq_some_iff, Option.map_eq_none_iff]
          constructor
          · rintro (⟨⟨later, found⟩, hlater, ⟨⟩⟩ | ⟨hlast, found, hnow, ⟨⟩⟩)
            · obtain ⟨rest, rfl, hrun, hrest⟩ := ih.mp hlater
              exact ⟨rest, rfl, ⟨List.cons_ne_nil _ _, List.forall_mem_cons.mpr ⟨hc, hrun.2⟩⟩, hrest⟩
            · exact ⟨s, rfl, isRun_singleton.mpr hc, hnow, hlast⟩
          · rintro ⟨rest, h, hrun, hnow, hlast⟩
            obtain ⟨d, run, rfl⟩ := List.exists_cons_of_ne_nil hrun.1
            cases h
            cases run with
            | nil => exact .inr ⟨hlast, found, hnow, rfl⟩
            | cons d run =>
                refine .inl ⟨(d :: run, found), ih.mpr ⟨rest, rfl, ?_, hnow, hlast⟩, rfl⟩
                exact ⟨List.cons_ne_nil _ _, fun a ha => hrun.2 a (List.mem_cons_of_mem _ ha)⟩

/-- The run that is split off is the longest one whose rest is recognised. -/
theorem splitRun_eq_some_iff_longest {s run : List Char} {found : β} :
    splitRun next s = some (run, found) ↔
      (∃ rest, s = run ++ rest ∧ IsRun run ∧ next rest = some found) ∧
        ∀ run' rest' found', s = run' ++ rest' → IsRun run' → next rest' = some found' →
          run'.length ≤ run.length := by
  rw [splitRun_eq_some]
  constructor
  · rintro ⟨rest, rfl, hrun, hnow, hlast⟩
    refine ⟨⟨rest, rfl, hrun, hnow⟩, fun run' rest' found' heq hrun' hnow' => ?_⟩
    rcases List.append_eq_append_iff.mp heq with ⟨m, rfl, rfl⟩ | ⟨m, rfl, _⟩
    · cases m with
      | nil => rw [List.append_nil]
      | cons c m =>
          have hm : IsRun (c :: m) :=
            ⟨List.cons_ne_nil _ _, fun a ha => hrun'.2 a (List.mem_append_right _ ha)⟩
          cases (splitRun_eq_none.mp hlast _ rest' rfl hm).symm.trans hnow'
    · rw [List.length_append]
      exact Nat.le_add_right _ _
  · rintro ⟨⟨rest, rfl, hrun, hnow⟩, hlongest⟩
    refine ⟨rest, rfl, hrun, hnow, splitRun_eq_none.mpr ?_⟩
    rintro m rest' rfl hm
    cases hnow' : next rest' with
    | none => rfl
    | some found' =>
        have hlonger : IsRun (run ++ m) :=
          ⟨List.append_ne_nil_of_left_ne_nil hrun.1 m, fun a ha =>
            (List.mem_append.mp ha).elim (hrun.2 a) (hm.2 a)⟩
        have hle := hlongest _ rest' found' (List.append_assoc run m rest').symm hlonger hnow'
        have hpos := List.length_pos_iff.mpr hm.1
        rw [List.length_append] at hle
        omega

theorem exists_splitRun {s : List Char} :
    (∃ parts, splitRun next s = some parts) ↔
      ∃ run rest found, s = run ++ rest ∧ IsRun run ∧ next rest = some found := by
  constructor
  · rintro ⟨⟨run, found⟩, h⟩
    obtain ⟨rest, hs, hrun, hrest, _⟩ := splitRun_eq_some.mp h
    exact ⟨run, rest, found, hs, hrun, hrest⟩
  · rintro ⟨run, rest, found, hs, hrun, hrest⟩
    refine Option.ne_none_iff_exists'.mp fun hnone => ?_
    cases (splitRun_eq_none.mp hnone run rest hs hrun).symm.trans hrest

end Runs

/-! ### Arrows and equals signs -/

theorem afterArrow?_of_points {body s : List Char} (h : Points body s) :
    afterArrow? s = some (trimStart body) := by
  obtain ⟨b, arrow, b', hb, harrow, hb', rfl⟩ := h
  unfold afterArrow?
  rcases harrow with rfl | rfl
  · have ht : trimStart (b ++ (['-', '>'] ++ (b' ++ body))) = '-' :: '>' :: (b' ++ body) :=
      (trimStart_blanks hb).trans (trimStart_cons (by decide) _)
    rw [ht]
    exact congrArg some (trimStart_blanks hb')
  · have ht : trimStart (b ++ (['→'] ++ (b' ++ body))) = '→' :: (b' ++ body) :=
      (trimStart_blanks hb).trans (trimStart_cons (by decide) _)
    rw [ht]
    exact congrArg some (trimStart_blanks hb')

theorem points_of_afterArrow? {body s : List Char} (h : afterArrow? s = some body) :
    Points body s := by
  obtain ⟨b, hb, hs⟩ := exists_trimStart s
  unfold afterArrow? at h
  split at h
  · next rest ht =>
    cases h
    obtain ⟨b', hb', hrest⟩ := exists_trimStart rest
    exact ⟨b, ['→'], b', hb, .inr rfl, hb', by rw [← hrest, List.singleton_append, ← ht, ← hs]⟩
  · next rest ht =>
    cases h
    obtain ⟨b', hb', hrest⟩ := exists_trimStart rest
    refine ⟨b, ['-', '>'], b', hb, .inl rfl, hb', ?_⟩
    rw [← hrest, List.cons_append, List.singleton_append, ← ht, ← hs]
  · cases h

/-- The blank code points stand in four gaps between the digits. -/
theorem gaps_of_mem_decimalDigits : ∀ r ∈ decimalDigits, 0x20 < r.1 ∧ (r.2 < 0x85 ∨ 0xA0 < r.1) ∧
    (r.2 < 0x1680 ∨ 0x1680 < r.1) ∧ (r.2 < 0x2000 ∨ 0x3000 < r.1) := by
  decide

theorem isBlank_of_isDecimalDigit {c : Char} (h : isDecimalDigit c = true) : isBlank c = false := by
  obtain ⟨r, hr, hc⟩ := List.any_eq_true.mp h
  have hgaps := gaps_of_mem_decimalDigits r hr
  simp only [Bool.and_eq_true, decide_eq_true_eq] at hc
  simp only [isBlank, Bool.or_eq_false_iff, Bool.and_eq_false_iff, decide_eq_false_iff_not,
    beq_eq_false_iff_ne]
  omega

theorem isRun_of_digits {digits : List Char} (hne : digits ≠ [])
    (h : ∀ c ∈ digits, isDecimalDigit c = true) : IsRun digits :=
  ⟨hne, fun c hc => isBlank_of_isDecimalDigit (h c hc)⟩

theorem digitsAfterEquals?_eq_some {digits s : List Char} :
    digitsAfterEquals? s = some digits ↔ Equates digits s := by
  unfold digitsAfterEquals?
  constructor
  · intro h
    split at h
    · next rest ht =>
      dsimp only at h
      split at h
      · cases h
      · next hne =>
        split at h
        · next hall =>
          cases h
          obtain ⟨b, hb, hs⟩ := exists_trimStart s
          obtain ⟨b', hb', hrest⟩ := exists_trimStart rest
          refine ⟨b, b', hb, hb', mt List.isEmpty_iff.mpr hne, List.all_eq_true.mp hall, ?_⟩
          rw [← hrest, ← ht, ← hs]
        · cases h
    · cases h
  · rintro ⟨b, b', hb, hb', hne, hdigits, rfl⟩
    have ht : trimStart (b ++ '=' :: (b' ++ digits)) = '=' :: (b' ++ digits) :=
      (trimStart_blanks hb).trans (trimStart_cons (by decide) _)
    have hd : trimStart (b' ++ digits) = digits :=
      (trimStart_blanks hb').trans (trimStart_of_head (isRun_of_digits hne hdigits).isTrimmed.1)
    simp only [ht, hd]
    rw [if_neg (mt List.isEmpty_iff.mp hne), if_pos (List.all_eq_true.mpr hdigits)]

/-! ### Weights and rules -/

section Weights

variable {b r t u left alternative digits : List Char}

/-- Behind the nonterminal of a weight the alternative is cut as late as possible. -/
theorem pointed_eq_some :
    (afterArrow? t).bind (splitRun digitsAfterEquals?) = some (alternative, digits) ↔
      (∃ u, Points (alternative ++ u) t ∧ IsRun alternative ∧ Equates digits u) ∧
        ∀ alternative' u' digits', Points (alternative' ++ u') t → IsRun alternative' →
          Equates digits' u' → alternative'.length ≤ alternative.length := by
  have hbody : ∀ {a u : List Char}, IsRun a → Points (a ++ u) t → afterArrow? t = some (a ++ u) :=
    fun ha ht => (afterArrow?_of_points ht).trans (congrArg some (trimStart_run ha _))
  constructor
  · intro h
    obtain ⟨body, ht, hsplit⟩ := Option.bind_eq_some_iff.mp h
    obtain ⟨⟨u, rfl, halternative, hu⟩, hlongest⟩ := splitRun_eq_some_iff_longest.mp hsplit
    refine ⟨⟨u, points_of_afterArrow? ht, halternative, digitsAfterEquals?_eq_some.mp hu⟩, ?_⟩
    intro alternative' u' digits' ht' halternative' hu'
    have heq := Option.some.inj (ht.symm.trans (hbody halternative' ht'))
    exact hlongest _ u' digits' heq halternative' (digitsAfterEquals?_eq_some.mpr hu')
  · rintro ⟨⟨u, ht, halternative, hu⟩, hlongest⟩
    rw [hbody halternative ht, Option.bind_some, splitRun_eq_some_iff_longest]
    refine ⟨⟨u, rfl, halternative, digitsAfterEquals?_eq_some.mpr hu⟩, ?_⟩
    intro alternative' u' digits' heq halternative' hu'
    exact hlongest _ u' digits' (heq ▸ ht) halternative' (digitsAfterEquals?_eq_some.mp hu')

theorem weighs_keyword_iff (hne : b ≠ []) (hb : AllBlank b) :
    Weighs left alternative digits ("weight".toList ++ (b ++ r)) ↔
      ∃ t u, trimStart r = left ++ t ∧ IsRun left ∧ Points (alternative ++ u) t ∧
        IsRun alternative ∧ Equates digits u := by
  constructor
  · rintro ⟨b', t, u, _, hb', hleft, ht, halternative, hu, heq⟩
    refine ⟨t, u, ?_, hleft, ht, halternative, hu⟩
    calc
      trimStart r = trimStart (b ++ r) := (trimStart_blanks hb).symm
      _ = trimStart (b' ++ (left ++ t)) := congrArg trimStart (List.append_cancel_left heq)
      _ = left ++ t := (trimStart_blanks hb').trans (trimStart_run hleft t)
  · rintro ⟨t, u, hr, hleft, ht, halternative, hu⟩
    obtain ⟨b', hb', hrest⟩ := exists_trimStart r
    refine ⟨b ++ b', t, u, List.append_ne_nil_of_left_ne_nil hne b', ?_, hleft, ht, halternative,
      hu, ?_⟩
    · exact fun c hc => (List.mem_append.mp hc).elim (hb c) (hb' c)
    · rw [List.append_assoc, ← hr, ← hrest]

theorem weightParts?_keyword (hne : b ≠ []) (hb : AllBlank b) :
    weightParts? ("weight".toList ++ (b ++ r)) =
      splitRun (fun t => (afterArrow? t).bind (splitRun digitsAfterEquals?)) (trimStart r) := by
  obtain ⟨c, b, rfl⟩ := List.exists_cons_of_ne_nil hne
  obtain ⟨hc, hb⟩ := List.forall_mem_cons.mp hb
  have hkeyword : after? "weight".toList ("weight".toList ++ (c :: b ++ r)) = some (c :: (b ++ r)) :=
    after?_eq_some.mpr rfl
  unfold weightParts?
  rw [hkeyword]
  dsimp only
  rw [if_pos hc, trimStart_blanks hb]

theorem exists_keyword_of_weightParts? {s : List Char} {parts : List Char × List Char × List Char}
    (h : weightParts? s = some parts) :
    ∃ b r, b ≠ [] ∧ AllBlank b ∧ s = "weight".toList ++ (b ++ r) := by
  unfold weightParts? at h
  split at h
  · next c rest hs =>
    split at h
    · next hc =>
      exact ⟨[c], rest, List.cons_ne_nil _ _, List.forall_mem_singleton.mpr hc,
        after?_eq_some.mp hs⟩
    · cases h
  · cases h

theorem exists_pointed (ht : Points (alternative ++ u) t) (halternative : IsRun alternative)
    (hu : Equates digits u) :
    ∃ found, (afterArrow? t).bind (splitRun digitsAfterEquals?) = some found := by
  have hbody : afterArrow? t = some (alternative ++ u) :=
    (afterArrow?_of_points ht).trans (congrArg some (trimStart_run halternative u))
  rw [hbody, Option.bind_some]
  exact exists_splitRun.mpr ⟨_, u, _, rfl, halternative, digitsAfterEquals?_eq_some.mpr hu⟩

/-- The parts of a weight are those with the latest cuts. -/
theorem weightParts?_keyword_eq_some (hne : b ≠ []) (hb : AllBlank b) :
    weightParts? ("weight".toList ++ (b ++ r)) = some (left, alternative, digits) ↔
      LastWeighs left alternative digits ("weight".toList ++ (b ++ r)) := by
  rw [weightParts?_keyword hne hb, splitRun_eq_some_iff_longest]
  constructor
  · rintro ⟨⟨t, hr, hleft, hnow⟩, hlongest⟩
    obtain ⟨⟨u, ht, halternative, hu⟩, hinner⟩ := pointed_eq_some.mp hnow
    refine ⟨(weighs_keyword_iff hne hb).mpr ⟨t, u, hr, hleft, ht, halternative, hu⟩, ?_⟩
    intro left' alternative' digits' h'
    obtain ⟨t', u', hr', hleft', ht', halternative', hu'⟩ := (weighs_keyword_iff hne hb).mp h'
    obtain ⟨found, hfound⟩ := exists_pointed ht' halternative' hu'
    refine ⟨hlongest left' t' found hr' hleft' hfound, ?_⟩
    rintro rfl
    cases List.append_cancel_left (hr.symm.trans hr')
    exact hinner alternative' u' digits' ht' halternative' hu'
  · rintro ⟨h, hlast⟩
    obtain ⟨t, u, hr, hleft, ht, halternative, hu⟩ := (weighs_keyword_iff hne hb).mp h
    refine ⟨⟨t, hr, hleft, pointed_eq_some.mpr ⟨⟨u, ht, halternative, hu⟩, ?_⟩⟩, ?_⟩
    · intro alternative' u' digits' ht' halternative' hu'
      have h' := (weighs_keyword_iff hne hb).mpr ⟨t, u', hr, hleft, ht', halternative', hu'⟩
      exact (hlast left alternative' digits' h').2 rfl
    · rintro left' t' ⟨alternative', digits'⟩ hr' hleft' hnow'
      obtain ⟨⟨u', ht', halternative', hu'⟩, _⟩ := pointed_eq_some.mp hnow'
      have h' := (weighs_keyword_iff hne hb).mpr ⟨t', u', hr', hleft', ht', halternative', hu'⟩
      exact (hlast left' alternative' digits' h').1

theorem weightParts?_eq_some {s : List Char} :
    weightParts? s = some (left, alternative, digits) ↔ LastWeighs left alternative digits s := by
  constructor
  · intro h
    obtain ⟨b, r, hne, hb, rfl⟩ := exists_keyword_of_weightParts? h
    exact (weightParts?_keyword_eq_some hne hb).mp h
  · intro h
    obtain ⟨b, t, u, hne, hb, _, _, _, _, rfl⟩ := h.1
    exact (weightParts?_keyword_eq_some hne hb).mpr h

theorem exists_weightParts? {s : List Char} :
    (∃ parts, weightParts? s = some parts) ↔
      ∃ left alternative digits, Weighs left alternative digits s := by
  constructor
  · rintro ⟨⟨left, alternative, digits⟩, h⟩
    exact ⟨left, alternative, digits, (weightParts?_eq_some.mp h).1⟩
  · rintro ⟨left, alternative, digits, b, t, u, hne, hb, hleft, ht, halternative, hu, rfl⟩
    obtain ⟨found, hfound⟩ := exists_pointed ht halternative hu
    rw [weightParts?_keyword hne hb, trimStart_run hleft]
    exact exists_splitRun.mpr ⟨left, t, found, rfl, hleft, hfound⟩

end Weights

/-- What stands behind the last occurrence of a character does not depend on the cut. -/
theorem eq_of_last {c : Char} {p p' x x' : List Char} (h : p ++ c :: x = p' ++ c :: x')
    (hx : ¬ c ∈ x) (hx' : ¬ c ∈ x') : x = x' := by
  rcases List.append_eq_append_iff.mp h with ⟨m, _, hm⟩ | ⟨m, _, hm⟩
  · cases m with
    | nil => exact (List.cons.inj hm).2
    | cons d m => exact absurd ((List.cons.inj hm).2 ▸ by simp) hx
  · cases m with
    | nil => exact (List.cons.inj hm).2.symm
    | cons d m => exact absurd ((List.cons.inj hm).2 ▸ by simp) hx'

theorem Weighs.exists_last {left alternative digits s : List Char}
    (h : Weighs left alternative digits s) :
    ∃ p x, s = p ++ '=' :: x ∧ ¬ '=' ∈ x ∧ trimStart x = digits := by
  obtain ⟨b, t, u, _, _, _, ht, _, hu, rfl⟩ := h
  obtain ⟨b₁, arrow, b₂, _, _, _, rfl⟩ := ht
  obtain ⟨b₃, b₄, _, hb₄, hne, hdigits, rfl⟩ := hu
  refine ⟨"weight".toList ++ (b ++ (left ++ (b₁ ++ (arrow ++ (b₂ ++ (alternative ++ b₃)))))),
    b₄ ++ digits, by simp only [List.append_assoc], ?_, ?_⟩
  · rw [List.mem_append]
    rintro (hmem | hmem)
    · exact absurd (hb₄ _ hmem) (by decide)
    · exact absurd (hdigits _ hmem) (by decide)
  · exact (trimStart_blanks hb₄).trans
      (trimStart_of_head (isRun_of_digits hne hdigits).isTrimmed.1)

/-- The digits of a weight do not depend on the cut. -/
theorem Weighs.digits_eq {left alternative digits left' alternative' digits' s : List Char}
    (h : Weighs left alternative digits s) (h' : Weighs left' alternative' digits' s) :
    digits = digits' := by
  obtain ⟨p, x, hs, hx, rfl⟩ := h.exists_last
  obtain ⟨p', x', hs', hx', rfl⟩ := h'.exists_last
  rw [eq_of_last (hs.symm.trans hs') hx hx']

theorem lastRules_of_ruleParts? {left body s : List Char} (h : ruleParts? s = some (left, body)) :
    LastRules left body s := by
  obtain ⟨⟨t, hs, hleft, ht⟩, hlongest⟩ := splitRun_eq_some_iff_longest.mp h
  refine ⟨⟨t, hleft, points_of_afterArrow? ht, hs⟩, ?_⟩
  rintro left' body' ⟨t', hleft', ht', hs'⟩
  exact hlongest left' t' _ hs' hleft' (afterArrow?_of_points ht')

/-- The parts of a rule are those with the latest cut, up to blanks in front of the body. -/
theorem ruleParts?_of_lastRules {left body s : List Char} (h : LastRules left body s) :
    ruleParts? s = some (left, trimStart body) := by
  obtain ⟨⟨t, hleft, ht, hs⟩, hlast⟩ := h
  refine splitRun_eq_some_iff_longest.mpr ⟨⟨t, hs, hleft, afterArrow?_of_points ht⟩, ?_⟩
  intro left' t' body' hs' hleft' ht'
  exact hlast left' body' ⟨t', hleft', points_of_afterArrow? ht', hs'⟩

theorem exists_ruleParts? {s : List Char} :
    (∃ parts, ruleParts? s = some parts) ↔ ∃ left body, Rules left body s := by
  constructor
  · rintro ⟨⟨left, body⟩, h⟩
    exact ⟨left, body, (lastRules_of_ruleParts? h).1⟩
  · rintro ⟨left, body, t, hleft, ht, hs⟩
    exact exists_splitRun.mpr ⟨left, t, _, hs, hleft, afterArrow?_of_points ht⟩

/-! ### Forms -/

theorem silent_iff {s : List Char} : (s.isEmpty || s.head? == some '#') = true ↔ Silent s := by
  simp [Silent]

theorem not_silent {s : List Char} {c : Char} (h : s.head? = some c) (hc : c ≠ '#') : ¬ Silent s := by
  rintro (rfl | hs)
  · cases h
  · exact hc (Option.some.inj (h.symm.trans hs))

theorem ofLine_of_silent {s : List Char} (h : Silent s) : Form.ofLine s = .silent :=
  if_pos (silent_iff.mpr h)

theorem Weighs.head? {left alternative digits s : List Char} (h : Weighs left alternative digits s) :
    s.head? = some 'w' := by
  obtain ⟨b, t, u, _, _, _, _, _, _, rfl⟩ := h
  rfl

theorem ofLine_of_nonterminals {body s : List Char} (h : Declares "nonterminals".toList body s) :
    Form.ofLine s = .nonterminals (words body) := by
  have hhead : s.head? = some 'n' := h.head? (by decide)
  unfold Form.ofLine
  rw [if_neg (mt silent_iff.mp (not_silent hhead (by decide))), afterColon?_of_declares h]
  exact congrArg Form.nonterminals (words_trimStart body)

theorem ofLine_of_terminals {body s : List Char} (h : Declares "terminals".toList body s) :
    Form.ofLine s = .terminals (words body) := by
  have hhead : s.head? = some 't' := h.head? (by decide)
  have hnonterminals : afterColon? "nonterminals".toList s = none :=
    afterColon?_of_head? (by decide) (by rw [hhead]; decide)
  unfold Form.ofLine
  rw [if_neg (mt silent_iff.mp (not_silent hhead (by decide))), hnonterminals,
    afterColon?_of_declares h]
  exact congrArg Form.terminals (words_trimStart body)

theorem ofLine_of_starts {name s : List Char} (h : Starts name s) : Form.ofLine s = .start name := by
  have hhead : s.head? = some 's' := h.2.head? (by decide)
  have hnonterminals : afterColon? "nonterminals".toList s = none :=
    afterColon?_of_head? (by decide) (by rw [hhead]; decide)
  have hterminals : afterColon? "terminals".toList s = none :=
    afterColon?_of_head? (by decide) (by rw [hhead]; decide)
  unfold Form.ofLine
  rw [if_neg (mt silent_iff.mp (not_silent hhead (by decide))), hnonterminals, hterminals,
    startSymbol?_eq_some.mpr h]

theorem ofLine_of_lastWeighs {left alternative digits s : List Char}
    (h : LastWeighs left alternative digits s) : Form.ofLine s = .weight left alternative digits := by
  have hhead : s.head? = some 'w' := h.1.head?
  have hnonterminals : afterColon? "nonterminals".toList s = none :=
    afterColon?_of_head? (by decide) (by rw [hhead]; decide)
  have hterminals : afterColon? "terminals".toList s = none :=
    afterColon?_of_head? (by decide) (by rw [hhead]; decide)
  have hstart : afterColon? "start".toList s = none :=
    afterColon?_of_head? (by decide) (by rw [hhead]; decide)
  unfold Form.ofLine
  rw [if_neg (mt silent_iff.mp (not_silent hhead (by decide))), hnonterminals, hterminals,
    startSymbol?_eq_none hstart, weightParts?_eq_some.mpr h]

theorem exists_ofLine_of_weighs {left alternative digits s : List Char}
    (h : Weighs left alternative digits s) :
    ∃ left' alternative', Form.ofLine s = .weight left' alternative' digits := by
  obtain ⟨⟨left', alternative', digits'⟩, hparts⟩ := exists_weightParts?.mpr ⟨_, _, _, h⟩
  have hlast := weightParts?_eq_some.mp hparts
  cases hlast.1.digits_eq h
  exact ⟨left', alternative', ofLine_of_lastWeighs hlast⟩

/-- Every line has the form that it is given. -/
theorem hasForm_ofLine (s : List Char) : HasForm s (Form.ofLine s) := by
  unfold Form.ofLine
  split
  · next hs => exact .silent (silent_iff.mp hs)
  · next hs =>
    split
    · next hbody => exact .nonterminals (declares_of_afterColon? hbody)
    · next hnonterminals =>
      split
      · next hbody => exact .terminals (declares_of_afterColon? hbody)
      · next hterminals =>
        split
        · next hname => exact .start (startSymbol?_eq_some.mp hname)
        · next hstart =>
          split
          · next hparts => exact .weight (weightParts?_eq_some.mp hparts)
          · next hweight =>
            split
            · next hparts => exact .production (mt silent_iff.mpr hs) (lastRules_of_ruleParts? hparts)
            · next hrule =>
              refine .unknown (mt silent_iff.mpr hs) ?_
              rintro (h | h | ⟨name, h⟩ | h | h)
              · obtain ⟨body, hbody⟩ := exists_afterColon?.mpr h
                cases hnonterminals.symm.trans hbody
              · obtain ⟨body, hbody⟩ := exists_afterColon?.mpr h
                cases hterminals.symm.trans hbody
              · cases hstart.symm.trans (startSymbol?_eq_some.mpr h)
              · obtain ⟨parts, hparts⟩ := exists_weightParts?.mpr h
                cases hweight.symm.trans hparts
              · obtain ⟨parts, hparts⟩ := exists_ruleParts?.mpr h
                cases hrule.symm.trans hparts

theorem ofLine_of_not_recognized {s : List Char} (hs : ¬ Silent s) (h : ¬ Recognized s) :
    Form.ofLine s = .unknown s := by
  have hform := hasForm_ofLine s
  generalize Form.ofLine s = form at hform
  cases hform with
  | silent hsilent => exact absurd hsilent hs
  | nonterminals hbody => exact absurd (.inl ⟨_, hbody⟩) h
  | terminals hbody => exact absurd (.inr (.inl ⟨_, hbody⟩)) h
  | start hname => exact absurd (.inr (.inr (.inl ⟨_, hname⟩))) h
  | weight hparts => exact absurd (.inr (.inr (.inr (.inl ⟨_, _, _, hparts.1⟩)))) h
  | production _ hparts => exact absurd (.inr (.inr (.inr (.inr ⟨_, _, hparts.1⟩)))) h
  | unknown _ _ => rfl

end RightLinear.Lines
