import RightLinear.Proofs.Directives

/-! # Blanks in rules

The parts of a rule may stand with or without blanks between them: in front of the arrow, behind it and
around each bar (`ruleLine`, `Spaced`).  The nonterminal is cut as late as an arrow allows, so it
is the run in front of the arrow unless it goes on, without a blank, up to a later arrow
(`ruleParts?_left`).  A blank in front of the arrow rules that out, and so does a text behind the arrow
in which no other arrow can be reached (`ruleParts?_eq_none`, `ArrowAhead`).

`readLine_ruleLine` says that these are the only two conditions: if one of them holds, blanks make
no difference, and if not, the line is read as a rule of a longer nonterminal. -/

namespace RightLinear.Lines

open Text

/-- Alternatives with a bar between any two, blanks in front and blanks around the bars. -/
inductive Spaced : List (List Char) → List Char → Prop
  | last {a b : List Char} : AllBlank b → Spaced [a] (b ++ a)
  | cons {a b b' s : List Char} {alternatives : List (List Char)} : AllBlank b → AllBlank b' →
      Spaced alternatives s → Spaced (a :: alternatives) (b ++ (a ++ (b' ++ '|' :: s)))

/-- A nonterminal, blanks, an arrow and what stands behind it. -/
def ruleLine (left b arrow s : List Char) : List Char := left ++ (b ++ (arrow ++ s))

/-- A run in front of the text would go on up to an arrow in it. -/
def ArrowAhead (s : List Char) : Prop :=
  ∃ u r body, s = u ++ r ∧ (∀ c ∈ u, isBlank c = false) ∧ Points body r

/-! ### Alternatives -/

namespace Spaced

variable {alternatives : List (List Char)} {s : List Char}

theorem mem_cases (h : Spaced alternatives s) {c : Char} (hc : c ∈ s) :
    isBlank c = true ∨ c = '|' ∨ ∃ a ∈ alternatives, c ∈ a := by
  induction h with
  | last hb =>
      rcases List.mem_append.mp hc with hc | hc
      · exact .inl (hb c hc)
      · exact .inr (.inr ⟨_, List.mem_cons_self, hc⟩)
  | cons hb hb' _ ih =>
      simp only [List.mem_append, List.mem_cons] at hc
      rcases hc with hc | hc | hc | hc | hc
      · exact .inl (hb c hc)
      · exact .inr (.inr ⟨_, List.mem_cons_self, hc⟩)
      · exact .inl (hb' c hc)
      · exact .inr (.inl hc)
      · rcases ih hc with h | h | ⟨a, ha, h⟩
        · exact .inl h
        · exact .inr (.inl h)
        · exact .inr (.inr ⟨a, List.mem_cons_of_mem _ ha, h⟩)

theorem ne_nil (h : Spaced alternatives s) : alternatives ≠ [] := by
  cases h <;> exact List.cons_ne_nil _ _

theorem exists_trimmed (h : Spaced alternatives s) (hruns : ∀ a ∈ alternatives, IsRun a) :
    ∃ b y, AllBlank b ∧ s = b ++ y ∧ Spaced alternatives y ∧ IsTrimmed y ∧ y ≠ [] := by
  induction h with
  | @last a b hb =>
      have ha := hruns a List.mem_cons_self
      exact ⟨b, a, hb, rfl, .last allBlank_nil, ha.isTrimmed, ha.1⟩
  | @cons a b b' s alternatives hb hb' hs ih =>
      obtain ⟨ha, hrest⟩ := List.forall_mem_cons.mp hruns
      obtain ⟨b'', y, _, rfl, _, hy, hyne⟩ := ih hrest
      have htrimmed := ha.isTrimmed.append hy ha.1 hyne (b' ++ '|' :: b'')
      rw [List.append_assoc, List.cons_append] at htrimmed
      refine ⟨b, _, hb, rfl, ?_, htrimmed, List.append_ne_nil_of_left_ne_nil ha.1 _⟩
      exact .cons allBlank_nil hb' hs

theorem map_trim_fields (h : Spaced alternatives s)
    (hruns : ∀ a ∈ alternatives, IsRun a ∧ ¬ '|' ∈ a) :
    (fields '|' s).map trim = alternatives := by
  have hblank : ∀ b : List Char, AllBlank b → ¬ '|' ∈ b := by
    intro b hb hmem
    exact absurd (hb _ hmem) (by decide)
  induction h with
  | @last a b hb =>
      obtain ⟨ha, hbar⟩ := hruns a List.mem_cons_self
      have htrim : trim (b ++ a ++ []) = a := trim_append hb allBlank_nil ha.isTrimmed ha.1
      rw [List.append_nil] at htrim
      rw [fields_of_not_mem (by simp [hblank b hb, hbar]), List.map_singleton, htrim]
  | @cons a b b' s alternatives hb hb' _ ih =>
      obtain ⟨⟨ha, hbar⟩, hrest⟩ := List.forall_mem_cons.mp hruns
      have hsplit : b ++ (a ++ (b' ++ '|' :: s)) = (b ++ a ++ b') ++ '|' :: s := by
        simp only [List.append_assoc]
      have hfirst : ¬ '|' ∈ b ++ a ++ b' := by simp [hblank b hb, hblank b' hb', hbar]
      rw [hsplit, fields_append, fields_of_not_mem hfirst, List.map_append, ih hrest,
        List.map_singleton, trim_append hb hb' ha.isTrimmed ha.1]
      rfl

theorem joined (hne : alternatives ≠ []) :
    Spaced alternatives (' ' :: Text.joined [' ', '|', ' '] alternatives) := by
  induction alternatives with
  | nil => exact absurd rfl hne
  | cons a alternatives ih =>
      cases alternatives with
      | nil =>
          rw [joined_singleton]
          exact .last allBlank_space
      | cons a' alternatives =>
          rw [joined_cons_cons]
          exact .cons allBlank_space allBlank_space (ih (List.cons_ne_nil _ _))

theorem not_arrowAhead (h : Spaced alternatives s)
    (hplain : ∀ a ∈ alternatives, ¬ '→' ∈ a ∧ ¬ '>' ∈ a) : ¬ ArrowAhead s := by
  rintro ⟨u, r, body, rfl, _, b, arrow, b', _, harrow, _, rfl⟩
  rcases harrow with rfl | rfl
  · rcases h.mem_cases (c := '>') (by simp) with hc | hc | ⟨a, ha, hc⟩
    · exact absurd hc (by decide)
    · exact absurd hc (by decide)
    · exact (hplain a ha).2 hc
  · rcases h.mem_cases (c := '→') (by simp) with hc | hc | ⟨a, ha, hc⟩
    · exact absurd hc (by decide)
    · exact absurd hc (by decide)
    · exact (hplain a ha).1 hc

end Spaced

/-! ### The nonterminal -/

theorem not_arrowAhead_iff {s : List Char} :
    ¬ ArrowAhead s ↔ afterArrow? s = none ∧ ruleParts? s = none := by
  constructor
  · intro h
    constructor
    · cases hbody : afterArrow? s with
      | none => rfl
      | some body =>
          exact absurd ⟨[], s, body, rfl, by simp, points_of_afterArrow? hbody⟩ h
    · cases hparts : ruleParts? s with
      | none => rfl
      | some parts =>
          obtain ⟨r, hleft, hr, hs⟩ := (lastRules_of_ruleParts? hparts).1
          exact absurd ⟨parts.1, r, parts.2, hs, hleft.2, hr⟩ h
  · rintro ⟨hbody, hparts⟩ ⟨u, r, body, rfl, hu, hr⟩
    cases u with
    | nil => cases hbody.symm.trans (afterArrow?_of_points hr)
    | cons c u =>
        obtain ⟨parts, hsome⟩ :=
          exists_ruleParts?.mpr ⟨_, _, r, ⟨List.cons_ne_nil c u, hu⟩, hr, rfl⟩
        cases hparts.symm.trans hsome

/-- A nonterminal in front of an arrow does not go on if there are blanks between them, or if no
other arrow can be reached. -/
theorem ruleParts?_eq_none {b arrow s : List Char} (hb : AllBlank b) (harrow : IsArrow arrow) :
    ruleParts? (b ++ (arrow ++ s)) = none ↔ b ≠ [] ∨ ¬ ArrowAhead s := by
  unfold ruleParts?
  cases b with
  | cons c b =>
      refine iff_of_true (splitRun_of_isBlank (hb c List.mem_cons_self) _) ?_
      exact .inl (List.cons_ne_nil c b)
  | nil =>
      have hother : afterArrow? ('>' :: s) = none := rfl
      rw [not_arrowAhead_iff, ruleParts?]
      rcases harrow with rfl | rfl
      · rw [List.nil_append, List.cons_append, List.singleton_append, splitRun_cons (by decide),
          splitRun_cons (by decide), hother]
        simp [and_comm]
      · rw [List.nil_append, List.singleton_append, splitRun_cons (by decide)]
        simp [and_comm]

/-- The nonterminal is cut behind a run if it does not go on. -/
theorem ruleParts?_left {left t body : List Char} (hleft : IsRun left) :
    ruleParts? (left ++ t) = some (left, body) ↔ afterArrow? t = some body ∧ ruleParts? t = none := by
  unfold ruleParts?
  rw [splitRun_eq_some]
  constructor
  · rintro ⟨rest, heq, _, hbody, hnone⟩
    cases List.append_cancel_left heq
    exact ⟨hbody, hnone⟩
  · rintro ⟨hbody, hnone⟩
    exact ⟨t, rfl, hleft, hbody, hnone⟩

theorem exists_ruleParts?_left {left t body : List Char} (hleft : IsRun left) (ht : Points body t) :
    ∃ u body', ruleParts? (left ++ t) = some (left ++ u, body') := by
  have hrules : Rules left body (left ++ t) := ⟨t, hleft, ht, rfl⟩
  obtain ⟨⟨left', body'⟩, hparts⟩ := exists_ruleParts?.mpr ⟨left, body, hrules⟩
  obtain ⟨⟨t', _, _, heq⟩, hlast⟩ := lastRules_of_ruleParts? hparts
  obtain ⟨u, rfl⟩ : left <+: left' := List.prefix_of_prefix_length_le (List.prefix_append left t)
    (heq ▸ List.prefix_append left' t') (hlast left body hrules)
  exact ⟨u, body', hparts⟩

/-! ### Lines -/

theorem isBlank_of_isAlpha {c : Char} (h : c.isAlpha = true) : isBlank c = false := by
  have hc : (65 ≤ c.toNat ∧ c.toNat ≤ 90) ∨ (97 ≤ c.toNat ∧ c.toNat ≤ 122) := by
    rcases (Bool.or_eq_true c.isUpper c.isLower).mp h with hupper | hlower
    · have hvalue : 'A'.val ≤ c.val ∧ c.val ≤ 'Z'.val := of_decide_eq_true hupper
      exact .inl hvalue
    · obtain ⟨hfirst, hlast⟩ := (Bool.and_eq_true _ _).mp hlower
      exact .inr ⟨of_decide_eq_true hfirst, of_decide_eq_true hlast⟩
  simp only [isBlank, Bool.or_eq_false_iff, Bool.and_eq_false_iff, decide_eq_false_iff_not,
    beq_eq_false_iff_ne]
  omega

/-- What points at a body begins neither with a letter nor, up to blanks, with a colon. -/
theorem Points.exists_cons {body t : List Char} (h : Points body t) :
    ∃ c rest, t = c :: rest ∧ c.isAlpha = false ∧ ¬ ∃ t', trimStart (c :: rest) = ':' :: t' := by
  have hcolon : ¬ ∃ t', trimStart t = ':' :: t' := by
    rintro ⟨t', ht'⟩
    have harrow := afterArrow?_of_points h
    unfold afterArrow? at harrow
    rw [ht'] at harrow
    cases harrow
  obtain ⟨b, arrow, b', hb, harrow, _, rfl⟩ := h
  cases b with
  | cons c b =>
      have hc : isBlank c = true := hb c List.mem_cons_self
      refine ⟨c, _, rfl, Bool.eq_false_iff.mpr fun halpha => ?_, hcolon⟩
      cases hc.symm.trans (isBlank_of_isAlpha halpha)
  | nil =>
      rcases harrow with rfl | rfl
      · exact ⟨'-', _, rfl, by decide, hcolon⟩
      · exact ⟨'→', _, rfl, by decide, hcolon⟩

theorem readLine_of_ruleParts? {left t body left' body' : List Char} (hleft : IsLeft left)
    (ht : Points body t) (htrimmed : IsTrimmed (left ++ t))
    (hparts : ruleParts? (left ++ t) = some (left', body')) :
    readLine (left ++ t) = .ok (some (.production (String.ofList left')
      (((fields '|' body').map trim).map String.ofList))) := by
  obtain ⟨c, rest, rfl, hc, hcolon⟩ := ht.exists_cons
  rw [readLine, trim_of_isTrimmed htrimmed, ofLine_of_ruleParts? hleft hc hcolon hparts, Form.check]

/-! ### Rules -/

section Rules

variable {left b arrow s : List Char} {alternatives : List (List Char)}

theorem isTrimmed_ruleLine (hleft : IsRun left) (hruns : ∀ a ∈ alternatives, IsRun a)
    (hs : Spaced alternatives s) : IsTrimmed (ruleLine left b arrow s) := by
  obtain ⟨b', y, _, rfl, _, hy, hyne⟩ := hs.exists_trimmed hruns
  have htrimmed := hleft.isTrimmed.append hy hleft.1 hyne (b ++ (arrow ++ b'))
  rw [List.append_assoc, List.append_assoc] at htrimmed
  exact htrimmed

theorem exists_readLine_ruleLine (hleft : IsLeft left) (hruns : ∀ a ∈ alternatives, IsRun a)
    (hb : AllBlank b) (harrow : IsArrow arrow) (hs : Spaced alternatives s) :
    ∃ u body, ruleParts? (ruleLine left b arrow s) = some (left ++ u, body) ∧
      readLine (ruleLine left b arrow s) = .ok (some (.production (String.ofList (left ++ u))
        (((fields '|' body).map trim).map String.ofList))) := by
  have hpoints : Points s (b ++ (arrow ++ s)) := ⟨b, arrow, [], hb, harrow, allBlank_nil, rfl⟩
  obtain ⟨u, body, hparts⟩ := exists_ruleParts?_left hleft.run hpoints
  have htrimmed : IsTrimmed (ruleLine left b arrow s) := isTrimmed_ruleLine hleft.run hruns hs
  exact ⟨u, body, hparts, readLine_of_ruleParts? hleft hpoints htrimmed hparts⟩

theorem readLine_ruleLine_iff (hleft : IsLeft left)
    (hruns : ∀ a ∈ alternatives, IsRun a ∧ ¬ '|' ∈ a) (hb : AllBlank b) (harrow : IsArrow arrow)
    (hs : Spaced alternatives s) :
    readLine (ruleLine left b arrow s) =
        .ok (some (.production (String.ofList left) (alternatives.map String.ofList))) ↔
      b ≠ [] ∨ ¬ ArrowAhead s := by
  have hpoints : Points s (b ++ (arrow ++ s)) := ⟨b, arrow, [], hb, harrow, allBlank_nil, rfl⟩
  obtain ⟨u, body, hparts, hread⟩ :=
    exists_readLine_ruleLine hleft (fun a ha => (hruns a ha).1) hb harrow hs
  rw [← ruleParts?_eq_none hb harrow]
  constructor
  · intro h
    have hname : String.ofList (left ++ u) = String.ofList left := by
      have hsame := hread.symm.trans h
      simp only [Except.ok.injEq, Option.some.injEq, Directive.production.injEq] at hsame
      exact hsame.1
    have hu : left ++ u = left := String.ofList_injective hname
    rw [hu] at hparts
    exact ((ruleParts?_left hleft.run).mp hparts).2
  · intro hnone
    have hcut : ruleParts? (left ++ (b ++ (arrow ++ s))) = some (left, trimStart s) :=
      (ruleParts?_left hleft.run).mpr ⟨afterArrow?_of_points hpoints, hnone⟩
    obtain ⟨b', y, hb', rfl, hy, hytrimmed, _⟩ := hs.exists_trimmed fun a ha => (hruns a ha).1
    have hbody : trimStart (b' ++ y) = y :=
      (trimStart_blanks hb').trans (trimStart_of_head hytrimmed.1)
    obtain ⟨hname, hbody'⟩ := Prod.mk.inj (Option.some.inj (hparts.symm.trans hcut))
    rw [hread, hname, hbody', hbody, hy.map_trim_fields hruns]

/-- **Blanks make no difference in a rule, but for names that go on up to another arrow.**  A rule
may be written with any blanks, or none, in front of the arrow, behind it and around each bar.  It is
read as the rule of exactly its nonterminal with exactly its alternatives if and only if there is a blank
in front of the arrow, or no other arrow is reached from there without one.  Then it stands for the line
with single spaces in any text.  Otherwise, too, it is read as a rule, of a nonterminal that begins as
it is written and goes on. -/
theorem readLine_ruleLine (hleft : IsLeft left)
    (hruns : ∀ a ∈ alternatives, IsRun a ∧ ¬ '|' ∈ a) (hb : AllBlank b) (harrow : IsArrow arrow)
    (hs : Spaced alternatives s) :
    (readLine (ruleLine left b arrow s) =
        .ok (some (.production (String.ofList left) (alternatives.map String.ofList))) ↔
      b ≠ [] ∨ ¬ ArrowAhead s) ∧
    (∃ u read, readLine (ruleLine left b arrow s) =
      .ok (some (.production (String.ofList (left ++ u)) read))) ∧
    ∀ before after : List (List Char),
      (∀ t ∈ before ++ ruleLine left b arrow s :: after, ¬ '\n' ∈ t) → b ≠ [] ∨ ¬ ArrowAhead s →
      Definition.ofText ((before ++ ruleLine left b arrow s :: after).flatMap line) =
        Definition.ofText ((before ++ ruleLine left [' '] arrow
          (' ' :: joined [' ', '|', ' '] alternatives) :: after).flatMap line) := by
  have hiff := readLine_ruleLine_iff hleft hruns hb harrow hs
  refine ⟨hiff, ?_, ?_⟩
  · obtain ⟨u, body, _, hread⟩ :=
      exists_readLine_ruleLine hleft (fun a ha => (hruns a ha).1) hb harrow hs
    exact ⟨u, _, hread⟩
  · intro before after hlines hcondition
    have hsingle := readLine_ruleLine_iff hleft hruns allBlank_space harrow (Spaced.joined hs.ne_nil)
    have hread := (hiff.mpr hcondition).trans (hsingle.mpr (.inl (List.cons_ne_nil _ _))).symm
    refine ofText_replace hlines ?_ hread
    have hl : ¬ '\n' ∈ left := newline_not_mem_of_isRun hleft.run
    have ha : ¬ '\n' ∈ arrow := by rcases harrow with rfl | rfl <;> decide
    have hj : ¬ '\n' ∈ joined [' ', '|', ' '] alternatives :=
      newline_not_mem_joined (by decide) fun a ha => (hruns a ha).1
    simp [ruleLine, hl, ha, hj]

end Rules

/-- Without any blanks, a rule of ordinary alternatives is read as with single spaces; a rule with an
arrow for a terminal is if there is a blank in front of its own. -/
theorem tight_ruleLine :
    IsLeft "S".toList ∧ Spaced [['a'], ['b', 'S']] "a|bS".toList ∧ ¬ ArrowAhead "a|bS".toList ∧
    readLine "S->a|bS".toList = .ok (some (.production "S" ["a", "bS"])) ∧
    Definition.ofText "terminals: a b\nstart: S\nS->a|bS\n".toList =
      Definition.ofText "terminals: a b\nstart: S\nS -> a | bS\n".toList ∧
    readLine "S ->→|a".toList = .ok (some (.production "S" ["→", "a"])) := by
  have hleft : IsLeft ['S'] := by decide
  have hs : Spaced [['a'], ['b', 'S']] "a|bS".toList :=
    .cons allBlank_nil allBlank_nil (.last allBlank_nil)
  have hplain : ¬ ArrowAhead "a|bS".toList := hs.not_arrowAhead (by simp)
  have hruns : ∀ a ∈ [['a'], ['b', 'S']], IsRun a ∧ ¬ '|' ∈ a := by
    simp only [List.forall_mem_cons]
    exact ⟨by decide, by decide, by simp⟩
  have harrows : Spaced [['→'], ['a']] "→|a".toList :=
    .cons allBlank_nil allBlank_nil (.last allBlank_nil)
  have harrowRuns : ∀ a ∈ [['→'], ['a']], IsRun a ∧ ¬ '|' ∈ a := by
    simp only [List.forall_mem_cons]
    exact ⟨by decide, by decide, by simp⟩
  obtain ⟨hread, _, htext⟩ := readLine_ruleLine hleft hruns allBlank_nil (.inl rfl) hs
  obtain ⟨hreadArrows, _, _⟩ :=
    readLine_ruleLine hleft harrowRuns allBlank_space (.inl rfl) harrows
  have hlines : ∀ t ∈ ["terminals: a b".toList, "start: S".toList] ++
      [ruleLine ['S'] [] ['-', '>'] "a|bS".toList], ¬ '\n' ∈ t := by
    simp only [List.forall_mem_append, List.forall_mem_cons]
    exact ⟨⟨by decide, by decide, by simp⟩, by decide, by simp⟩
  exact ⟨hleft, hs, hplain, hread.mpr (.inr hplain),
    htext ["terminals: a b".toList, "start: S".toList] [] hlines (.inr hplain),
    hreadArrows.mpr (.inl (List.cons_ne_nil _ _))⟩

/-- The terminal behind the arrow is an arrow itself, and the nonterminal goes on up to it.  With spaces
it does not, nor does the nonterminal of a weight written without spaces. -/
theorem arrow_terminal :
    IsLeft "S".toList ∧ Spaced [['→']] "→".toList ∧
    readLine (ruleLine "S".toList [] "->".toList "→".toList) =
      .ok (some (.production "S->" [""])) ∧
    readLine (ruleLine "S".toList [' '] "->".toList " →".toList) =
      .ok (some (.production "S" ["→"])) ∧
    readLine "weight S->→=3".toList = .ok (some (.weight "S" "→" 3)) ∧
    Definition.ofText "terminals: →\nstart: S\nS->→".toList ≠
      Definition.ofText "terminals: →\nstart: S\nS -> →".toList := by
  refine ⟨by decide, .last allBlank_nil, ?_, ?_, ?_, ?_⟩
  all_goals decide +kernel

end RightLinear.Lines
