import RightLinear.Proofs.Construction
import RightLinear.Proofs.Directives
import RightLinear.Proofs.Drafts

/-! # Grammars written line by line

`Grammar.toText` writes a grammar in the line format: its declarations, the lines that its display has
between the braces, and its weights, one a line.  These lines of the display are the rules
(`ruleLines_eq`), as no name in a writable grammar has a line feed in it.  So the text lists the
directives of the grammar (`toText_eq`), all of them writable if the grammar is
(`writable_of_mem_directives`); entered one after another they make up the definition of the grammar
(`makes_directives`).  Reading the text gives back the grammar, with all orders, apart from the
limits, which the format leaves out. -/

namespace RightLinear.Grammar

open Lines Text

/-- The grammars that the line format can express: names and terminals are runs without a bar of
their own, every rule has an alternative and is not taken for another form, and every weighted
nonterminal has an entry. -/
structure Writable (g : Grammar) : Prop where
  names : ∀ n ∈ g.nonterminals.toList, IsRun n.toList ∧ n ≠ "|"
  symbols : ∀ t ∈ g.terminals.toList, isBlank t = false ∧ t ≠ '|'
  rules : ∀ e ∈ g.productions.entries, e.2 ≠ [] ∧ IsLeft e.1.toList
  rows : ∀ t ∈ g.weights.table.entries, t.2.entries ≠ []

variable (g : Grammar)

/-- The lines of a text behind the first that is `opening`, up to the next that is `closing`. -/
def linesBetween (opening closing text : List Char) : List (List Char) :=
  (((fields '\n' text).dropWhile (· != opening)).drop 1).takeWhile (· != closing)

/-- What the display of the grammar shows between the braces. -/
def ruleLines : List (List Char) :=
  linesBetween ['P', ' ', '=', ' ', '\x7b'] ['\x7d'] g.render

/-- The grammar in the line format. -/
def toText : List Char :=
  line (Directive.nonterminals g.nonterminals.toList).toText ++
    line (Directive.terminals g.terminals.toList).toText ++
    line (Directive.start g.start).toText ++ g.ruleLines.flatMap line ++
    g.weights.entries.flatMap fun e =>
      line (Directive.weight e.nonterminal e.alternative e.weight).toText

/-- What the lines of the text say. -/
def directives : List Directive :=
  [.nonterminals g.nonterminals.toList, .terminals g.terminals.toList, .start g.start] ++
    (g.productions.entries.map (fun e => Directive.production e.1 e.2) ++
      g.weights.entries.map fun e => Directive.weight e.nonterminal e.alternative e.weight)

variable {g}

/-! ### The lines are writable -/

theorem isRun_alternative (hg : g.Consistent) (hw : g.Writable) {name text : String}
    {rule : List String} (hrule : g.productions.get? name = some rule) (htext : text ∈ rule) :
    IsRun text.toList ∧ ¬ '|' ∈ text.toList := by
  obtain ⟨p, _, hread⟩ := exists_production hg hrule htext
  obtain ⟨ht, hcases⟩ := readAlternative_eq_ok.mp hread
  obtain ⟨hblank, hbar⟩ := hw.symbols _ ht
  rcases hcases with ⟨h, _⟩ | ⟨n, h, hn, _⟩
  · rw [h]
    exact ⟨isRun_singleton.mpr hblank, by simpa using Ne.symm hbar⟩
  · obtain ⟨hrun, hne⟩ := hw.names _ hn
    rw [String.toList_singleton] at hrun
    have hblank' : isBlank n = false := isRun_singleton.mp hrun
    have hbar' : ¬ n = '|' := fun e => hne (e ▸ rfl)
    rw [h]
    refine ⟨⟨List.cons_ne_nil _ _, by simp [hblank, hblank']⟩, ?_⟩
    simp [Ne.symm hbar, Ne.symm hbar']

theorem writable_of_mem_directives (hg : g.Consistent) (hw : g.Writable) :
    ∀ d ∈ g.directives, d.Writable := by
  have hrule : ∀ e ∈ g.productions.entries, (Directive.production e.1 e.2).Writable := by
    intro e he
    obtain ⟨hne, hleft⟩ := hw.rules e he
    have hget : g.productions.get? e.1 = some e.2 := OrdMap.get?_eq_some.mpr he
    exact ⟨hleft, hne, fun r hr => isRun_alternative hg hw hget hr⟩
  have hweight : ∀ e ∈ g.weights.entries,
      (Directive.weight e.nonterminal e.alternative e.weight).Writable := by
    intro e he
    obtain ⟨rule, hget, halternative, _⟩ :=
      weightFault?_eq_none.mp (List.findSome?_eq_none_iff.mp hg.weighed e he)
    have hleft := (hw.rules _ (OrdMap.get?_eq_some.mp hget)).2
    exact ⟨hleft.run, (isRun_alternative hg hw hget halternative).1⟩
  intro d hd
  simp only [directives, List.mem_append, List.mem_cons, List.not_mem_nil, or_false,
    List.mem_map] at hd
  rcases hd with (rfl | rfl | rfl) | ⟨e, he, rfl⟩ | ⟨e, he, rfl⟩
  · exact fun n hn => (hw.names n hn).1
  · exact fun t ht => (hw.symbols t ht).1
  · exact (hw.names _ hg.start_mem).1
  · exact hrule e he
  · exact hweight e he

/-! ### The display -/

theorem linesBetween_append {opening closing : List Char} {before between after : List (List Char)}
    (hlines : ∀ s ∈ before ++ opening :: (between ++ closing :: after), ¬ '\n' ∈ s)
    (hbefore : ∀ s ∈ before, s ≠ opening) (hbetween : ∀ s ∈ between, s ≠ closing) :
    linesBetween opening closing
      ((before ++ opening :: (between ++ closing :: after)).flatMap line) = between := by
  have hdrop : ∀ s ∈ before, (s != opening) = true := fun s hs => bne_iff_ne.mpr (hbefore s hs)
  have htake : ∀ s ∈ between, (s != closing) = true := fun s hs => bne_iff_ne.mpr (hbetween s hs)
  unfold linesBetween
  rw [fields_lines hlines, List.append_assoc, List.dropWhile_append_of_pos hdrop]
  simp [List.takeWhile_append_of_pos htake]

/-- The rules of a grammar, as the lines of directives. -/
def ruleTexts (g : Grammar) : List (List Char) :=
  g.productions.entries.map fun e => (Directive.production e.1 e.2).toText

theorem render_eq (g : Grammar) : g.render =
    ([g.renderHead] ++ ['P', ' ', '=', ' ', '\x7b'] :: (g.ruleTexts ++ ['\x7d'] :: [])).flatMap line := by
  unfold render renderRules ruleTexts
  simp only [List.flatMap_append, List.flatMap_map, List.flatMap_cons, List.flatMap_nil,
    List.append_nil, List.append_assoc]
  rfl

theorem newline_not_mem_braced {items : List (List Char)} (h : ∀ s ∈ items, IsRun s) :
    ¬ '\n' ∈ braced items := by
  have hjoined : ¬ '\n' ∈ joined [',', ' '] items := newline_not_mem_joined (by decide) h
  simp [braced, hjoined]

theorem newline_not_mem_renderHead (hg : g.Consistent) (hw : g.Writable) : ¬ '\n' ∈ g.renderHead := by
  have hnames : ¬ '\n' ∈ braced (g.nonterminals.toList.map String.toList) := by
    apply newline_not_mem_braced
    exact List.forall_mem_map.mpr fun n hn => (hw.names n hn).1
  have hsymbols : ¬ '\n' ∈ braced (g.terminals.toList.map fun t => [t]) := by
    apply newline_not_mem_braced
    exact List.forall_mem_map.mpr fun t ht => isRun_singleton.mpr (hw.symbols t ht).1
  have hstart : ¬ '\n' ∈ g.start.toList := newline_not_mem_of_isRun (hw.names _ hg.start_mem).1
  simp [renderHead, hnames, hsymbols, hstart]

/-- Between the braces the display shows the rules, one a line. -/
theorem ruleLines_eq (hg : g.Consistent) (hw : g.Writable) : g.ruleLines = g.ruleTexts := by
  have hrules : ∀ s ∈ g.ruleTexts, ¬ '\n' ∈ s := by
    intro s hs
    obtain ⟨e, he, rfl⟩ := List.mem_map.mp hs
    apply newline_not_mem_toText
    apply writable_of_mem_directives hg hw
    simp only [directives, List.mem_append, List.mem_map]
    exact .inr (.inl ⟨e, he, rfl⟩)
  have hlines : ∀ s ∈ [g.renderHead] ++ ['P', ' ', '=', ' ', '\x7b'] :: (g.ruleTexts ++ ['\x7d'] :: []),
      ¬ '\n' ∈ s := by
    simp only [List.forall_mem_append, List.forall_mem_cons]
    exact ⟨⟨newline_not_mem_renderHead hg hw, List.forall_mem_nil _⟩, by decide, hrules, by decide,
      List.forall_mem_nil _⟩
  have hhead : ∀ s ∈ [g.renderHead], s ≠ ['P', ' ', '=', ' ', '\x7b'] := by
    -- The first line begins with another letter.
    intro s hs
    obtain rfl := List.mem_singleton.mp hs
    exact fun h => absurd (List.cons.inj h).1 (by decide)
  have hbrace : ∀ s ∈ g.ruleTexts, s ≠ ['\x7d'] := by
    -- The line of a rule begins with a space.
    intro s hs
    obtain ⟨e, _, rfl⟩ := List.mem_map.mp hs
    exact fun h => absurd (List.cons.inj h).1 (by decide)
  unfold ruleLines
  rw [render_eq]
  exact linesBetween_append hlines hhead hbrace

theorem toText_eq (hg : g.Consistent) (hw : g.Writable) :
    g.toText = g.directives.flatMap fun d => line d.toText := by
  unfold toText directives
  rw [ruleLines_eq hg hw, ruleTexts]
  simp only [List.flatMap_append, List.flatMap_map, List.flatMap_cons, List.flatMap_nil,
    List.append_nil, List.append_assoc]

/-! ### The lines make up the grammar -/

theorem filterMap_directives {α : Type} (pick : Directive → Option α) :
    g.directives.filterMap pick =
      [.nonterminals g.nonterminals.toList, .terminals g.terminals.toList, .start g.start].filterMap
          pick ++
        (g.productions.entries.filterMap (fun e => pick (.production e.1 e.2)) ++
          g.weights.entries.filterMap fun e => pick (.weight e.nonterminal e.alternative e.weight)) := by
  unfold directives
  rw [List.filterMap_append, List.filterMap_append, List.filterMap_map, List.filterMap_map]
  rfl

theorem makes_directives (hw : g.Writable) :
    Makes g.directives (Definition.ofGrammar (g.withLimits {})) where
  nonterminals := by
    have hnames : g.directives.filterMap Directive.names? = [g.nonterminals.toList] := by
      rw [filterMap_directives]
      simp [List.filterMap_cons, Directive.names?]
    rw [hnames]
    rfl
  terminals := by
    have hsymbols : g.directives.filterMap Directive.symbols? = [g.terminals.toList] := by
      rw [filterMap_directives]
      simp [List.filterMap_cons, Directive.symbols?]
    rw [hsymbols]
    rfl
  start := by
    have hstart : g.directives.filterMap Directive.start? = [g.start] := by
      rw [filterMap_directives]
      simp [List.filterMap_cons, Directive.start?]
    rw [hstart]
    rfl
  productions := by
    have hrules : g.directives.filterMap Directive.rule? = g.productions.entries := by
      rw [filterMap_directives]
      simp [Directive.rule?]
    rw [hrules, ← entries_mergeRules, mergeRules_entries]
    rfl
  weights := by
    have hentries : g.directives.filterMap Directive.entry? = g.weights.entries := by
      rw [filterMap_directives]
      simp [Directive.entry?]
    rw [hentries]
    exact (g.weights.ofEntries_entries hw.rows).symm
  limits := rfl

/-- The text of a grammar is read as its definition, with default limits. -/
theorem ofText_toText (hg : g.Consistent) (hw : g.Writable) :
    Definition.ofText g.toText = .ok (Definition.ofGrammar (g.withLimits {})) := by
  rw [toText_eq hg hw, ofText_lines (writable_of_mem_directives hg hw)]
  exact finish_foldl_add.mpr (makes_directives hw)

/-! ### Reading back -/

/-- **A grammar is read back from its text.** Reading the text of a grammar, whose rules are the lines
that its display has between the braces, gives a definition, the definition gives a grammar, and with the
limits of the first the two are equal, also in the order of all their components. -/
theorem toGrammar_ofText_toText (hg : g.Built) (hw : g.Writable) :
    ∃ d h, Definition.ofText g.toText = .ok d ∧ d.toGrammar = .ok h ∧
      (h.withLimits g.limits).same g = true ∧ h.withLimits g.limits = g := by
  have hc := hg.consistent
  refine ⟨_, _, ofText_toText hc hw, toGrammar_ofGrammar (hc.withLimits {}), ?_, rfl⟩
  exact same_refl g

/-- Its nonterminals look like other parts of a line: an arrow, an equals sign, keywords. -/
def tangled : Grammar where
  nonterminals := OrdSet.ofList ["->", "=", "start", "weight:"]
  terminals := OrdSet.ofList ['a', ':', '>']
  productions := mergeRules [("->", ["a=", ":"]), ("start", [">="]), ("weight:", ["a", ">", "a"])]
  start := "->"
  weights := Weights.ofEntries [⟨"weight:", ">", 7⟩, ⟨"->", "a=", 12⟩]
  limits := ⟨3, 4⟩
  alternatives := ⟨[("->", [⟨'a', some "="⟩, ⟨':', none⟩]), ("start", [⟨'>', some "="⟩]),
    ("weight:", [⟨'a', none⟩, ⟨'>', none⟩, ⟨'a', none⟩])], by decide⟩
  samplers := ⟨[("->", ⟨[12, 1]⟩), ("weight:", ⟨[1, 7, 1]⟩)], by decide⟩

theorem tangled_built : tangled.Built := by
  have hm : make ["->", "=", "start", "weight:"] ['a', ':', '>']
      [("->", ["a="]), ("start", [">="]), ("weight:", ["a", ">", "a"]), ("->", [":"])] "->" =
      .ok { tangled with weights := ∅, limits := {}, samplers := ∅ } := by decide
  have hw : ({ tangled with weights := ∅, samplers := ∅ } : Grammar).withWeights
      (Weights.ofEntries [⟨"weight:", ">", 7⟩, ⟨"->", "a=", 12⟩]) = .ok tangled := by decide
  exact .withWeights (.withLimits ⟨3, 4⟩ (.make hm)) hw

theorem tangled_reading : tangled.Built ∧ tangled.Writable ∧
    ∃ d h, Definition.ofText tangled.toText = .ok d ∧ d.toGrammar = .ok h ∧
      (h.withLimits tangled.limits).same tangled = true ∧ h.withLimits tangled.limits = tangled := by
  have hsymbols : ∀ t ∈ tangled.terminals.toList, isBlank t = false ∧ t ≠ '|' := by
    show ∀ t ∈ ['a', ':', '>'], isBlank t = false ∧ t ≠ '|'
    simp only [List.forall_mem_cons]
    exact ⟨by decide, by decide, by decide, List.forall_mem_nil _⟩
  have hw : tangled.Writable := ⟨by decide, hsymbols, by decide, by decide⟩
  exact ⟨tangled_built, hw, toGrammar_ofText_toText tangled_built hw⟩

end RightLinear.Grammar
