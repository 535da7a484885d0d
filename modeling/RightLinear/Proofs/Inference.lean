import RightLinear.Proofs.Admission
import RightLinear.Proofs.Directives
import RightLinear.Proofs.Interleaving

/-! # Inferred nonterminals

A text that declares no nonterminals has those that it mentions: the start symbol and the left-hand sides of
its rules (`nonterminals_of_makes`).  They are runs, being cut out of lines (`isRun_of_says`), so a line can
declare them by name (`lists_toText`).  Such a line, wherever it is inserted (`Inserted.exists_lines`), says
its names and nothing else (`makes_insert`), which comes to what was inferred.

The start symbol and the left-hand sides are thereby declared, so what may be wrong with the grammar is
something else (`toGrammar_ne_undeclared`). -/

namespace RightLinear.Lines

open Text

/-! ### Lines that are inserted -/

/-- The second text has one more line: in front, between two lines, behind the text, or behind its last line
feed. -/
inductive Inserted (line : List Char) : List Char → List Char → Prop
  | front (text : List Char) : Inserted line text (line ++ '\n' :: text)
  | between (x y : List Char) : Inserted line (x ++ '\n' :: y) (x ++ '\n' :: (line ++ '\n' :: y))
  | behind (text : List Char) : Inserted line text (text ++ '\n' :: line)
  | last (x : List Char) : Inserted line (x ++ ['\n']) (x ++ '\n' :: line)

theorem linesOf_append (x y : List Char) : linesOf (x ++ '\n' :: y) = linesOf x ++ linesOf y := by
  unfold linesOf
  rw [fields_append, List.map_append]

theorem linesOf_line {line : List Char} (h : ¬ '\n' ∈ line) : linesOf line = [trim line] := by
  unfold linesOf
  rw [fields_of_not_mem h, List.map_singleton]

/-- The lines of a text with one more line are those of the text, the new one among them; a blank line may
stand in its place before. -/
theorem Inserted.exists_lines {line text text' : List Char} (hline : ¬ '\n' ∈ line)
    (h : Inserted line text text') :
    ∃ before gap after, (∀ s ∈ gap, s = []) ∧ linesOf text = before ++ (gap ++ after) ∧
      linesOf text' = before ++ trim line :: after := by
  cases h with
  | front text =>
      refine ⟨[], [], linesOf text, List.forall_mem_nil _, rfl, ?_⟩
      rw [linesOf_append, linesOf_line hline]
      rfl
  | between x y =>
      refine ⟨linesOf x, [], linesOf y, List.forall_mem_nil _, linesOf_append x y, ?_⟩
      rw [linesOf_append, linesOf_append, linesOf_line hline]
      rfl
  | behind text =>
      refine ⟨linesOf text, [], [], List.forall_mem_nil _, (List.append_nil _).symm, ?_⟩
      rw [linesOf_append, linesOf_line hline]
  | last x =>
      -- The new line takes the place of the nothing behind the last line feed.
      refine ⟨linesOf x, [[]], [], List.forall_mem_singleton.mpr rfl, linesOf_append x [], ?_⟩
      rw [linesOf_append, linesOf_line hline]

/-! ### Declaring what is inferred -/

/-- The line declares the names, which stand between blanks. -/
def Lists (names : List String) (s : List Char) : Prop :=
  ∃ body, Declares "nonterminals".toList body s ∧ words body = names.map String.toList

theorem Lists.says {names : List String} {s : List Char} (h : Lists names s) :
    Says s (some (.nonterminals names)) := by
  obtain ⟨body, hbody, hwords⟩ := h
  have hnames : (words body).map String.ofList = names := by
    rw [hwords, List.map_map]
    simp
  exact hnames ▸ .nonterminals hbody

theorem lists_toText {names : List String} (h : ∀ n ∈ names, IsRun n.toList) :
    Lists names (trim (Directive.nonterminals names).toText) := by
  cases check_eq_ok.mp (readLine_nonterminals h) with
  | nonterminals hbody => exact ⟨_, hbody, by simp [List.map_map]⟩

theorem sayings_blank {α : Type} (pick : Directive → Option α) {gap : List (List Char)}
    (hgap : ∀ t ∈ gap, t = []) : sayings pick gap = [] := by
  have hnone : gap.filterMap directive? = [] := by
    refine List.filterMap_eq_nil_iff.mpr fun t ht => ?_
    rw [hgap t ht]
    rfl
  rw [sayings, hnone]
  rfl

section Insert

variable {before gap after : List (List Char)} {names : List String} {s : List Char}

theorem sayings_insert {α : Type} {kind : Kind} {build : α → Directive} {pick : Directive → Option α}
    (h : Carries kind build pick) (hkind : Kind.nonterminals ≠ kind) (hgap : ∀ t ∈ gap, t = [])
    (hs : Says s (some (.nonterminals names))) :
    sayings pick (before ++ s :: after) = sayings pick (before ++ (gap ++ after)) := by
  have hother : (directive? s).bind pick = none := by
    rw [directive?_eq_some.mpr hs, Option.bind_some]
    exact h.pick_other hkind
  rw [sayings_append, sayings_append, sayings_append, sayings_blank pick hgap, sayings_cons, hother]
  rfl

/-- A line that declares names makes no difference to what else is made up. -/
theorem makes_insert {d : Definition} (hgap : ∀ t ∈ gap, t = [])
    (hs : Says s (some (.nonterminals d.nonterminals)))
    (hnone : sayings Directive.names? (before ++ (gap ++ after)) = [])
    (h : Makes ((before ++ (gap ++ after)).filterMap directive?) d) :
    Makes ((before ++ s :: after).filterMap directive?) d := by
  have hnames : sayings Directive.names? (before ++ s :: after) = [d.nonterminals] := by
    simp only [sayings_append, List.append_eq_nil_iff] at hnone
    obtain ⟨hbefore, -, hafter⟩ := hnone
    rw [sayings_append, sayings_cons, hbefore, hafter, directive?_eq_some.mpr hs]
    rfl
  refine ⟨?_, ?_, ?_, ?_, ?_, h.limits⟩
  · rw [← sayings, hnames]
    rfl
  · rw [← sayings, sayings_insert carries_symbols (by decide) hgap hs]
    exact h.terminals
  · rw [← sayings, sayings_insert carries_start (by decide) hgap hs]
    exact h.start
  · rw [← sayings, sayings_insert carries_rules (by decide) hgap hs]
    exact h.productions
  · rw [← sayings, sayings_insert carries_entries (by decide) hgap hs]
    exact h.weights

end Insert

/-! ### What is inferred -/

theorem nonterminals_of_makes {lines : List (List Char)} {d : Definition}
    (hnone : sayings Directive.names? lines = []) (h : Makes (lines.filterMap directive?) d) :
    d.nonterminals = (d.start :: (sayings Directive.rule? lines).map Prod.fst).eraseDups := by
  rw [h.nonterminals, ← sayings, hnone]
  rfl

theorem isRun_of_says {s : List Char} {name : String} (h : Says s (some (.start name)) ∨
    ∃ alternatives, Says s (some (.production name alternatives))) : IsRun name.toList := by
  rcases h with h | ⟨alternatives, h⟩
  · cases h with
    | start hname => exact String.toList_ofList ▸ hname.1
  · cases h with
    | production _ hparts =>
        obtain ⟨⟨t, hleft, _⟩, _⟩ := hparts
        exact String.toList_ofList ▸ hleft

theorem isRun_of_mentioned {lines : List (List Char)} {d : Definition}
    (hnone : sayings Directive.names? lines = []) (h : Makes (lines.filterMap directive?) d) :
    ∀ name ∈ d.nonterminals, IsRun name.toList := by
  intro name hname
  rw [nonterminals_of_makes hnone h, List.mem_eraseDups, List.mem_cons] at hname
  rcases hname with rfl | hleft
  · have hstart : d.start ∈ sayings Directive.start? lines := List.mem_of_getLast? h.start
    obtain ⟨s, _, hs⟩ := (mem_sayings carries_start).mp hstart
    exact isRun_of_says (.inl hs)
  · obtain ⟨rule, hrule, rfl⟩ := List.mem_map.mp hleft
    obtain ⟨s, _, hs⟩ := (mem_sayings carries_rules).mp hrule
    exact isRun_of_says (.inr ⟨rule.2, hs⟩)

/-- A line that declares what was inferred does not change what a text is read as. -/
theorem ofText_inserted {text text' line : List Char} {d : Definition}
    (hnone : sayings Directive.names? (linesOf text) = []) (hd : Definition.ofText text = .ok d)
    (hline : ¬ '\n' ∈ line) (hlists : Lists d.nonterminals (trim line))
    (h : Inserted line text text') : Definition.ofText text' = .ok d := by
  obtain ⟨hlines, hmakes⟩ := ofText_eq_ok_iff_makes.mp hd
  obtain ⟨before, gap, after, hgap, htext, htext'⟩ := h.exists_lines hline
  rw [htext] at hnone hlines hmakes
  rw [ofText_eq_ok_iff_makes, htext']
  refine ⟨fun s hs => ?_, makes_insert hgap hlists.says hnone hmakes⟩
  rcases List.mem_append.mp hs with hs | hs
  · exact hlines s (List.mem_append_left _ hs)
  · rcases List.mem_cons.mp hs with rfl | hs
    · exact exists_says.mp ⟨_, hlists.says⟩
    · exact hlines s (List.mem_append_right _ (List.mem_append_right _ hs))

end RightLinear.Lines

namespace RightLinear.Grammar

/-! ### Declared names -/

theorem make_ne_undeclared {nonterminals : List String} {rules : List (String × List String)}
    {start : String} (hstart : start ∈ nonterminals)
    (hrules : ∀ rule ∈ rules, rule.1 ∈ nonterminals) (terminals : List Char) (name : String) :
    make nonterminals terminals rules start ≠ .error (.undeclaredStart name) ∧
      make nonterminals terminals rules start ≠ .error (.undeclaredLeft name) := by
  constructor
  · intro h
    cases make_eq_error.mp h with
    | undeclaredStart hnone => exact hnone hstart
    | rule _ _ _ _ hrule =>
        cases hrule with
        | text _ _ htext => cases htext
  · intro h
    cases make_eq_error.mp h with
    | rule _ _ heq _ hrule =>
        cases hrule with
        | text _ _ htext => cases htext
        | undeclaredLeft hnone =>
            -- Uniting the rules does not bring in a left-hand side.
            have hmerged : (name, _) ∈ merged rules := heq ▸ List.mem_append_right _ List.mem_cons_self
            obtain ⟨rule, hrule, rfl⟩ := List.mem_map.mp (mem_merged.mp hmerged).1
            exact hnone (hrules rule hrule)

theorem withWeights_ne_undeclared (g : Grammar) (w : Weights) (name : String) :
    g.withWeights w ≠ .error (.undeclaredStart name) ∧
      g.withWeights w ≠ .error (.undeclaredLeft name) := by
  rw [Ne, Ne, withWeights_eq_error, withWeights_eq_error]
  constructor
  · rintro (⟨_, _, _, _, _, hentry⟩ | ⟨_, _, _, _, _, _, _, _, hrow⟩)
    · cases hentry
    · cases hrow
  · rintro (⟨_, _, _, _, _, hentry⟩ | ⟨_, _, _, _, _, _, _, _, hrow⟩)
    · cases hentry
    · cases hrow

end RightLinear.Grammar

namespace RightLinear.Definition

open Lines Text

theorem toGrammar_ne_undeclared {d : Definition} (hstart : d.start ∈ d.nonterminals)
    (hrules : ∀ rule ∈ d.productions.entries, rule.1 ∈ d.nonterminals) (name : String) :
    d.toGrammar ≠ .error (.undeclaredStart name) ∧ d.toGrammar ≠ .error (.undeclaredLeft name) := by
  have hmake := Grammar.make_ne_undeclared hstart hrules d.terminals name
  unfold toGrammar
  cases hmade : Grammar.make d.nonterminals d.terminals d.productions.entries d.start with
  | error fault =>
      rw [hmade] at hmake
      exact hmake
  | ok g => exact (g.withLimits d.limits).withWeights_ne_undeclared d.weights name

/-- **Nonterminals that are not declared are inferred.**  A text without a line of nonterminals that is
read as a definition has the nonterminals that it mentions: the start symbol, then the left-hand sides of
its rules in the order in which they stand there first, each of them once.  If a line declares just these
names, it may be inserted anywhere and the text is read as the same definition.  When a grammar is made of
the definition, it does not fail because the start symbol or a left-hand side is not declared. -/
theorem ofText_inferred {text : List Char} {d : Definition}
    (hnone : ∀ s ∈ linesOf text, ¬ ∃ body, Declares "nonterminals".toList body s)
    (hd : ofText text = .ok d) :
    (∃ rules : List (String × List String),
      List.Forall₂ (fun s r => Says s (some (.production r.1 r.2)))
          (ofKind .production (linesOf text)) rules ∧
        d.nonterminals = (d.start :: rules.map Prod.fst).eraseDups ∧ d.nonterminals.Nodup) ∧
    (∀ text', Inserted (Directive.nonterminals d.nonterminals).toText text text' →
      ofText text' = .ok d) ∧
    (∀ line text', ¬ '\n' ∈ line → Lists d.nonterminals (trim line) → Inserted line text text' →
      ofText text' = .ok d) ∧
    ∀ name, d.toGrammar ≠ .error (.undeclaredStart name) ∧
      d.toGrammar ≠ .error (.undeclaredLeft name) := by
  obtain ⟨hlines, hmakes⟩ := ofText_eq_ok_iff_makes.mp hd
  have hnames : sayings Directive.names? (linesOf text) = [] := by
    refine List.eq_nil_iff_forall_not_mem.mpr fun names hmem => ?_
    obtain ⟨s, hs, hsays⟩ := (mem_sayings carries_names).mp hmem
    cases hsays with
    | nonterminals hbody => exact hnone s hs ⟨_, hbody⟩
  have hmentioned := nonterminals_of_makes hnames hmakes
  have hruns := isRun_of_mentioned hnames hmakes
  refine ⟨⟨_, forall₂_ofKind carries_rules hlines, hmentioned, ?_⟩, ?_, ?_, ?_⟩
  · rw [hmentioned]
    exact OrdSet.nodup_eraseDups _
  · intro text'
    exact ofText_inserted hnames hd (newline_not_mem_toText hruns) (lists_toText hruns)
  · intro line text'
    exact ofText_inserted hnames hd
  · refine toGrammar_ne_undeclared ?_ fun rule hrule => ?_
    · rw [hmentioned, List.mem_eraseDups]
      exact List.mem_cons_self
    · rw [hmakes.productions] at hrule
      rw [hmentioned, List.mem_eraseDups]
      exact List.mem_cons_of_mem _ (Grammar.mem_merged.mp hrule).1

/-- Declarations without nonterminals; the start symbol is given once more below. -/
def opening : List Char := "# nonterminals: X\r\nterminals: a b\r\nstart: B\r".toList

/-- Rules, and a start symbol between them. -/
def closing : List Char := "B -> bB\nC -> a\nstart: S\nB -> b\nS -> aB\n".toList

theorem opening_ofText :
    (∀ s ∈ linesOf (opening ++ '\n' :: closing), ¬ ∃ body, Declares "nonterminals".toList body s) ∧
    ∃ d, ofText (opening ++ '\n' :: closing) = .ok d ∧ d.nonterminals = ["S", "B", "C"] ∧
      ofText (opening ++ '\n' :: ("nonterminals: S B C".toList ++ '\n' :: closing)) = .ok d ∧
      ofText (" nonterminals :S  B\tC\r".toList ++ '\n' :: (opening ++ '\n' :: closing)) = .ok d ∧
      ∀ name, d.toGrammar ≠ .error (.undeclaredStart name) ∧
        d.toGrammar ≠ .error (.undeclaredLeft name) := by
  have hkind : ofKind .nonterminals (linesOf (opening ++ '\n' :: closing)) = [] := by decide
  have hnone : ∀ s ∈ linesOf (opening ++ '\n' :: closing),
      ¬ ∃ body, Declares "nonterminals".toList body s := by
    rintro s hs ⟨body, hbody⟩
    have hmem : s ∈ ofKind .nonterminals (linesOf (opening ++ '\n' :: closing)) :=
      List.mem_filter.mpr ⟨hs, decide_eq_true (.nonterminals hbody)⟩
    rw [hkind] at hmem
    cases hmem
  obtain ⟨d, hd⟩ : ∃ d, ofText (opening ++ '\n' :: closing) = .ok d := ⟨_, rfl⟩
  obtain ⟨_, hinserted, hlisted, hdeclared⟩ := ofText_inferred hnone hd
  have hnames : d.nonterminals = ["S", "B", "C"] := by
    cases hd
    decide
  have hline : (Directive.nonterminals d.nonterminals).toText = "nonterminals: S B C".toList := by
    rw [hnames]
    decide
  have hspaced : Lists d.nonterminals (trim " nonterminals :S  B\tC\r".toList) := by
    rw [hnames]
    exact ⟨"S  B\tC".toList, ⟨[' '], [], allBlank_space, allBlank_nil, by decide⟩, by decide⟩
  exact ⟨hnone, d, hd, hnames, hinserted _ (hline ▸ .between opening closing),
    hlisted _ _ (by decide) hspaced (.front _), hdeclared⟩

end RightLinear.Definition
