import RightLinear.Proofs.LineFaults

/-! # Interleaved lines

A line says a directive of its kind (`Says.hasKind`), so what is carried to a component of a definition
comes from the lines of one kind, in their order (`sayings_ofKind`, `forall₂_ofKind`).  Nonterminals that
no line declares are inferred afterwards, from two components that are complete by then.  So the lines of
each kind make up the definition (`MadeOf`), however the kinds are interleaved. -/

namespace RightLinear.Lines

open Text
open RightLinear.Grammar (merged)

variable {s : List Char}

/-! ### What lines say -/

/-- What a line says, if it is not silent and nothing is wrong with it. -/
def directive? (s : List Char) : Option Directive := (Form.ofLine s).check.toOption.join

/-- What the lines carry to one component, in order. -/
def sayings {α : Type} (pick : Directive → Option α) (lines : List (List Char)) : List α :=
  (lines.filterMap directive?).filterMap pick

theorem directive?_eq_some {x : Directive} : directive? s = some x ↔ Says s (some x) := by
  rw [← check_eq_ok]
  unfold directive?
  rcases (Form.ofLine s).check with fault | (_ | y)
  · simp [Except.toOption]
  · simp [Except.toOption]
  · simp [Except.toOption]

theorem Says.hasKind {x : Directive} (h : Says s (some x)) : HasKind s x.kind := by
  cases h with
  | nonterminals hbody => exact .nonterminals hbody
  | terminals hbody _ => exact .terminals hbody
  | start hname => exact .start hname
  | weight hparts _ => exact .weight hparts.1
  | production hkind _ => exact hkind

theorem HasKind.unique {kind kind' : Kind} (h : HasKind s kind) (h' : HasKind s kind') :
    kind = kind' :=
  Option.some.inj ((kindOf?_eq_some.mpr h).symm.trans (kindOf?_eq_some.mpr h'))

theorem exists_says_of_hasKind {kind : Kind} (hkind : HasKind s kind) (hs : ¬ Bad s) :
    ∃ x : Directive, Says s (some x) ∧ x.kind = kind := by
  obtain ⟨said, hsaid⟩ := exists_says.mpr hs
  cases said with
  | none =>
      cases hsaid with
      | silent hsilent =>
          cases (kindOf?_eq_some.mpr hkind).symm.trans (kindOf?_eq_none.mpr (.inl hsilent))
  | some x => exact ⟨x, hsaid, hsaid.hasKind.unique hkind⟩

theorem sayings_append {α : Type} (pick : Directive → Option α) (lines lines' : List (List Char)) :
    sayings pick (lines ++ lines') = sayings pick lines ++ sayings pick lines' := by
  unfold sayings
  rw [List.filterMap_append, List.filterMap_append]

theorem sayings_cons {α : Type} (pick : Directive → Option α) (s : List Char)
    (lines : List (List Char)) :
    sayings pick (s :: lines) = ((directive? s).bind pick).toList ++ sayings pick lines := by
  unfold sayings
  cases hx : directive? s with
  | none => rw [List.filterMap_cons_none hx]; rfl
  | some x =>
      rw [List.filterMap_cons_some hx, Option.bind_some]
      cases ha : pick x with
      | none => exact List.filterMap_cons_none ha
      | some a => exact List.filterMap_cons_some ha

section Carries

variable {α : Type} {kind : Kind} {build : α → Directive} {pick : Directive → Option α}

theorem mem_sayings (h : Carries kind build pick) {lines : List (List Char)} {a : α} :
    a ∈ sayings pick lines ↔ ∃ s ∈ lines, Says s (some (build a)) := by
  simp only [sayings, List.mem_filterMap, h.pick_eq_some, directive?_eq_some]
  grind

/-- What is carried to a component comes from the lines of its kind. -/
theorem sayings_ofKind (h : Carries kind build pick) (lines : List (List Char)) :
    sayings pick (ofKind kind lines) = sayings pick lines := by
  unfold sayings ofKind
  rw [List.filterMap_filterMap, List.filterMap_filterMap, List.filterMap_filter]
  refine List.filterMap_congr fun s _ => ?_
  split
  · rfl
  · next hkind =>
    cases hs : directive? s with
    | none => rfl
    | some x =>
        have hother : x.kind ≠ kind := fun e =>
          hkind (decide_eq_true (e ▸ (directive?_eq_some.mp hs).hasKind))
        exact (h.pick_other hother).symm

theorem forall₂_ofKind (h : Carries kind build pick) {lines : List (List Char)}
    (hlines : ∀ s ∈ lines, ¬ Bad s) :
    List.Forall₂ (fun s a => Says s (some (build a))) (ofKind kind lines) (sayings pick lines) := by
  have hkind : ∀ s ∈ ofKind kind lines, ∃ a, Says s (some (build a)) := by
    intro s hs
    obtain ⟨hmem, hof⟩ := List.mem_filter.mp hs
    obtain ⟨x, hx, hxkind⟩ := exists_says_of_hasKind (of_decide_eq_true hof) (hlines s hmem)
    obtain ⟨a, rfl⟩ := h.kind_eq_iff.mp hxkind
    exact ⟨a, hx⟩
  rw [← sayings_ofKind h]
  generalize ofKind kind lines = listed at hkind ⊢
  induction listed with
  | nil => exact .nil
  | cons s rest ih =>
      obtain ⟨⟨a, hs⟩, hrest⟩ := List.forall_mem_cons.mp hkind
      rw [sayings_cons, directive?_eq_some.mpr hs, Option.bind_some, h.pick_eq_some.mpr rfl]
      exact .cons hs (ih hrest)

end Carries

/-! ### Texts -/

theorem reduceOption_of_said {lines : List (List Char)} {said : List (Option Directive)}
    (h : List.Forall₂ Says lines said) : said.reduceOption = lines.filterMap directive? := by
  induction h with
  | nil => rfl
  | @cons s x lines said hs _ ih =>
      have hx : directive? s = x := by
        rw [directive?, check_eq_ok.mpr hs]
        cases x <;> rfl
      cases x with
      | none => rw [List.filterMap_cons_none hx, List.reduceOption_cons_of_none, ih]
      | some x => rw [List.filterMap_cons_some hx, List.reduceOption_cons_of_some, ih]

theorem ofText_eq_ok_iff_makes {text : List Char} {d : Definition} :
    Definition.ofText text = .ok d ↔
      (∀ s ∈ linesOf text, ¬ Bad s) ∧ Makes ((linesOf text).filterMap directive?) d := by
  rw [Definition.ofText_eq_ok]
  constructor
  · rintro ⟨said, hsaid, hmakes⟩
    refine ⟨fun s hs => ?_, reduceOption_of_said hsaid ▸ hmakes⟩
    obtain ⟨x, _, hx⟩ := exists_mem_of_forall₂ hsaid hs
    exact exists_says.mp ⟨x, hx⟩
  · rintro ⟨hlines, hmakes⟩
    obtain ⟨said, hsaid⟩ := exists_said hlines
    exact ⟨said, hsaid, (reduceOption_of_said hsaid).symm ▸ hmakes⟩

/-- Lines with the same lines of each kind, in the same order, make up the same. -/
theorem makes_congr_kinds {lines lines' : List (List Char)} {d : Definition}
    (h : ∀ kind, ofKind kind lines' = ofKind kind lines) :
    Makes (lines'.filterMap directive?) d ↔ Makes (lines.filterMap directive?) d := by
  have hsayings : ∀ {α : Type} {kind : Kind} {build : α → Directive} {pick : Directive → Option α},
      Carries kind build pick → sayings pick lines' = sayings pick lines := by
    intro α kind build pick hcarries
    rw [← sayings_ofKind hcarries lines', h kind, sayings_ofKind hcarries lines]
  exact makes_congr (hsayings carries_names) (hsayings carries_symbols) (hsayings carries_start)
    (hsayings carries_rules) (hsayings carries_entries)

/-- If every line matches a pattern or is silent, whether some line is bad is a matter of each kind. -/
theorem forall_not_bad_iff {lines : List (List Char)}
    (h : ∀ s ∈ lines, Silent s ∨ Recognized s) :
    (∀ s ∈ lines, ¬ Bad s) ↔ ∀ kind, ∀ s ∈ ofKind kind lines, ¬ Bad s := by
  constructor
  · exact fun hlines kind s hs => hlines s (List.mem_of_mem_filter hs)
  · intro hkinds s hs hbad
    cases hkind : kindOf? s with
    | some kind => exact hkinds kind s (List.mem_filter.mpr ⟨hs, decide_eq_true (kindOf?_eq_some.mp hkind)⟩) hbad
    | none =>
        have hsilent : Silent s :=
          (kindOf?_eq_none.mp hkind).elim id fun hnone => (h s hs).resolve_right hnone
        exact exists_says.mp ⟨none, .silent hsilent⟩ hbad

/-- The lines of each kind make up the definition. -/
structure MadeOf (lines : List (List Char)) (d : Definition) : Prop where
  /-- The last declaration counts.  Without any, the nonterminals are the start symbol and then the
  left-hand sides. -/
  nonterminals : (∃ s, (ofKind .nonterminals lines).getLast? = some s ∧
      Says s (some (.nonterminals d.nonterminals))) ∨
    (ofKind .nonterminals lines = [] ∧
      d.nonterminals = (d.start :: d.productions.keys).eraseDups)
  /-- The last declaration counts. -/
  terminals : ∃ s, (ofKind .terminals lines).getLast? = some s ∧
    Says s (some (.terminals d.terminals))
  /-- The last start symbol counts. -/
  start : ∃ s, (ofKind .start lines).getLast? = some s ∧ Says s (some (.start d.start))
  /-- Rules of the same nonterminal are united, their alternatives in order. -/
  productions : ∃ rules : List (String × List String),
    List.Forall₂ (fun s r => Says s (some (.production r.1 r.2))) (ofKind .production lines) rules ∧
      d.productions.entries = merged rules
  /-- The weights are set one after another, and the last one for a pair counts. -/
  weights : ∃ entries : List Weights.Entry,
    List.Forall₂ (fun s e => Says s (some (.weight e.nonterminal e.alternative e.weight)))
        (ofKind .weight lines) entries ∧
      d.weights = Weights.ofEntries entries ∧
      ∀ e, e ∈ d.weights.entries ↔
        (Weights.setFor entries e.nonterminal e.alternative).getLast? = some e
  limits : d.limits = {}

theorem madeOf_of_makes {lines : List (List Char)} {d : Definition}
    (hlines : ∀ s ∈ lines, ¬ Bad s) (h : Makes (lines.filterMap directive?) d) : MadeOf lines d := by
  refine ⟨?_, exists_getLast?_of_forall₂ (forall₂_ofKind carries_symbols hlines) h.terminals,
    exists_getLast?_of_forall₂ (forall₂_ofKind carries_start hlines) h.start,
    ⟨_, forall₂_ofKind carries_rules hlines, h.productions⟩,
    ⟨_, forall₂_ofKind carries_entries hlines, h.weights, fun e => ?_⟩, h.limits⟩
  · have hnonterminals := h.nonterminals
    cases hlast : (sayings Directive.names? lines).getLast? with
    | some names =>
        rw [sayings] at hlast
        rw [hlast, Option.getD_some] at hnonterminals
        have hdeclared := forall₂_ofKind carries_names hlines
        exact .inl (hnonterminals ▸ exists_getLast?_of_forall₂ hdeclared hlast)
    | none =>
        have hdeclared := forall₂_ofKind carries_names hlines
        rw [List.getLast?_eq_none_iff.mp hlast, List.forall₂_nil_right_iff] at hdeclared
        rw [sayings] at hlast
        rw [hlast, Option.getD_none] at hnonterminals
        refine .inr ⟨hdeclared, hnonterminals.trans ?_⟩
        rw [h.keys_productions, OrdSet.eraseDups_cons_eraseDups]
  · rw [h.weights]
    exact Weights.mem_entries_ofEntries

end RightLinear.Lines

namespace RightLinear.Definition

open Lines

/-- **Only the order of lines of the same kind matters.**  Let two texts of lines that match a pattern
or are silent have the same lines of each kind, trimmed and in the same order; the kind of a line is that of
its pattern.  Then they are both accepted or both not, and what they are read as is the same definition,
in all its orders.  So lines of different kinds may be interleaved in any way, and blank lines, comments,
blanks around lines and the way in which lines end do not matter.  The definition is made up of the lines of
each kind: the last declaration of nonterminals, of terminals and of a start symbol counts, rules of the
same nonterminal are united with their alternatives in order, and the last weight of each alternative
counts. -/
theorem ofText_congr_kinds {text text' : List Char}
    (h : ∀ s ∈ linesOf text, Silent s ∨ Recognized s)
    (h' : ∀ s ∈ linesOf text', Silent s ∨ Recognized s)
    (hkinds : ∀ kind, ofKind kind (linesOf text') = ofKind kind (linesOf text)) :
    (∀ d, ofText text' = .ok d ↔ ofText text = .ok d) ∧
      ∀ d, ofText text = .ok d → MadeOf (linesOf text) d := by
  constructor
  · intro d
    rw [ofText_eq_ok_iff_makes, ofText_eq_ok_iff_makes, forall_not_bad_iff h', forall_not_bad_iff h,
      makes_congr_kinds hkinds]
    simp only [hkinds]
  · intro d hd
    obtain ⟨hlines, hmakes⟩ := ofText_eq_ok_iff_makes.mp hd
    exact madeOf_of_makes hlines hmakes

/-- Weights in front of the rules, the start symbol given twice and in the end, comments, blank lines and
carriage returns. -/
def jumbled : List Char :=
  ("weight S -> a = 3\r\n# rules\r\n\r\n  S -> a\r\nstart: B\r\nweight S -> a = 7\nB -> b\nS -> bB\n" ++
    "terminals: a b\nstart: S").toList

/-- The same lines, kind by kind. -/
def grouped : List Char :=
  ("terminals: a b\nstart: B\nstart: S\nS -> a\nB -> b\nS -> bB\n" ++
    "weight S -> a = 3\nweight S -> a = 7\n").toList

theorem grouped_ofText :
    (∀ s ∈ linesOf jumbled, Silent s ∨ Recognized s) ∧ (∀ s ∈ linesOf grouped, Silent s ∨ Recognized s) ∧
    (∀ kind, ofKind kind (linesOf grouped) = ofKind kind (linesOf jumbled)) ∧
    ∃ d, ofText jumbled = .ok d ∧ ofText grouped = .ok d ∧ MadeOf (linesOf jumbled) d ∧
      d.nonterminals = ["S", "B"] ∧ d.terminals = ['a', 'b'] ∧ d.start = "S" ∧
      d.productions.entries = [("S", ["a", "bB"]), ("B", ["b"])] ∧
      d.weights.entries = [⟨"S", "a", 7⟩] := by
  have hrecognized : ∀ text : List Char, (∀ s ∈ linesOf text, Form.ofLine s ≠ .unknown s) →
      ∀ s ∈ linesOf text, Silent s ∨ Recognized s := by
    intro text hlines s hs
    by_contra hnone
    exact hlines s hs (ofLine_of_not_recognized (fun h => hnone (.inl h)) fun h => hnone (.inr h))
  have hjumbled := hrecognized jumbled (by decide)
  have hgrouped := hrecognized grouped (by decide)
  have hkinds : ∀ kind, ofKind kind (linesOf grouped) = ofKind kind (linesOf jumbled) := by
    intro kind
    cases kind <;> decide
  obtain ⟨hsame, hmade⟩ := ofText_congr_kinds hjumbled hgrouped hkinds
  obtain ⟨d, hd⟩ : ∃ d, ofText jumbled = .ok d := ⟨_, rfl⟩
  refine ⟨hjumbled, hgrouped, hkinds, d, hd, (hsame d).mpr hd, hmade d hd, ?_⟩
  cases hd
  decide

end RightLinear.Definition
