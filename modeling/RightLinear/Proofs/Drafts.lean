import RightLinear.Lines.Draft
import RightLinear.Proofs.Conversions
import RightLinear.Proofs.Declarations
import RightLinear.Proofs.LineKinds
import RightLinear.Proofs.WeightTables

/-! # What directives make up

A directive carries one value, of the sort of its kind (`Carries`), and enters it into one component of a
draft (`add_eq`).  So each component of a draft comes from the values of one sort, in their order
(`foldl_add`): the last declaration counts, rules and weights add up.  Names that no directive declares are
inferred from components that are complete by then (`inferred_eq`).

A draft is completed if a start symbol and terminals have been entered (`exists_makes`).  `Makes` says what
the definition is that comes out, and `finish_foldl_add` that nothing else does. -/

namespace RightLinear.Lines

open RightLinear.Grammar (mergeRules merged)

/-! ### What is carried -/

namespace Directive

/-- The kind of the lines that say the directive. -/
def kind : Directive → Kind
  | .nonterminals _ => .nonterminals
  | .terminals _ => .terminals
  | .start _ => .start
  | .weight .. => .weight
  | .production _ _ => .production

/-- The nonterminals that are declared. -/
def names? : Directive → Option (List String)
  | .nonterminals names => some names
  | _ => none

/-- The terminals that are declared. -/
def symbols? : Directive → Option (List Char)
  | .terminals symbols => some symbols
  | _ => none

/-- The start symbol that is given. -/
def start? : Directive → Option String
  | .start name => some name
  | _ => none

/-- The rule that is added. -/
def rule? : Directive → Option (String × List String)
  | .production left alternatives => some (left, alternatives)
  | _ => none

/-- The weight that is set. -/
def entry? : Directive → Option Weights.Entry
  | .weight left alternative n => some ⟨left, alternative, n⟩
  | _ => none

end Directive

/-- The directives of one kind are those that carry a value of one sort. -/
structure Carries {α : Type} (kind : Kind) (build : α → Directive) (pick : Directive → Option α) :
    Prop where
  pick_eq_some {x : Directive} {a : α} : pick x = some a ↔ x = build a
  kind_eq_iff {x : Directive} : x.kind = kind ↔ ∃ a, x = build a

theorem carries_names : Carries .nonterminals .nonterminals Directive.names? where
  pick_eq_some {x a} := by cases x <;> simp [Directive.names?]
  kind_eq_iff {x} := by cases x <;> simp [Directive.kind]

theorem carries_symbols : Carries .terminals .terminals Directive.symbols? where
  pick_eq_some {x a} := by cases x <;> simp [Directive.symbols?]
  kind_eq_iff {x} := by cases x <;> simp [Directive.kind]

theorem carries_start : Carries .start .start Directive.start? where
  pick_eq_some {x a} := by cases x <;> simp [Directive.start?]
  kind_eq_iff {x} := by cases x <;> simp [Directive.kind]

theorem carries_rules : Carries .production (fun r => .production r.1 r.2) Directive.rule? where
  pick_eq_some {x a} := by cases x <;> simp [Directive.rule?, Prod.ext_iff]
  kind_eq_iff {x} := by cases x <;> simp [Directive.kind]

theorem carries_entries : Carries .weight
    (fun e : Weights.Entry => .weight e.nonterminal e.alternative e.weight) Directive.entry? where
  pick_eq_some {x a} := by
    obtain ⟨left, alternative, n⟩ := a
    cases x <;> simp [Directive.entry?]
  kind_eq_iff {x} := by
    cases x with
    | weight left alternative n => exact ⟨fun _ => ⟨⟨left, alternative, n⟩, rfl⟩, fun _ => rfl⟩
    | _ => simp [Directive.kind]

theorem Carries.pick_other {α : Type} {kind : Kind} {build : α → Directive}
    {pick : Directive → Option α} (h : Carries kind build pick) {x : Directive}
    (hx : x.kind ≠ kind) : pick x = none :=
  Option.eq_none_iff_forall_ne_some.mpr fun a ha =>
    hx (h.kind_eq_iff.mpr ⟨a, h.pick_eq_some.mp ha⟩)

theorem Carries.getLast?_eq_none {α : Type} {kind : Kind} {build : α → Directive}
    {pick : Directive → Option α} (h : Carries kind build pick) {xs : List Directive} :
    (xs.filterMap pick).getLast? = none ↔ ∀ a, ¬ build a ∈ xs := by
  rw [List.getLast?_eq_none_iff, List.filterMap_eq_nil_iff]
  constructor
  · intro hnone a ha
    cases (hnone _ ha).symm.trans (h.pick_eq_some.mpr rfl)
  · intro hnone x hx
    refine Option.eq_none_iff_forall_ne_some.mpr fun a ha => hnone a ?_
    exact h.pick_eq_some.mp ha ▸ hx

/-- What directives make up, one after another. -/
structure Makes (xs : List Directive) (d : Definition) : Prop where
  /-- The last declaration counts.  Without any, the names are those that are mentioned: the start symbol and
  then the left-hand sides, each where it is mentioned first. -/
  nonterminals : d.nonterminals = (xs.filterMap Directive.names?).getLast?.getD
    (d.start :: (xs.filterMap Directive.rule?).map Prod.fst).eraseDups
  /-- The last declaration counts. -/
  terminals : (xs.filterMap Directive.symbols?).getLast? = some d.terminals
  /-- The last start symbol counts. -/
  start : (xs.filterMap Directive.start?).getLast? = some d.start
  /-- Rules of the same nonterminal are united, their alternatives in order. -/
  productions : d.productions.entries = merged (xs.filterMap Directive.rule?)
  /-- The weights are set one after another. -/
  weights : d.weights = Weights.ofEntries (xs.filterMap Directive.entry?)
  limits : d.limits = {}

/-! ### Drafts -/

theorem add_eq (d : Draft) (x : Directive) :
    d.add x =
      { nonterminals := x.names?.or d.nonterminals
        terminals := x.symbols?.or d.terminals
        start := x.start?.or d.start
        productions := x.rule?.toList.foldl (fun m r => m.alter r.1 [] (· ++ r.2)) d.productions
        weights := x.entry?.toList.foldl
          (fun w e => w.set e.nonterminal e.alternative e.weight) d.weights } := by
  cases x <;> rfl

/-- Directives enter what they carry one after another, each sort for itself. -/
theorem foldl_add (xs : List Directive) (d : Draft) :
    xs.foldl Draft.add d =
      { nonterminals := (xs.filterMap Directive.names?).getLast?.or d.nonterminals
        terminals := (xs.filterMap Directive.symbols?).getLast?.or d.terminals
        start := (xs.filterMap Directive.start?).getLast?.or d.start
        productions := (xs.filterMap Directive.rule?).foldl
          (fun m r => m.alter r.1 [] (· ++ r.2)) d.productions
        weights := (xs.filterMap Directive.entry?).foldl
          (fun w e => w.set e.nonterminal e.alternative e.weight) d.weights } := by
  induction xs generalizing d with
  | nil => rfl
  | cons x xs ih =>
      rw [List.foldl_cons, ih, add_eq]
      simp only [getLast?_filterMap_cons, Option.or_assoc, foldl_filterMap_cons]

theorem foldl_add_empty (xs : List Directive) :
    xs.foldl Draft.add {} =
      { nonterminals := (xs.filterMap Directive.names?).getLast?
        terminals := (xs.filterMap Directive.symbols?).getLast?
        start := (xs.filterMap Directive.start?).getLast?
        productions := mergeRules (xs.filterMap Directive.rule?)
        weights := Weights.ofEntries (xs.filterMap Directive.entry?) } := by
  rw [foldl_add]
  simp only [Option.or_none]
  rfl

/-! ### Completion -/

theorem finish_eq_ok {draft : Draft} {d : Definition} :
    draft.finish = .ok d ↔ draft.start = some d.start ∧ draft.terminals = some d.terminals ∧
      d.nonterminals = draft.nonterminals.getD (Draft.inferred d.start d.productions) ∧
      d.productions = draft.productions ∧ d.weights = draft.weights ∧ d.limits = {} := by
  obtain ⟨nonterminals, terminals, start, productions, weights, limits⟩ := d
  unfold Draft.finish
  rcases draft.start with _ | start'
  · simp
  · rcases draft.terminals with _ | terminals'
    · simp
    · simp only [Except.ok.injEq, Definition.mk.injEq, Option.some.injEq]
      constructor
      · rintro ⟨rfl, rfl, rfl, rfl, rfl, rfl⟩
        exact ⟨rfl, rfl, rfl, rfl, rfl, rfl⟩
      · rintro ⟨rfl, rfl, rfl, rfl, rfl, rfl⟩
        exact ⟨rfl, rfl, rfl, rfl, rfl, rfl⟩

/-- The names that are mentioned, in the order in which they are mentioned first. -/
theorem inferred_eq (start : String) (rules : List (String × List String)) :
    Draft.inferred start (mergeRules rules) = (start :: rules.map Prod.fst).eraseDups := by
  rw [Draft.inferred, OrdSet.toList_ofList, Grammar.keys_mergeRules, OrdSet.eraseDups_cons_eraseDups]

/-- **What directives come to.**  A draft into which directives have been entered is completed to what they
make up, and if they make up nothing, it is not. -/
theorem finish_foldl_add {xs : List Directive} {d : Definition} :
    (xs.foldl Draft.add {}).finish = .ok d ↔ Makes xs d := by
  rw [foldl_add_empty, finish_eq_ok]
  constructor
  · rintro ⟨hstart, hterminals, hnonterminals, hproductions, hweights, hlimits⟩
    rw [hproductions, inferred_eq] at hnonterminals
    refine ⟨hnonterminals, hterminals, hstart, ?_, hweights, hlimits⟩
    rw [hproductions, Grammar.entries_mergeRules]
  · intro h
    have hproductions : d.productions = mergeRules (xs.filterMap Directive.rule?) :=
      OrdMap.ext (h.productions.trans (Grammar.entries_mergeRules _).symm)
    refine ⟨h.start, h.terminals, ?_, hproductions, h.weights, h.limits⟩
    rw [hproductions, inferred_eq]
    exact h.nonterminals

theorem finish_of_missing_start {xs : List Directive} (hstart : ∀ name, ¬ .start name ∈ xs) :
    (xs.foldl Draft.add {}).finish = .error .missingStart := by
  rw [foldl_add_empty, Draft.finish, carries_start.getLast?_eq_none.mpr hstart]

theorem finish_of_missing_terminals {xs : List Directive} (hstart : ∃ name, .start name ∈ xs)
    (hterminals : ∀ symbols, ¬ .terminals symbols ∈ xs) :
    (xs.foldl Draft.add {}).finish = .error .missingTerminals := by
  obtain ⟨start, hsome⟩ := Option.ne_none_iff_exists'.mp
    (mt carries_start.getLast?_eq_none.mp fun hnone => hstart.elim hnone)
  rw [foldl_add_empty, Draft.finish, hsome, carries_symbols.getLast?_eq_none.mpr hterminals]

theorem exists_makes {xs : List Directive} (hstart : ∃ name, .start name ∈ xs)
    (hterminals : ∃ symbols, .terminals symbols ∈ xs) : ∃ d, Makes xs d := by
  obtain ⟨start, hsome⟩ := Option.ne_none_iff_exists'.mp
    (mt carries_start.getLast?_eq_none.mp fun hnone => hstart.elim hnone)
  obtain ⟨symbols, hsymbols⟩ := Option.ne_none_iff_exists'.mp
    (mt carries_symbols.getLast?_eq_none.mp fun hnone => hterminals.elim hnone)
  simp only [← finish_foldl_add]
  rw [foldl_add_empty, Draft.finish, hsome, hsymbols]
  exact ⟨_, rfl⟩

theorem Makes.keys_productions {xs : List Directive} {d : Definition} (h : Makes xs d) :
    d.productions.keys = ((xs.filterMap Directive.rule?).map Prod.fst).eraseDups := by
  rw [OrdMap.keys, h.productions, merged, List.map_map]
  exact List.map_id _

theorem makes_congr {xs ys : List Directive} {d : Definition}
    (hnames : xs.filterMap Directive.names? = ys.filterMap Directive.names?)
    (hsymbols : xs.filterMap Directive.symbols? = ys.filterMap Directive.symbols?)
    (hstart : xs.filterMap Directive.start? = ys.filterMap Directive.start?)
    (hrules : xs.filterMap Directive.rule? = ys.filterMap Directive.rule?)
    (hentries : xs.filterMap Directive.entry? = ys.filterMap Directive.entry?) :
    Makes xs d ↔ Makes ys d := by
  rw [← finish_foldl_add, ← finish_foldl_add, foldl_add_empty, foldl_add_empty, hnames, hsymbols,
    hstart, hrules, hentries]

end RightLinear.Lines
