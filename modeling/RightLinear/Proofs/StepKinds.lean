import RightLinear.Definition.Steps
import RightLinear.Proofs.Construction

/-! # Steps by kind

Steps declare nonterminals, declare terminals, add alternatives, set weights or replace the limits.  A
definition that is built step by step keeps these apart: each component comes from the steps of its own
kind, in their order (`ofSteps_eq`).  A rule with several alternatives counts as that many rules of one
alternative, so a rule without any leaves no trace.

The builder unites alternatives as it goes, and making a grammar unites them once more; the second time
changes nothing (`make_mergeRules`).  So building comes to the same as making a grammar of everything
that was declared and giving it the last limits and the weights, with the same fault where there is
one. -/

namespace RightLinear.Definition

open RightLinear.Grammar (mergeRules)

namespace Step

/-- What a step is about. -/
inductive Kind
  | nonterminals
  | terminals
  | rules
  | weights
  | limits
deriving Repr, DecidableEq

/-- The kind of a step. -/
def kind : Step → Kind
  | .nonterminal _ => .nonterminals
  | .terminals _ => .terminals
  | .terminal _ => .terminals
  | .production _ _ => .rules
  | .productions _ _ => .rules
  | .weight _ _ _ => .weights
  | .limits _ => .limits

/-- The nonterminal that a step declares. -/
def names : Step → List String
  | .nonterminal name => [name]
  | _ => []

/-- The terminals that a step declares; in a text of several, blanks are left out. -/
def symbols : Step → List Char
  | .terminals text => text.toList.filter fun c => !Text.isBlank c
  | .terminal symbol => [symbol]
  | _ => []

/-- The rules that a step adds, each with a single alternative. -/
def rules : Step → List (String × List String)
  | .production left alternative => [(left, [alternative])]
  | .productions left alternatives => alternatives.map fun alternative => (left, [alternative])
  | _ => []

/-- The weight that a step sets. -/
def entries : Step → List Weights.Entry
  | .weight left alternative n => [⟨left, alternative, n⟩]
  | _ => []

/-- The limits that a step gives. -/
def limits? : Step → Option Limits
  | .limits l => some l
  | _ => none

end Step

/-! ### One step, and all of them -/

theorem foldl_addAlternative (left : String) (alternatives : List String) (d : Definition) :
    alternatives.foldl (fun d r => d.addAlternative left r) d =
      { d with
        productions := (alternatives.map fun r => (left, [r])).foldl
          (fun m r => m.alter r.1 [] (· ++ r.2)) d.productions } := by
  induction alternatives generalizing d with
  | nil => rfl
  | cons r alternatives ih =>
      rw [List.foldl_cons, ih]
      rfl

theorem apply_eq (d : Definition) (step : Step) :
    d.apply step =
      { nonterminals := d.nonterminals ++ step.names
        terminals := d.terminals ++ step.symbols
        productions := step.rules.foldl (fun m r => m.alter r.1 [] (· ++ r.2)) d.productions
        start := d.start
        weights := step.entries.foldl
          (fun w e => w.set e.nonterminal e.alternative e.weight) d.weights
        limits := step.limits?.getD d.limits } := by
  cases step with
  | nonterminal name => simp [apply, Step.names, Step.symbols, Step.rules, Step.entries, Step.limits?]
  | terminals text => simp [apply, Step.names, Step.symbols, Step.rules, Step.entries, Step.limits?]
  | terminal symbol => simp [apply, Step.names, Step.symbols, Step.rules, Step.entries, Step.limits?]
  | production left alternative =>
      simp [apply, addAlternative, Step.names, Step.symbols, Step.rules, Step.entries, Step.limits?]
  | productions left alternatives =>
      simp [apply, foldl_addAlternative, Step.names, Step.symbols, Step.rules, Step.entries,
        Step.limits?]
  | weight left alternative n =>
      simp [apply, Step.names, Step.symbols, Step.rules, Step.entries, Step.limits?]
  | limits l => simp [apply, Step.names, Step.symbols, Step.rules, Step.entries, Step.limits?]

/-- Steps enter what they say one after another, each kind for itself. -/
theorem foldl_apply (steps : List Step) (d : Definition) :
    steps.foldl apply d =
      { nonterminals := d.nonterminals ++ steps.flatMap Step.names
        terminals := d.terminals ++ steps.flatMap Step.symbols
        productions := (steps.flatMap Step.rules).foldl (fun m r => m.alter r.1 [] (· ++ r.2))
          d.productions
        start := d.start
        weights := (steps.flatMap Step.entries).foldl
          (fun w e => w.set e.nonterminal e.alternative e.weight) d.weights
        limits := (steps.filterMap Step.limits?).getLast?.getD d.limits } := by
  induction steps generalizing d with
  | nil => simp
  | cons step steps ih =>
      rw [List.foldl_cons, ih, apply_eq, getLast?_filterMap_cons, Option.getD_or]
      simp only [List.flatMap_cons, List.foldl_append, List.append_assoc]

theorem ofSteps_eq (start : String) (steps : List Step) :
    ofSteps start steps =
      { nonterminals := steps.flatMap Step.names
        terminals := steps.flatMap Step.symbols
        productions := mergeRules (steps.flatMap Step.rules)
        start := start
        weights := Weights.ofEntries (steps.flatMap Step.entries)
        limits := (steps.filterMap Step.limits?).getLast?.getD {} } :=
  foldl_apply steps (empty start)

/-! ### Only the order within a kind matters -/

theorem Step.eq_nil_of_kind (step : Step) :
    (step.kind ≠ .nonterminals → step.names = []) ∧ (step.kind ≠ .terminals → step.symbols = []) ∧
      (step.kind ≠ .rules → step.rules = []) ∧ (step.kind ≠ .weights → step.entries = []) ∧
      (step.kind ≠ .limits → step.limits?.toList = []) := by
  cases step <;> simp [kind, names, symbols, rules, entries, limits?]

theorem flatMap_filter_kind {α : Type} {f : Step → List α} {kind : Step.Kind}
    (h : ∀ step : Step, step.kind ≠ kind → f step = []) (steps : List Step) :
    (steps.filter fun step => step.kind = kind).flatMap f = steps.flatMap f := by
  induction steps with
  | nil => rfl
  | cons step steps ih =>
      by_cases hkind : step.kind = kind
      · simp [hkind, ih]
      · simp [hkind, ih, h step hkind]

theorem ofSteps_congr {steps steps' : List Step}
    (h : ∀ kind, (steps'.filter fun step => step.kind = kind) =
      steps.filter fun step => step.kind = kind) (start : String) :
    ofSteps start steps' = ofSteps start steps := by
  have hflat : ∀ {α : Type} {f : Step → List α} {kind : Step.Kind},
      (∀ step : Step, step.kind ≠ kind → f step = []) → steps'.flatMap f = steps.flatMap f := by
    intro α f kind hf
    rw [← flatMap_filter_kind hf steps', h kind, flatMap_filter_kind hf steps]
  have hnames := hflat fun step => step.eq_nil_of_kind.1
  have hsymbols := hflat fun step => step.eq_nil_of_kind.2.1
  have hrules := hflat fun step => step.eq_nil_of_kind.2.2.1
  have hentries := hflat fun step => step.eq_nil_of_kind.2.2.2.1
  have hlimits := hflat fun step => step.eq_nil_of_kind.2.2.2.2
  rw [← List.filterMap_eq_flatMap_toList, ← List.filterMap_eq_flatMap_toList] at hlimits
  rw [ofSteps_eq, ofSteps_eq, hnames, hsymbols, hrules, hentries, hlimits]

/-! ### Building -/

/-- Rules that are united before a grammar is made of them are the same rules. -/
theorem make_mergeRules (nonterminals : List String) (terminals : List Char)
    (rules : List (String × List String)) (start : String) :
    Grammar.make nonterminals terminals (mergeRules rules).entries start =
      Grammar.make nonterminals terminals rules start := by
  unfold Grammar.make
  rw [Grammar.mergeRules_entries]

/-- **Building step by step is making a grammar of all that was said.**  Whatever the steps and their
order, the grammar that they build, or the fault that is found, is what comes of declaring the
nonterminals and the terminals in their order, with the alternatives one by one as rules, and then giving
the grammar the last limits, or the usual ones, and the weights set one after another.  So steps that
are the same kind by kind build the same, however the kinds are interleaved. -/
theorem ofSteps_toGrammar (start : String) (steps : List Step) :
    (ofSteps start steps).toGrammar =
      (Grammar.make (steps.flatMap Step.names) (steps.flatMap Step.symbols)
        (steps.flatMap Step.rules) start >>= fun g =>
          (g.withLimits ((steps.filterMap Step.limits?).getLast?.getD {})).withWeights
            (Weights.ofEntries (steps.flatMap Step.entries))) ∧
    ∀ steps', (∀ kind, (steps'.filter fun step => step.kind = kind) =
        steps.filter fun step => step.kind = kind) →
      (ofSteps start steps').toGrammar = (ofSteps start steps).toGrammar := by
  refine ⟨?_, fun steps' h => by rw [ofSteps_congr h]⟩
  rw [ofSteps_eq, toGrammar, make_mergeRules]
  cases Grammar.make (steps.flatMap Step.names) (steps.flatMap Step.symbols)
      (steps.flatMap Step.rules) start with
  | error fault => rfl
  | ok g => rfl

/-- Steps of all kinds: blanks among terminals, a rule without alternatives, a weight and limits that are
given twice. -/
def scattered : List Step :=
  [.weight "S" "aS" 0, .limits ⟨1, 1⟩, .productions "S" ["aS", " "], .terminals "a b", .nonterminal "S",
    .productions "B" [], .terminal ' ', .weight "S" "aS" 7, .production "S" "b", .limits ⟨2, 3⟩]

/-- The same steps, kind by kind. -/
def sorted : List Step :=
  [.nonterminal "S", .terminals "a b", .terminal ' ', .productions "S" ["aS", " "],
    .productions "B" [], .production "S" "b", .limits ⟨1, 1⟩, .limits ⟨2, 3⟩, .weight "S" "aS" 0,
    .weight "S" "aS" 7]

/-- The rule of `B`, which is not declared, has no alternative and so is none. -/
theorem sorted_toGrammar :
    (∀ kind, (sorted.filter fun step => step.kind = kind) =
      scattered.filter fun step => step.kind = kind) ∧
    (ofSteps "S" sorted).toGrammar = (ofSteps "S" scattered).toGrammar ∧
    (ofSteps "S" scattered).toGrammar =
      (Grammar.make ["S"] ['a', 'b', ' '] [("S", ["aS"]), ("S", [" "]), ("S", ["b"])] "S" >>= fun g =>
        (g.withLimits ⟨2, 3⟩).withWeights (Weights.ofEntries [⟨"S", "aS", 0⟩, ⟨"S", "aS", 7⟩])) := by
  have hkinds : ∀ kind, (sorted.filter fun step => step.kind = kind) =
      scattered.filter fun step => step.kind = kind := by
    intro kind
    cases kind <;> rfl
  obtain ⟨hmade, hsorted⟩ := ofSteps_toGrammar "S" scattered
  exact ⟨hkinds, hsorted sorted hkinds, hmade⟩

end RightLinear.Definition
