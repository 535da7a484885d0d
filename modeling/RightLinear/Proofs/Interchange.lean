import RightLinear.Proofs.Faithfulness
import RightLinear.Proofs.Walk

/-! # Equal grammars are interchangeable

Two grammars are equal if their declarations, rules, weights and limits are, in whatever order those
stand.  The alternatives as read and the samplers are not compared, but follow from what is
(`productionsOf_of_same`, `samplers_of_same`), so every draw comes out the same and with it every
generated word.  The automata show nothing but declarations and alternatives, so they are the same. -/

namespace RightLinear.Grammar

open RightLinear.Random (Source)

variable {g h : Grammar}

/-! ### What the parts look at -/

theorem same_iff : g.same h = true ↔
    g.nonterminals.sameMembers h.nonterminals = true ∧ g.terminals.sameMembers h.terminals = true ∧
      (∀ name, g.productions.get? name = h.productions.get? name) ∧ g.start = h.start ∧
      g.weights.same h.weights = true ∧ g.limits = h.limits := by
  simp only [same, Bool.and_eq_true, OrdMap.sameEntries_beq_iff, beq_iff_eq, and_assoc]

/-- Reading looks at which symbols are declared, not at their order. -/
theorem readAlternative_congr {nonterminals nonterminals' : OrdSet String}
    {terminals terminals' : OrdSet Char} (hn : ∀ a, a ∈ nonterminals ↔ a ∈ nonterminals')
    (ht : ∀ t, t ∈ terminals ↔ t ∈ terminals') :
    readAlternative nonterminals terminals = readAlternative nonterminals' terminals' := by
  funext text
  unfold readAlternative
  cases text.toList with
  | nil => rfl
  | cons t rest =>
      simp only [ht, hn]

theorem choose_congr {name : String} (hs : g.samplers.get? name = h.samplers.get? name)
    (alternatives : List Production) (source : Source) :
    g.choose name alternatives source = h.choose name alternatives source := by
  unfold choose drawIndex
  rw [hs]

section

variable (hproductions : ∀ name, g.productionsOf name = h.productionsOf name)
  (hsamplers : ∀ name, g.samplers.get? name = h.samplers.get? name)
include hproductions hsamplers

theorem walk_congr (budget : ℕ) (front : List Char) (current : Option String) (source : Source) :
    g.walk budget front current source = h.walk budget front current source := by
  induction budget generalizing front current source with
  | zero => cases current <;> rfl
  | succ budget ih =>
      cases current with
      | none => rfl
      | some name =>
          rw [walk, walk, hproductions, choose_congr (hsamplers name)]
          simp only [ih]

theorem attempt_congr (hstart : g.start = h.start) (limit : UInt64) (attempts : ℕ)
    (source : Source) : g.attempt limit attempts source = h.attempt limit attempts source := by
  induction attempts generalizing source with
  | zero => rfl
  | succ attempts ih =>
      rw [attempt, attempt, derive_eq_walk, derive_eq_walk, hstart,
        walk_congr hproductions hsamplers]
      simp only [ih]

end

section

variable (hg : g.Consistent) (hh : h.Consistent) (hsame : g.same h = true)
include hg hh hsame

/-! ### What is not compared -/

theorem productionsOf_of_same (name : String) : g.productionsOf name = h.productionsOf name := by
  obtain ⟨hn, ht, hrules, _⟩ := same_iff.mp hsame
  rw [OrdSet.sameMembers_iff] at hn ht
  have hget : g.alternatives.get? name = h.alternatives.get? name := by
    refine Option.ext fun ps => ?_
    rw [get?_alternatives hg, get?_alternatives hh, readAlternative_congr hn ht, hrules]
    simp only [hn]
  unfold productionsOf
  rw [hget]

theorem samplers_of_same (name : String) : g.samplers.get? name = h.samplers.get? name := by
  obtain ⟨_, _, hrules, _, hweights, _⟩ := same_iff.mp hsame
  refine Option.ext fun s => ?_
  rw [get?_samplers hg, get?_samplers hh, hrules, Weights.isWeighted_of_same hweights,
    funext (Weights.weightOf_of_same hweights name)]

/-! ### Generation -/

theorem generate_of_same (limit : UInt64) (source : Source) :
    g.generate limit source = h.generate limit source := by
  obtain ⟨_, _, _, hstart, _, hlimits⟩ := same_iff.mp hsame
  unfold generate
  rw [hlimits, attempt_congr (productionsOf_of_same hg hh hsame) (samplers_of_same hg hh hsame)
    hstart]

/-! ### Automata -/

theorem toAutomaton_of_same : g.toAutomaton.same h.toAutomaton = true := by
  obtain ⟨hn, ht, _, hstart, _⟩ := same_iff.mp hsame
  rw [OrdSet.sameMembers_iff] at hn ht
  refine toAutomaton_congr hn ht hstart fun name p => ?_
  rw [productionsOf_of_same hg hh hsame]

end

/-- **Equal grammars are interchangeable.**  For grammars that are equal up to the order of declarations,
rules and weights, generation takes the same course from every source: it gives the same word or the
same error and leaves the same source, after as many draws.  Their automata are equal up to the order
of states and transitions, and accept exactly the same words. -/
theorem interchangeable_of_same (hg : g.Built) (hh : h.Built) (hsame : g.same h = true) :
    (∀ limit source, g.generate limit source = h.generate limit source) ∧
    g.toAutomaton.same h.toAutomaton = true ∧
    ∀ word, g.toAutomaton.accepts word = h.toAutomaton.accepts word := by
  have hautomata := toAutomaton_of_same hg.consistent hh.consistent hsame
  refine ⟨fun limit source => ?_, hautomata, fun word => ?_⟩
  · exact generate_of_same hg.consistent hh.consistent hsame limit source
  · exact Automaton.accepts_eq_of_same hautomata word

/-- Two weighted nonterminals, and one with the name that the accepting state would have. -/
def ordered : Grammar where
  nonterminals := OrdSet.ofList ["S", "FINAL", "B"]
  terminals := OrdSet.ofList ['a', 'b']
  productions := mergeRules [("S", ["aB", "a"]), ("FINAL", []), ("B", ["bS"])]
  start := "S"
  weights := Weights.ofEntries [⟨"S", "aB", 2⟩, ⟨"S", "a", 5⟩, ⟨"B", "bS", 3⟩]
  limits := {}
  alternatives := ⟨[("S", [⟨'a', some "B"⟩, ⟨'a', none⟩]), ("FINAL", []), ("B", [⟨'b', some "S"⟩])],
    by decide⟩
  samplers := ⟨[("S", ⟨[2, 5]⟩), ("B", ⟨[3]⟩)], by decide⟩

/-- `ordered` with its declarations, rules and weights in another order. -/
def shuffled : Grammar where
  nonterminals := OrdSet.ofList ["B", "S", "FINAL"]
  terminals := OrdSet.ofList ['b', 'a']
  productions := mergeRules [("B", ["bS"]), ("S", ["aB", "a"]), ("FINAL", [])]
  start := "S"
  weights := Weights.ofEntries [⟨"B", "bS", 3⟩, ⟨"S", "a", 5⟩, ⟨"S", "aB", 2⟩]
  limits := {}
  alternatives := ⟨[("B", [⟨'b', some "S"⟩]), ("S", [⟨'a', some "B"⟩, ⟨'a', none⟩]), ("FINAL", [])],
    by decide⟩
  samplers := ⟨[("B", ⟨[3]⟩), ("S", ⟨[2, 5]⟩)], by decide⟩

theorem ordered_built : ordered.Built := by
  have hmake : make ["S", "FINAL", "B"] ['a', 'b'] [("S", ["aB", "a"]), ("FINAL", []), ("B", ["bS"])]
      "S" = .ok { ordered with weights := ∅, samplers := ∅ } := by decide
  have hweights : ({ ordered with weights := ∅, samplers := ∅ } : Grammar).withWeights
      ordered.weights = .ok ordered := by decide
  exact .withWeights (.make hmake) hweights

theorem shuffled_built : shuffled.Built := by
  have hmake : make ["B", "S", "FINAL"] ['b', 'a']
      [("B", ["bS"]), ("S", ["aB"]), ("FINAL", []), ("S", ["a"])] "S" =
        .ok { shuffled with weights := ∅, samplers := ∅ } := by decide
  have hweights : ({ shuffled with weights := ∅, samplers := ∅ } : Grammar).withWeights
      shuffled.weights = .ok shuffled := by decide
  exact .withWeights (.make hmake) hweights

theorem ordered_interchangeable :
    ordered.Built ∧ shuffled.Built ∧ ordered.same shuffled = true ∧ ordered ≠ shuffled ∧
    (∀ limit source, ordered.generate limit source = shuffled.generate limit source) ∧
    ordered.toAutomaton.same shuffled.toAutomaton = true ∧
    ∀ word, ordered.toAutomaton.accepts word = shuffled.toAutomaton.accepts word := by
  have hsame : ordered.same shuffled = true := by decide
  refine ⟨ordered_built, shuffled_built, hsame, by decide, ?_⟩
  exact interchangeable_of_same ordered_built shuffled_built hsame

end RightLinear.Grammar
