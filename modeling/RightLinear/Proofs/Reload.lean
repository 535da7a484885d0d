import RightLinear.Grammar.Generation
import RightLinear.Proofs.Routes
import RightLinear.Proofs.WrittenDefinition

/-! # Grammars that are written and loaded again

The definition of a grammar keeps everything that was said about it, but for repeated declarations
(`ofGrammar_of_toGrammar`).  Written as JSON, read and built again it is the same grammar, down to
the alternatives and the samplers, which the text does not mention: both follow from the components
that it does, by the invariant of construction. -/

namespace RightLinear.Grammar

theorem ofGrammar_of_toGrammar {d : Definition} {g : Grammar} (h : d.toGrammar = .ok g) :
    Definition.ofGrammar g = { d with
      nonterminals := d.nonterminals.eraseDups, terminals := d.terminals.eraseDups } := by
  unfold Definition.toGrammar at h
  split at h
  · cases h
  · next made hmake =>
    obtain ⟨_, _, alternatives, _, rfl⟩ := make_eq_ok.mp hmake
    obtain ⟨_, samplers, _, rfl⟩ := withWeights_eq_ok.mp h
    unfold Definition.ofGrammar withLimits
    rw [OrdSet.toList_ofList, OrdSet.toList_ofList, mergeRules_entries]

/-- **A grammar survives being written and loaded.**  The definition of a grammar is the one that it was
built from, with later repetitions of its declarations removed.  A grammar that was constructed by any
route and changed in any way is loaded again from the JSON text of its definition: the result is equal
to it in all its components, and generates the same from every source, with the same draws. -/
theorem reloads :
    (∀ {d : Definition} {g : Grammar}, d.toGrammar = .ok g →
      Definition.ofGrammar g = { d with
        nonterminals := d.nonterminals.eraseDups, terminals := d.terminals.eraseDups }) ∧
    ∀ {g₀ g : Grammar} {cs : List Change}, g₀.Constructed → Changes g₀ cs g →
      ∃ d h, Definition.ofJson (Definition.ofGrammar g).toJson = .ok d ∧ d.toGrammar = .ok h ∧
        h.same g = true ∧ h = g ∧
        ∀ limit source, h.generate limit source = g.generate limit source := by
  refine ⟨ofGrammar_of_toGrammar, ?_⟩
  intro g₀ g cs hg₀ hc
  have hg : g.Built := hc.built hg₀.built
  exact ⟨_, g, Definition.ofJson_json _ .pretty, toGrammar_ofGrammar hg.consistent, g.same_refl, rfl,
    fun _ _ => rfl⟩

/-- Declarations are repeated, a rule has no alternative, and two tables have no weight. -/
def doubled : Definition where
  nonterminals := ["S", "B", "S", "C"]
  terminals := ['a', '\\', 'a']
  productions := mergeRules [("S", ["aB", "\\", "aB"]), ("B", []), ("C", ["a"])]
  start := "S"
  weights := ⟨⟨[("S", ⟨[("\\", 4294967293)], by decide⟩), ("\"\n", ∅), ("C", ∅)], by decide⟩⟩
  limits := ⟨0, 18446744073709551615⟩

/-- What `doubled` describes. -/
def single : Grammar where
  nonterminals := OrdSet.ofList ["S", "B", "C"]
  terminals := OrdSet.ofList ['a', '\\']
  productions := doubled.productions
  start := "S"
  weights := doubled.weights
  limits := doubled.limits
  alternatives := ⟨[("S", [⟨'a', some "B"⟩, ⟨'\\', none⟩, ⟨'a', some "B"⟩]), ("B", []),
    ("C", [⟨'a', none⟩])], by decide⟩
  samplers := ⟨[("S", ⟨[1, 4294967293, 1]⟩), ("C", ⟨[1]⟩)], by decide⟩

theorem toGrammar_doubled : doubled.toGrammar = .ok single := by decide

theorem constructed_single : single.Constructed :=
  .ofJson (doubled.ofJson_json .pretty) toGrammar_doubled

/-- `single` with other weights, among them a table without any, and other limits. -/
def reweighed : Grammar :=
  { single with
    weights := ⟨⟨[("C", ∅), ("S", ⟨[("aB", 3)], by decide⟩)], by decide⟩⟩
    limits := ⟨7, 1⟩
    samplers := ⟨[("S", ⟨[3, 1, 3]⟩), ("C", ⟨[1]⟩)], by decide⟩ }

theorem changes_reweighed :
    Changes single [.weights ∅, .limits ⟨7, 1⟩, .weights reweighed.weights] reweighed := by
  have hnone : single.withWeights ∅ = .ok { single with weights := ∅, samplers := ∅ } := by decide
  have hlast : ({ single with weights := ∅, samplers := ∅, limits := ⟨7, 1⟩ } : Grammar).withWeights
      reweighed.weights = .ok reweighed := by decide
  exact .weights hnone (.limits ⟨7, 1⟩ (.weights hlast (.nil _)))

theorem reweighed_reloads :
    doubled.toGrammar = .ok single ∧
    Definition.ofGrammar single =
      { doubled with nonterminals := ["S", "B", "C"], terminals := ['a', '\\'] } ∧
    single.Constructed ∧
    Changes single [.weights ∅, .limits ⟨7, 1⟩, .weights reweighed.weights] reweighed ∧
    ∃ d h, Definition.ofJson (Definition.ofGrammar reweighed).toJson = .ok d ∧
      d.toGrammar = .ok h ∧ h.same reweighed = true ∧ h = reweighed ∧
      ∀ limit source, h.generate limit source = reweighed.generate limit source := by
  refine ⟨toGrammar_doubled, ?_, constructed_single, changes_reweighed, ?_⟩
  · exact reloads.1 toGrammar_doubled
  · exact reloads.2 constructed_single changes_reweighed

end RightLinear.Grammar
