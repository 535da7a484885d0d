import RightLinear.Proofs.Comparison
import RightLinear.Proofs.Language

/-! # What the automaton of a grammar shows

The automaton of a grammar shows its declarations, its start symbol and which alternatives there are,
and nothing else (`toAutomaton_same_iff`).

* Order, repetition, rules without alternatives, weights and limits do not show: states, entries and
  targets depend on which symbols are declared and which alternatives there are (`delta_congr`).
* Everything else does: an alternative can be read off the relation (`mem_productionsOf_iff_leads`).
  The accepting state is no nonterminal, so an alternative that ends is not mistaken for one that goes
  on.

The components are put together without a check.  They need none, and the check that automata pass
elsewhere lets them through unchanged (`make_toAutomaton`). -/

namespace RightLinear.Grammar

variable {g h : Grammar}

/-! ### What does not show -/

theorem delta_congr (hfinal : g.finalName = h.finalName)
    (halternatives : ∀ name p, p ∈ g.productionsOf name ↔ p ∈ h.productionsOf name) :
    g.delta.sameEntries (OrdMap.sameEntries OrdSet.sameMembers) h.delta = true := by
  rw [Delta.same_iff]
  simp only [mem_keys_delta, isSome_targets?_delta, leads_delta, halternatives, hfinal,
    implies_true, and_self]

theorem toAutomaton_congr (hn : ∀ a, a ∈ g.nonterminals ↔ a ∈ h.nonterminals)
    (ht : ∀ t, t ∈ g.terminals ↔ t ∈ h.terminals) (hstart : g.start = h.start)
    (halternatives : ∀ name p, p ∈ g.productionsOf name ↔ p ∈ h.productionsOf name) :
    g.toAutomaton.same h.toAutomaton = true := by
  have hfinal := finalName_congr hn
  refine Automaton.same_iff.mpr ⟨?_, ht, delta_congr hfinal halternatives, hstart, ?_⟩
  · intro q
    simp only [toAutomaton, OrdSet.mem_insert, hn, hfinal]
  · intro q
    simp only [toAutomaton, OrdSet.mem_singleton, hfinal]

/-! ### What shows -/

/-- A nonterminal, or none, is told by the state that stands for it. -/
theorem next_eq_of_getD_eq {next next' : Option String} (hg : ∀ a, next = some a → a ∈ g.nonterminals)
    (hg' : ∀ a, next' = some a → a ∈ g.nonterminals)
    (heq : next.getD g.finalName = next'.getD g.finalName) : next = next' := by
  have hfresh := finalName_not_mem g
  -- A nonterminal and none would need the accepting state to be a nonterminal.
  cases next with
  | none =>
      cases next' with
      | none => rfl
      | some b =>
          have hb : g.finalName = b := heq
          exact absurd (hg' b rfl) (hb ▸ hfresh)
  | some a =>
      cases next' with
      | none =>
          have ha : a = g.finalName := heq
          exact absurd (hg a rfl) (ha ▸ hfresh)
      | some b => exact congrArg some heq

theorem mem_productionsOf_iff_leads (hg : g.Consistent) {name : String} {p : Production} :
    p ∈ g.productionsOf name ↔ (∀ next, p.next = some next → next ∈ g.nonterminals) ∧
      g.delta.Leads name p.terminal (p.next.getD g.finalName) := by
  rw [leads_delta]
  constructor
  · intro hp
    exact ⟨(declared_of_mem_productionsOf hg hp).2.2, p, hp, rfl, rfl⟩
  · rintro ⟨hnext, ⟨terminal, next⟩, hp, rfl, htarget⟩
    obtain rfl := next_eq_of_getD_eq (declared_of_mem_productionsOf hg hp).2.2 hnext htarget
    exact hp

theorem nonterminals_iff_of_states {a : String} :
    a ∈ g.nonterminals ↔ a ∈ g.toAutomaton.states ∧ ¬ a ∈ g.toAutomaton.accepting := by
  simp only [toAutomaton, OrdSet.mem_insert, OrdSet.mem_singleton]
  constructor
  · intro ha
    exact ⟨.inl ha, fun e => finalName_not_mem g (e ▸ ha)⟩
  · rintro ⟨ha | rfl, hne⟩
    · exact ha
    · exact absurd rfl hne

theorem agree_of_toAutomaton_same (hg : g.Consistent) (hh : h.Consistent)
    (hsame : g.toAutomaton.same h.toAutomaton = true) :
    (∀ a, a ∈ g.nonterminals ↔ a ∈ h.nonterminals) ∧ (∀ t, t ∈ g.terminals ↔ t ∈ h.terminals) ∧
      g.start = h.start ∧ ∀ name p, p ∈ g.productionsOf name ↔ p ∈ h.productionsOf name := by
  obtain ⟨hstates, hterminals, hdelta, hstart, haccepting⟩ := Automaton.same_iff.mp hsame
  -- The nonterminals come first: only then is the accepting state known to have one name in both, and
  -- the alternatives that end can be compared.
  have hn : ∀ a, a ∈ g.nonterminals ↔ a ∈ h.nonterminals := by
    intro a
    rw [nonterminals_iff_of_states, nonterminals_iff_of_states, hstates, haccepting]
  refine ⟨hn, hterminals, hstart, fun name p => ?_⟩
  have hleads : ∀ q c r, g.delta.Leads q c r ↔ h.delta.Leads q c r := (Delta.same_iff.mp hdelta).2.2
  rw [mem_productionsOf_iff_leads hg, mem_productionsOf_iff_leads hh, hleads, finalName_congr hn]
  simp only [hn]

/-- A state leads to the accepting one by its alternatives that end, and to a nonterminal by those
that go on with it. -/
theorem mem_targets_iff {q r : String} {c : Char} :
    r ∈ g.toAutomaton.targets q c ↔
      ⟨c, some r⟩ ∈ g.productionsOf q ∨ r = g.finalName ∧ ⟨c, none⟩ ∈ g.productionsOf q := by
  rw [mem_targets_toAutomaton]
  constructor
  · rintro ⟨⟨_, _ | next⟩, hp, rfl, rfl⟩
    · exact .inr ⟨rfl, hp⟩
    · exact .inl hp
  · rintro (hp | ⟨rfl, hp⟩)
    · exact ⟨_, hp, rfl, rfl⟩
    · exact ⟨_, hp, rfl, rfl⟩

/-- **The automaton shows which symbols there are, the start symbol and which alternatives there are,
and nothing else.**  Two grammars have the same automaton, in whatever order, exactly if they agree in
these.  The relation is the one that the alternatives imply: its rows and entries are there for an
alternative, and each leads where the alternatives lead, to the accepting state, which is no
nonterminal, or to the nonterminal that they name.  Limits and weights leave no trace at all. -/
theorem toAutomaton_same_iff (hg : g.Built) (hh : h.Built) :
    (g.toAutomaton.same h.toAutomaton = true ↔
      (∀ a, a ∈ g.nonterminals ↔ a ∈ h.nonterminals) ∧ (∀ t, t ∈ g.terminals ↔ t ∈ h.terminals) ∧
        g.start = h.start ∧ ∀ name p, p ∈ g.productionsOf name ↔ p ∈ h.productionsOf name) ∧
    (¬ g.finalName ∈ g.nonterminals ∧
      (∀ q, q ∈ g.toAutomaton.delta.keys ↔ ∃ p, p ∈ g.productionsOf q) ∧
      (∀ q c, (g.toAutomaton.targets? q c).isSome = true ↔
        ∃ p ∈ g.productionsOf q, p.terminal = c) ∧
      ∀ q c r, r ∈ g.toAutomaton.targets q c ↔
        ⟨c, some r⟩ ∈ g.productionsOf q ∨ r = g.finalName ∧ ⟨c, none⟩ ∈ g.productionsOf q) ∧
    (∀ limits, (g.withLimits limits).toAutomaton = g.toAutomaton) ∧
    ∀ weights k, g.withWeights weights = .ok k → k.toAutomaton = g.toAutomaton := by
  refine ⟨⟨agree_of_toAutomaton_same hg.consistent hh.consistent, ?_⟩, ?_, fun _ => rfl, ?_⟩
  · rintro ⟨hn, ht, hstart, halternatives⟩
    exact toAutomaton_congr hn ht hstart halternatives
  · exact ⟨finalName_not_mem g, fun _ => mem_keys_delta, fun _ _ => isSome_targets?_delta,
      fun _ _ _ => mem_targets_iff⟩
  · intro weights k hk
    obtain ⟨_, samplers, _, rfl⟩ := withWeights_eq_ok.mp hk
    rfl

/-- `crowded` in another order, with a repeated alternative, a rule without any, weights and other
limits. -/
def recast : Grammar where
  nonterminals := OrdSet.ofList ["B", "_FINAL", "S", "FINAL"]
  terminals := OrdSet.ofList ['b', 'a']
  productions := mergeRules [("B", ["bS", "bS"]), ("_FINAL", []), ("FINAL", ["a"]), ("S", ["a", "aB"])]
  start := "S"
  weights := Weights.ofEntries [⟨"S", "a", 3⟩]
  limits := ⟨0, 0⟩
  alternatives := ⟨[("B", [⟨'b', some "S"⟩, ⟨'b', some "S"⟩]), ("_FINAL", []),
    ("FINAL", [⟨'a', none⟩]), ("S", [⟨'a', none⟩, ⟨'a', some "B"⟩])], by decide⟩
  samplers := ⟨[("S", ⟨[3, 1]⟩)], by decide⟩

theorem recast_built : recast.Built := by
  have hmake : make ["B", "_FINAL", "S", "FINAL"] ['b', 'a']
      [("B", ["bS", "bS"]), ("_FINAL", []), ("FINAL", ["a"]), ("S", ["a", "aB"])] "S" =
        .ok { recast with weights := ∅, limits := {}, samplers := ∅ } := by decide
  have hweights : ({ recast with weights := ∅, samplers := ∅ } : Grammar).withWeights
      recast.weights = .ok recast := by decide
  exact .withWeights (.withLimits ⟨0, 0⟩ (.make hmake)) hweights

/-- `crowded` with an alternative that ends in the place of one that goes on with `B`. -/
def clipped : Grammar where
  nonterminals := OrdSet.ofList ["S", "FINAL", "_FINAL", "B"]
  terminals := OrdSet.ofList ['a', 'b']
  productions := mergeRules [("S", ["a"]), ("FINAL", ["a"]), ("B", ["bS"])]
  start := "S"
  weights := ∅
  limits := {}
  alternatives := ⟨[("S", [⟨'a', none⟩]), ("FINAL", [⟨'a', none⟩]), ("B", [⟨'b', some "S"⟩])],
    by decide⟩
  samplers := ∅

theorem clipped_built : clipped.Built := by
  have h : make ["S", "FINAL", "_FINAL", "B"] ['a', 'b'] [("S", ["a"]), ("FINAL", ["a"]), ("B", ["bS"])]
      "S" = .ok clipped := by decide
  exact .make h

theorem crowded_toAutomaton_same :
    crowded.Built ∧ recast.Built ∧ clipped.Built ∧
    crowded.toAutomaton.same recast.toAutomaton = true ∧
    (∀ name p, p ∈ crowded.productionsOf name ↔ p ∈ recast.productionsOf name) ∧
    ¬ crowded.toAutomaton.same clipped.toAutomaton = true := by
  have hsame : crowded.toAutomaton.same recast.toAutomaton = true := by decide
  refine ⟨crowded_built, recast_built, clipped_built, hsame, ?_, fun hclipped => ?_⟩
  · exact ((toAutomaton_same_iff crowded_built recast_built).1.mp hsame).2.2.2
  · have hmem := ((toAutomaton_same_iff crowded_built clipped_built).1.mp hclipped).2.2.2 "S"
      ⟨'a', some "B"⟩
    exact absurd (hmem.mp (by decide)) (by decide)

/-! ### The check that is left out -/

theorem make_of_wellFormed {m : Automaton} (hm : m.WellFormed) :
    Automaton.make m.states.toList m.alphabet.toList m.delta m.start m.accepting.toList = .ok m := by
  unfold Automaton.make
  rw [OrdSet.ofList_toList, OrdSet.ofList_toList, OrdSet.ofList_toList]
  dsimp only
  rw [Automaton.fault?_eq_none.mpr hm]

theorem targets?_finalName (hg : g.Consistent) (c : Char) :
    g.toAutomaton.targets? g.finalName c = none := by
  rw [← Option.not_isSome_iff_eq_none]
  intro hsome
  obtain ⟨p, hp, _⟩ := isSome_targets?_delta.mp hsome
  exact finalName_not_mem g (declared_of_mem_productionsOf hg hp).1

/-- **The automaton of a grammar needs no check.**  Its start state, its accepting state and the sources
and targets of its transitions are declared, and so are the symbols; no transition leaves the accepting
state.  Made again from its five components it passes the check, and the result is equal to it and
accepts the same words. -/
theorem make_toAutomaton (hg : g.Built) :
    (g.toAutomaton.fault? = none ∧ g.toAutomaton.WellFormed) ∧
    (∀ q ∈ g.toAutomaton.accepting, ∀ c, g.toAutomaton.targets? q c = none) ∧
    ∃ m, Automaton.make g.toAutomaton.states.toList g.toAutomaton.alphabet.toList g.toAutomaton.delta
        g.toAutomaton.start g.toAutomaton.accepting.toList = .ok m ∧
      m.same g.toAutomaton = true ∧ m = g.toAutomaton ∧
      ∀ word, m.accepts word = g.toAutomaton.accepts word := by
  have hwell := wellFormed_toAutomaton hg.consistent
  refine ⟨⟨Automaton.fault?_eq_none.mpr hwell, hwell⟩, ?_, ?_⟩
  · intro q hq c
    obtain rfl := OrdSet.mem_singleton.mp hq
    exact targets?_finalName hg.consistent c
  · exact ⟨_, make_of_wellFormed hwell, Automaton.same_refl _, rfl, fun _ => rfl⟩

theorem crowded_make : crowded.Built ∧ crowded.toAutomaton.fault? = none ∧
    crowded.toAutomaton.targets? "__FINAL" 'a' = none ∧
    ∃ m, Automaton.make ["S", "FINAL", "_FINAL", "B", "__FINAL"] ['a', 'b'] crowded.delta "S"
        ["__FINAL"] = .ok m ∧
      m.same crowded.toAutomaton = true ∧ m.accepts ['a', 'b', 'a'] = true := by
  obtain ⟨⟨hfault, _⟩, hfinal, m, hm, hsame, _, haccepts⟩ := make_toAutomaton crowded_built
  refine ⟨crowded_built, hfault, hfinal "__FINAL" (by decide) 'a', m, hm, hsame, ?_⟩
  rw [haccepts]
  decide

end RightLinear.Grammar
