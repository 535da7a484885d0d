import RightLinear.Automaton.Membership
import RightLinear.Proofs.Connections
import RightLinear.Proofs.Derivations
import RightLinear.Proofs.FreshName
import RightLinear.Proofs.Paths

/-! # The language of a grammar

The automaton of a grammar accepts exactly the words that the grammar derives.  The transitions of
the automaton are the alternatives as read (`mem_targets_toAutomaton`), and nothing leads away from
the accepting state, since its name is no nonterminal.  A path from a nonterminal to the accepting
state is then a derivation, letter by letter (`path_iff_derives`). -/

namespace RightLinear.Grammar

open Automaton (Transition)

variable {g : Grammar}

/-! ### Transitions -/

variable (g) in
/-- The alternatives as transitions. -/
def transitions : List Transition :=
  g.alternatives.entries.flatMap fun e =>
    e.2.map fun p => ⟨e.1, p.terminal, [p.next.getD g.finalName]⟩

theorem delta_eq_connectAll : g.delta = Delta.connectAll g.transitions ∅ := by
  unfold delta Delta.connectAll transitions
  rw [List.foldl_flatMap]
  simp only [List.foldl_map]

theorem mem_transitions {t : Transition} :
    t ∈ g.transitions ↔ ∃ p ∈ g.productionsOf t.source,
      t.symbol = p.terminal ∧ t.targets = [p.next.getD g.finalName] := by
  obtain ⟨source, symbol, targets⟩ := t
  simp only [transitions, List.mem_flatMap, List.mem_map, Transition.mk.injEq]
  constructor
  · rintro ⟨⟨name, ps⟩, he, p, hp, rfl, rfl, rfl⟩
    refine ⟨p, ?_, rfl, rfl⟩
    rw [productionsOf, OrdMap.get?_eq_some.mpr he]
    exact hp
  · rintro ⟨p, hp, rfl, rfl⟩
    unfold productionsOf at hp
    cases hps : g.alternatives.get? source with
    | none => rw [hps] at hp; cases hp
    | some ps =>
        rw [hps] at hp
        exact ⟨(source, ps), OrdMap.get?_eq_some.mp hps, p, hp, rfl, rfl, rfl⟩

/-- What holds of some transition holds of that of some alternative. -/
theorem exists_mem_transitions {P : Transition → Prop} :
    (∃ t ∈ g.transitions, P t) ↔ ∃ name, ∃ p ∈ g.productionsOf name,
      P ⟨name, p.terminal, [p.next.getD g.finalName]⟩ := by
  constructor
  · rintro ⟨⟨name, symbol, targets⟩, ht, h⟩
    obtain ⟨p, hp, rfl, rfl⟩ := mem_transitions.mp ht
    exact ⟨name, p, hp, h⟩
  · rintro ⟨name, p, hp, h⟩
    exact ⟨_, mem_transitions.mpr ⟨p, hp, rfl, rfl⟩, h⟩

theorem mem_keys_delta {q : String} : q ∈ g.delta.keys ↔ ∃ p, p ∈ g.productionsOf q := by
  have hempty : ¬ q ∈ (∅ : Delta).keys := List.not_mem_nil
  rw [delta_eq_connectAll, Delta.mem_keys_connectAll, exists_mem_transitions, or_iff_right hempty]
  constructor
  · rintro ⟨name, p, hp, rfl⟩
    exact ⟨p, hp⟩
  · rintro ⟨p, hp⟩
    exact ⟨q, p, hp, rfl⟩

theorem isSome_targets?_delta {q : String} {c : Char} :
    (g.delta.targets? q c).isSome = true ↔ ∃ p ∈ g.productionsOf q, p.terminal = c := by
  rw [delta_eq_connectAll, Delta.isSome_connectAll, exists_mem_transitions,
    or_iff_right Delta.isSome_empty]
  constructor
  · rintro ⟨name, p, hp, rfl, hc⟩
    exact ⟨p, hp, hc⟩
  · rintro ⟨p, hp, hc⟩
    exact ⟨q, p, hp, rfl, hc⟩

/-- A state leads to where its alternatives with the symbol lead. -/
theorem leads_delta {q r : String} {c : Char} :
    g.delta.Leads q c r ↔ ∃ p ∈ g.productionsOf q, p.terminal = c ∧ p.next.getD g.finalName = r := by
  rw [delta_eq_connectAll, Delta.leads_connectAll, exists_mem_transitions,
    or_iff_right Delta.not_leads_empty]
  constructor
  · rintro ⟨name, p, hp, rfl, hc, hr⟩
    exact ⟨p, hp, hc, (List.mem_singleton.mp hr).symm⟩
  · rintro ⟨p, hp, hc, hr⟩
    exact ⟨q, p, hp, rfl, hc, List.mem_singleton.mpr hr.symm⟩

theorem mem_targets_toAutomaton {q r : String} {c : Char} :
    r ∈ g.toAutomaton.targets q c ↔
      ∃ p ∈ g.productionsOf q, p.terminal = c ∧ p.next.getD g.finalName = r :=
  Automaton.mem_targets.trans leads_delta

/-! ### The automaton is well formed -/

theorem wellFormed_toAutomaton (hg : g.Consistent) : g.toAutomaton.WellFormed where
  start_mem := OrdSet.mem_insert.mpr (.inl hg.start_mem)
  accepting_mem := fun q hq => OrdSet.mem_insert.mpr (.inr (OrdSet.mem_singleton.mp hq))
  source_mem := by
    intro q hq
    obtain ⟨p, hp⟩ := mem_keys_delta.mp hq
    exact OrdSet.mem_insert.mpr (.inl (declared_of_mem_productionsOf hg hp).1)
  symbol_mem := by
    intro q c s hs
    have hsome : (g.delta.targets? q c).isSome = true := Option.isSome_iff_exists.mpr ⟨s, hs⟩
    obtain ⟨p, hp, rfl⟩ := isSome_targets?_delta.mp hsome
    exact (declared_of_mem_productionsOf hg hp).2.1
  target_mem := by
    intro q c s hs r hr
    obtain ⟨p, hp, _, rfl⟩ := mem_targets_toAutomaton.mp (Automaton.mem_targets.mpr ⟨s, hs, hr⟩)
    cases hnext : p.next with
    | none => exact OrdSet.mem_insert.mpr (.inr rfl)
    | some next =>
        exact OrdSet.mem_insert.mpr (.inl ((declared_of_mem_productionsOf hg hp).2.2 next hnext))

/-! ### Paths and derivations -/

theorem targets_finalName (hg : g.Consistent) (c : Char) :
    g.toAutomaton.targets g.finalName c = [] := by
  refine List.eq_nil_iff_forall_not_mem.mpr fun r hr => ?_
  obtain ⟨p, hp, _⟩ := mem_targets_toAutomaton.mp hr
  exact finalName_not_mem g (declared_of_mem_productionsOf hg hp).1

theorem path_finalName (hg : g.Consistent) {word : List Char} {r : String}
    (h : g.toAutomaton.Path g.finalName word r) : word = [] := by
  cases h with
  | nil => rfl
  | cons hr _ =>
      rw [targets_finalName hg] at hr
      cases hr

/-- The words between a nonterminal and the accepting state are those of the nonterminal. -/
theorem path_iff_derives (hg : g.Consistent) {name : String} {word : List Char}
    (hname : name ∈ g.nonterminals) :
    g.toAutomaton.Path name word g.finalName ↔ g.Derives name word := by
  constructor
  · intro h
    generalize hfinal : g.finalName = final at h
    induction h with
    | nil q => exact absurd (hfinal ▸ hname) (finalName_not_mem g)
    | @cons q r s c word hr hpath ih =>
        subst hfinal
        obtain ⟨p, hp, rfl, rfl⟩ := mem_targets_toAutomaton.mp hr
        cases hnext : p.next with
        | none =>
            rw [hnext] at hpath
            obtain rfl := path_finalName hg hpath
            exact .last hp hnext
        | some next =>
            rw [hnext] at ih
            exact .more hp hnext (ih ((declared_of_mem_productionsOf hg hp).2.2 next hnext) rfl)
  · intro h
    clear hname
    induction h with
    | last hp hnext =>
        exact .cons (mem_targets_toAutomaton.mpr ⟨_, hp, rfl, by rw [hnext]; rfl⟩) (.nil _)
    | more hp hnext _ ih =>
        exact .cons (mem_targets_toAutomaton.mpr ⟨_, hp, rfl, by rw [hnext]; rfl⟩) ih

theorem accepts_iff_derives (hg : g.Consistent) {word : List Char} :
    g.toAutomaton.accepts word = true ↔ g.Derives g.start word := by
  rw [Automaton.accepts_iff_path (wellFormed_toAutomaton hg), ← path_iff_derives hg hg.start_mem]
  constructor
  · rintro ⟨r, hr, hpath⟩
    obtain rfl := OrdSet.mem_singleton.mp hr
    exact hpath
  · intro hpath
    exact ⟨g.finalName, OrdSet.mem_singleton.mpr rfl, hpath⟩

/-- **The automaton of a grammar accepts exactly what the grammar derives.**  A word is accepted if
and only if some finite sequence of rewrites by the productions as written leads from the start symbol
to it; so the empty word never is, and a word that is accepted has no symbol but terminals. -/
theorem accepts_toAutomaton_iff (hg : g.Built) (word : List Char) :
    (g.toAutomaton.accepts word = true ↔
      ∃ n, g.Rewrites n [.nonterminal g.start] (word.map .terminal)) ∧
    (g.toAutomaton.accepts word = true → word ≠ [] ∧ ∀ c ∈ word, c ∈ g.terminals) := by
  have hc := hg.consistent
  rw [accepts_iff_derives hc]
  refine ⟨?_, fun h => ⟨h.ne_nil, h.mem_terminals hc⟩⟩
  constructor
  · intro h
    exact ⟨word.length, (rewrites_iff_derives hc).mpr ⟨h, rfl⟩⟩
  · rintro ⟨n, h⟩
    exact ((rewrites_iff_derives hc).mp h).1

/-- The accepting state needs two underscores, and `S` has two targets on `a`. -/
def crowded : Grammar where
  nonterminals := OrdSet.ofList ["S", "FINAL", "_FINAL", "B"]
  terminals := OrdSet.ofList ['a', 'b']
  productions := mergeRules [("S", ["aB", "a"]), ("FINAL", ["a"]), ("B", ["bS"])]
  start := "S"
  weights := ∅
  limits := {}
  alternatives := ⟨[("S", [⟨'a', some "B"⟩, ⟨'a', none⟩]), ("FINAL", [⟨'a', none⟩]),
    ("B", [⟨'b', some "S"⟩])], by decide⟩
  samplers := ∅

theorem crowded_built : crowded.Built := by
  have h : make ["S", "FINAL", "_FINAL", "B"] ['a', 'b']
      [("S", ["aB"]), ("FINAL", ["a"]), ("B", ["bS"]), ("S", ["a"])] "S" = .ok crowded := by decide
  exact .make h

theorem crowded_rewrites : crowded.Built ∧
    (∃ n, crowded.Rewrites n [.nonterminal "S"] (['a', 'b', 'a'].map .terminal)) ∧
    ¬ ∃ n, crowded.Rewrites n [.nonterminal "S"] (['a', 'b'].map .terminal) := by
  refine ⟨crowded_built, (accepts_toAutomaton_iff crowded_built _).1.mp (by decide), fun h => ?_⟩
  exact absurd ((accepts_toAutomaton_iff crowded_built ['a', 'b']).1.mpr h) (by decide)

end RightLinear.Grammar
