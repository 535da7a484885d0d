import RightLinear.Proofs.Comparison

/-! # Automata of listed transitions

An automaton is put together from a start state, accepting states and a list of transitions.  States
and symbols are declared by being mentioned, so nothing that is mentioned is undeclared and the check of
the components passes (`wellFormed_collect`, `ofTransitions_eq`).

The targets of a state on a symbol are those that the list gives for them, from all transitions together
(`targets?_collect`), so a path of the automaton is a chain of listed transitions (`path_collect`).  The
comparison of automata asks only which names are mentioned and where the transitions lead; so neither the
order of the list nor repetitions in it matter (`collect_same`). -/

namespace RightLinear

open Automaton (Transition)

namespace Automaton

/-- Listed transitions follow each other from the first state to the last; their symbols make up the
word. -/
inductive Chain (transitions : List Transition) : String → List Char → String → Prop
  | nil (q : String) : Chain transitions q [] q
  | cons {t : Transition} {r s : String} {word : List Char} : t ∈ transitions → r ∈ t.targets →
      Chain transitions r word s → Chain transitions t.source (t.symbol :: word) s

/-- The automaton that declares what it mentions. -/
def collect (start : String) (accepting : List String) (transitions : List Transition) :
    Automaton where
  states := .ofList (start :: accepting ++ transitions.flatMap fun t => t.source :: t.targets)
  alphabet := .ofList (transitions.map (·.symbol))
  delta := Delta.connectAll transitions ∅
  start := start
  accepting := .ofList accepting

variable {start : String} {accepting : List String} {transitions : List Transition}

theorem mem_states_collect {q : String} : q ∈ (collect start accepting transitions).states ↔
    q = start ∨ q ∈ accepting ∨ ∃ t ∈ transitions, q = t.source ∨ q ∈ t.targets := by
  simp [collect]

theorem mem_alphabet_collect {c : Char} :
    c ∈ (collect start accepting transitions).alphabet ↔ ∃ t ∈ transitions, t.symbol = c := by
  simp [collect]

theorem targets?_collect (q : String) (c : Char) :
    (collect start accepting transitions).targets? q c =
      if ∃ t ∈ transitions, t.source = q ∧ t.symbol = c then
        some (.ofList (Delta.given transitions q c)) else none :=
  Delta.targets?_connectAll transitions ∅ q c

theorem mem_targets_collect {q r : String} {c : Char} :
    r ∈ (collect start accepting transitions).targets q c ↔
      ∃ t ∈ transitions, t.source = q ∧ t.symbol = c ∧ r ∈ t.targets := by
  have hleads : (Delta.connectAll transitions ∅).Leads q c r ↔
      ∃ t ∈ transitions, t.source = q ∧ t.symbol = c ∧ r ∈ t.targets :=
    Delta.leads_connectAll.trans (or_iff_right Delta.not_leads_empty)
  exact mem_targets.trans hleads

/-! ### The check finds nothing -/

theorem wellFormed_collect : (collect start accepting transitions).WellFormed where
  start_mem := mem_states_collect.mpr (.inl rfl)
  accepting_mem := fun q hq => mem_states_collect.mpr (.inr (.inl (OrdSet.mem_ofList.mp hq)))
  source_mem := by
    intro q hq
    rcases Delta.mem_keys_connectAll.mp hq with hq | ⟨t, ht, rfl⟩
    · exact absurd hq List.not_mem_nil
    · exact mem_states_collect.mpr (.inr (.inr ⟨t, ht, .inl rfl⟩))
  symbol_mem := by
    intro q c s hs
    have hsome : ((Delta.connectAll transitions ∅).targets? q c).isSome = true :=
      Option.isSome_iff_exists.mpr ⟨s, hs⟩
    rcases Delta.isSome_connectAll.mp hsome with hempty | ⟨t, ht, _, rfl⟩
    · exact absurd hempty Delta.isSome_empty
    · exact mem_alphabet_collect.mpr ⟨t, ht, rfl⟩
  target_mem := by
    intro q c s hs r hr
    obtain ⟨t, ht, _, _, hr⟩ := mem_targets_collect.mp (mem_targets.mpr ⟨s, hs, hr⟩)
    exact mem_states_collect.mpr (.inr (.inr ⟨t, ht, .inr hr⟩))

/-- Listed transitions always make an automaton. -/
theorem ofTransitions_eq (start : String) (accepting : List String)
    (transitions : List Transition) :
    ofTransitions start accepting transitions = .ok (collect start accepting transitions) := by
  have hfault : (collect start accepting transitions).fault? = none :=
    fault?_eq_none.mpr wellFormed_collect
  unfold ofTransitions make
  dsimp only
  unfold collect Delta.connectAll at hfault
  rw [hfault]
  rfl

/-! ### Chains -/

theorem path_collect {q r : String} {word : List Char} :
    (collect start accepting transitions).Path q word r ↔ Chain transitions q word r := by
  constructor
  · intro h
    induction h with
    | nil q => exact .nil q
    | cons hr _ ih =>
        obtain ⟨t, ht, rfl, rfl, htarget⟩ := mem_targets_collect.mp hr
        exact .cons ht htarget ih
  · intro h
    induction h with
    | nil q => exact .nil q
    | cons ht hr _ ih => exact .cons (mem_targets_collect.mpr ⟨_, ht, rfl, rfl, hr⟩) ih

theorem accepts_collect {word : List Char} :
    (collect start accepting transitions).accepts word = true ↔
      ∃ q ∈ accepting, Chain transitions start word q := by
  rw [accepts_iff_path wellFormed_collect]
  simp only [path_collect]
  simp [collect]

/-! ### Comparing -/

theorem collect_same {transitions' : List Transition} (h : ∀ t, t ∈ transitions' ↔ t ∈ transitions) :
    (collect start accepting transitions').same (collect start accepting transitions) = true := by
  refine same_iff.mpr ⟨?_, ?_, Delta.same_iff.mpr ⟨?_, ?_, ?_⟩, rfl, fun _ => Iff.rfl⟩
  · intro q
    simp only [mem_states_collect, h]
  · intro c
    simp only [mem_alphabet_collect, h]
  · intro q
    simp only [collect, Delta.mem_keys_connectAll, h]
  · intro q c
    simp only [collect, Delta.isSome_connectAll, h]
  · intro q c r
    simp only [collect, Delta.leads_connectAll, h]

/-- **Listed transitions make an automaton of exactly what they mention.**  Whatever the start state, the
accepting states and the transitions are, they make an automaton.  Its states are the names in the order in
which they are mentioned first, the start state in front, then accepting states, then sources and targets;
its alphabet are the symbols in the order in which they are used first.  The targets of a state on a symbol
are all that are listed for them, in the order in which they are listed first, and there is no entry at all
if no transition is listed.  It accepts the words of the chains of listed transitions from the start state
to an accepting one.  Neither the order of the transitions nor repetitions change it. -/
theorem ofTransitions_collects (start : String) (accepting : List String)
    (transitions : List Transition) :
    ∃ m, ofTransitions start accepting transitions = .ok m ∧
      (m.start = start ∧ m.accepting.toList = accepting.eraseDups ∧
        m.states.toList = (start :: accepting ++
          transitions.flatMap fun t => t.source :: t.targets).eraseDups ∧
        m.alphabet.toList = (transitions.map (·.symbol)).eraseDups) ∧
      (∀ q c, (¬ ∃ t ∈ transitions, t.source = q ∧ t.symbol = c) → m.targets? q c = none) ∧
      (∀ q c, (∃ t ∈ transitions, t.source = q ∧ t.symbol = c) →
        ∃ s, m.targets? q c = some s ∧ s.toList = (Delta.given transitions q c).eraseDups ∧
          ∀ r, r ∈ s ↔ ∃ t ∈ transitions, t.source = q ∧ t.symbol = c ∧ r ∈ t.targets) ∧
      (∀ word, m.accepts word = true ↔ ∃ q ∈ accepting, Chain transitions start word q) ∧
      ∀ transitions', (∀ t, t ∈ transitions' ↔ t ∈ transitions) →
        ∃ m', ofTransitions start accepting transitions' = .ok m' ∧ m'.same m = true := by
  refine ⟨_, ofTransitions_eq start accepting transitions, ?_, ?_, ?_, fun _ => accepts_collect, ?_⟩
  · exact ⟨rfl, OrdSet.toList_ofList _, OrdSet.toList_ofList _, OrdSet.toList_ofList _⟩
  · intro q c hnone
    rw [targets?_collect, if_neg hnone]
  · intro q c hlisted
    rw [targets?_collect, if_pos hlisted]
    exact ⟨_, rfl, OrdSet.toList_ofList _, fun r => OrdSet.mem_ofList.trans Delta.mem_given⟩
  · intro transitions' h
    exact ⟨_, ofTransitions_eq start accepting transitions', collect_same h⟩

/-- A start state that no transition mentions, a transition without targets and one that is listed
twice. -/
def loose : List Transition :=
  [⟨"A", 'a', ["B", "A"]⟩, ⟨"B", 'b', []⟩, ⟨"A", 'a', ["C"]⟩, ⟨"A", 'a', ["B", "A"]⟩]

/-- The same transitions in another order, each of them once. -/
def tidy : List Transition := [⟨"B", 'b', []⟩, ⟨"A", 'a', ["C"]⟩, ⟨"A", 'a', ["B", "A"]⟩]

theorem loose_collects :
    ∃ m, ofTransitions "S" ["C", "S", "C"] loose = .ok m ∧
      m.states.toList = ["S", "C", "A", "B"] ∧ m.targets? "S" 'a' = none ∧
      (∃ s, m.targets? "A" 'a' = some s ∧ s.toList = ["B", "A", "C"]) ∧
      (∃ s, m.targets? "B" 'b' = some s ∧ s.toList = []) ∧ m.accepts [] = true ∧
      ∃ m', ofTransitions "S" ["C", "S", "C"] tidy = .ok m' ∧ m'.same m = true := by
  obtain ⟨m, hm, ⟨_, _, hstates, _⟩, hnone, hsome, haccepts, hsame⟩ :=
    ofTransitions_collects "S" ["C", "S", "C"] loose
  obtain ⟨s, hs, hlist, _⟩ := hsome "A" 'a' (by decide)
  obtain ⟨s', hs', hlist', _⟩ := hsome "B" 'b' (by decide)
  have hperm : ∀ t, t ∈ tidy ↔ t ∈ loose := by
    intro t
    simp only [tidy, loose, List.mem_cons, List.not_mem_nil, or_false]
    tauto
  exact ⟨m, hm, hstates.trans (by decide), hnone "S" 'a' (by decide), ⟨s, hs, hlist.trans (by decide)⟩,
    ⟨s', hs', hlist'.trans (by decide)⟩, (haccepts []).mpr ⟨"S", by decide, .nil "S"⟩,
    hsame tidy hperm⟩

end Automaton
end RightLinear
