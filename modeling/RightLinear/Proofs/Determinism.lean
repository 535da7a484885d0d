import RightLinear.Proofs.Faithfulness
import RightLinear.Proofs.Generation
import RightLinear.Proofs.Turns

/-! # Determinism

An automaton is deterministic if no state has two targets on one symbol (`isDeterministic_iff`).  This local
count decides about all words: states that follow each other along a word are determined by the first of them
(`Visits.eq`), so the subset simulation never has more than one active state (`size_reach_le_one`).

The automaton of a grammar is deterministic exactly if alternatives of a nonterminal that begin with the same
terminal go on alike.  `A → a` beside `A → aB` is a conflict, since the accepting state is no nonterminal;
an alternative that is repeated is none.  In such a grammar the characters of a word tell which alternative
each step of its derivation has used (`replaces_unique`). -/

namespace RightLinear

/-! ### Automata -/

namespace Automaton

variable {m : Automaton}

theorem isDeterministic_iff : m.isDeterministic = true ↔
    ∀ q c, ∀ r ∈ m.targets q c, ∀ r' ∈ m.targets q c, r = r' := by
  have hcells : m.isDeterministic = true ↔ ∀ q c s, m.targets? q c = some s → s.size ≤ 1 := by
    simp only [isDeterministic, OrdMap.values, List.all_eq_true, List.forall_mem_map,
      decide_eq_true_eq, targets?_eq_some]
    constructor
    · rintro h q c s ⟨row, hrow, hcell⟩
      exact h (q, row) hrow (c, s) hcell
    · rintro h ⟨q, row⟩ hrow ⟨c, s⟩ hcell
      exact h q c s ⟨row, hrow, hcell⟩
  rw [hcells]
  constructor
  · intro h q c r hr r' hr'
    obtain ⟨s, hs, hr⟩ := mem_targets.mp hr
    obtain ⟨s', hs', hr'⟩ := mem_targets.mp hr'
    cases hs.symm.trans hs'
    exact OrdSet.size_le_one_iff.mp (h q c s hs) r hr r' hr'
  · intro h q c s hs
    refine OrdSet.size_le_one_iff.mpr fun r hr r' hr' => ?_
    exact h q c r (mem_targets.mpr ⟨s, hs, hr⟩) r' (mem_targets.mpr ⟨s, hs, hr'⟩)

theorem Visits.eq (hm : m.isDeterministic = true) {word : List Char} {q q' : ℕ → String}
    (hq : m.Visits q word) (hq' : m.Visits q' word) (h0 : q 0 = q' 0) :
    ∀ i ≤ word.length, q i = q' i := by
  intro i hi
  induction i with
  | zero => exact h0
  | succ i ih =>
      have hstep := hq' i hi
      rw [← ih (by omega)] at hstep
      exact isDeterministic_iff.mp hm _ _ _ (hq i hi) _ hstep

theorem size_reach_le_one (hm : m.isDeterministic = true) (q : String) (word : List Char) :
    (m.reach (OrdSet.singleton q) word).size ≤ 1 := by
  refine OrdSet.size_le_one_iff.mpr fun r hr r' hr' => ?_
  obtain ⟨p, hp, hpath⟩ := mem_reach.mp hr
  obtain ⟨p', hp', hpath'⟩ := mem_reach.mp hr'
  obtain ⟨f, h0, hf, rfl⟩ := path_iff_visits.mp hpath
  obtain ⟨f', h0', hf', rfl⟩ := path_iff_visits.mp hpath'
  have hstart : f 0 = f' 0 := by
    rw [h0, h0', OrdSet.mem_singleton.mp hp, OrdSet.mem_singleton.mp hp']
  exact hf.eq hm hf' hstart word.length (Nat.le_refl _)

theorem acceptsFrom_append (hm : m.WellFormed) (active : OrdSet String) (front rest : List Char) :
    m.acceptsFrom active (front ++ rest) = m.acceptsFrom (m.reach active front) rest := by
  have hreach : m.reach active (front ++ rest) = m.reach (m.reach active front) rest :=
    List.foldl_append
  rw [acceptsFrom_eq_any_reach hm, acceptsFrom_eq_any_reach hm, hreach]

end Automaton

/-! ### Grammars -/

namespace Grammar

/-- One step of a derivation, with the nonterminal that gives way and the alternative that takes its
place. -/
inductive Replaces (g : Grammar) : List Element → String × Production → List Element → Prop
  | mk {name : String} {p : Production} (before after : List Element) : p ∈ g.productionsOf name →
      Replaces g (before ++ .nonterminal name :: after) (name, p) (before ++ p.elements ++ after)

/-- The sentential form of some terminals and perhaps a nonterminal behind them. -/
def formOf (s : List Char × Option String) : List Element := sentential s.1 s.2

/-- The same step on what a sentential form shows, the terminals in front and the nonterminal behind. -/
inductive Extends (g : Grammar) : List Char × Option String → String × Production →
    List Char × Option String → Prop
  | mk {front : List Char} {name : String} {p : Production} : p ∈ g.productionsOf name →
      Extends g (front, some name) (name, p) (front ++ [p.terminal], p.next)

/-- Alternatives of a nonterminal with the same terminal go on alike. -/
def Deterministic (g : Grammar) : Prop :=
  ∀ name, ∀ p ∈ g.productionsOf name, ∀ p' ∈ g.productionsOf name,
    p.terminal = p'.terminal → p.next = p'.next

variable {g : Grammar}

/-- The automaton is deterministic exactly if the alternatives are. -/
theorem isDeterministic_toAutomaton (hg : g.Consistent) :
    g.toAutomaton.isDeterministic = true ↔ g.Deterministic := by
  rw [Automaton.isDeterministic_iff]
  simp only [mem_targets_toAutomaton]
  constructor
  · intro h name p hp p' hp' hterminal
    have htarget := h name p.terminal _ ⟨p, hp, rfl, rfl⟩ _ ⟨p', hp', hterminal.symm, rfl⟩
    exact next_eq_of_getD_eq (declared_of_mem_productionsOf hg hp).2.2
      (declared_of_mem_productionsOf hg hp').2.2 htarget
  · rintro h q c _ ⟨p, hp, rfl, rfl⟩ _ ⟨p', hp', hterminal, rfl⟩
    rw [h q p hp p' hp' hterminal.symm]

/-! ### Derivations -/

theorem rewrite_iff_replaces (hg : g.Consistent) {form next : List Element} :
    g.Rewrite form next ↔ ∃ step, g.Replaces form step next := by
  rw [rewrite_iff hg]
  constructor
  · rintro ⟨before, name, after, p, hp, rfl, rfl⟩
    exact ⟨(name, p), .mk before after hp⟩
  · rintro ⟨_, h⟩
    cases h with
    | mk before after hp => exact ⟨before, _, after, _, hp, rfl, rfl⟩

theorem replaces_formOf {s : List Char × Option String} {step : String × Production}
    {next : List Element} :
    g.Replaces (formOf s) step next ↔ ∃ s', next = formOf s' ∧ g.Extends s step s' := by
  obtain ⟨front, current⟩ := s
  constructor
  · intro h
    generalize hform : formOf (front, current) = form at h
    cases h with
    | mk before after hp =>
        obtain ⟨rfl, hcurrent, rfl⟩ := eq_of_append_eq_sentential hform.symm
        obtain rfl : current = some _ := hcurrent
        exact ⟨_, sentential_append_elements front _, .mk hp⟩
  · rintro ⟨s', rfl, h⟩
    cases h with
    | @mk front name p hp =>
        have hstep : g.Replaces (front.map .terminal ++ .nonterminal name :: []) (name, p) _ :=
          .mk (front.map .terminal) [] hp
        rw [sentential_append_elements] at hstep
        exact hstep

/-- A derivation of a word, step by step on the terminals in front and the nonterminal behind. -/
theorem run_replaces_iff {steps : List (String × Production)} {word : List Char} :
    Run g.Replaces steps [.nonterminal g.start] (word.map .terminal) ↔
      Run g.Extends steps ([], some g.start) (word, none) := by
  have hstart : [Element.nonterminal g.start] = formOf ([], some g.start) := rfl
  have hend : word.map Element.terminal = formOf (word, none) := by simp [formOf, sentential]
  have hruns : Run g.Replaces steps (formOf ([], some g.start)) (formOf (word, none)) ↔
      ∃ s, formOf (word, none) = formOf s ∧ Run g.Extends steps ([], some g.start) s :=
    Run.image_iff fun _ _ _ => replaces_formOf
  rw [hstart, hend, hruns]
  constructor
  · rintro ⟨⟨front, current⟩, heq, hrun⟩
    obtain ⟨rfl, rfl⟩ := sentential_injective heq
    exact hrun
  · intro hrun
    exact ⟨(word, none), rfl, hrun⟩

theorem front_of_run {steps : List (String × Production)} {s t : List Char × Option String}
    (h : Run g.Extends steps s t) : t.1 = s.1 ++ steps.map (·.2.terminal) := by
  induction h with
  | nil s => simp
  | cons hstep _ ih =>
      cases hstep with
      | mk _ => simp [ih]

theorem exists_run_extends {name : String} {word : List Char} (h : g.Derives name word)
    (front : List Char) :
    ∃ steps, Run g.Extends steps (front, some name) (front ++ word, none) := by
  induction h generalizing front with
  | @last name p hp hnext =>
      have hstep : g.Extends (front, some name) (name, p) (front ++ [p.terminal], p.next) := .mk hp
      rw [hnext] at hstep
      exact ⟨_, .cons hstep (.nil _)⟩
  | @more name next p word hp hnext _ ih =>
      have hstep : g.Extends (front, some name) (name, p) (front ++ [p.terminal], p.next) := .mk hp
      rw [hnext] at hstep
      obtain ⟨steps, hrun⟩ := ih (front ++ [p.terminal])
      rw [List.append_assoc, List.singleton_append] at hrun
      exact ⟨_, .cons hstep hrun⟩

theorem extends_unique (hg : g.Deterministic) (s : List Char × Option String)
    (a b : String × Production) (t u : List Char × Option String) (ha : g.Extends s a t)
    (hb : g.Extends s b u) (hterminal : a.2.terminal = b.2.terminal) : a = b ∧ t = u := by
  cases ha with
  | @mk front name p hp =>
      cases hb with
      | @mk _ _ p' hp' =>
          have hsame : p = p' := by
            have hnext := hg name p hp p' hp' hterminal
            cases p
            cases p'
            cases hnext
            cases hterminal
            rfl
          subst hsame
          exact ⟨rfl, rfl⟩

/-- In a deterministic grammar a word has one derivation at most. -/
theorem replaces_unique (hg : g.Deterministic) {steps steps' : List (String × Production)}
    {word : List Char} (h : Run g.Replaces steps [.nonterminal g.start] (word.map .terminal))
    (h' : Run g.Replaces steps' [.nonterminal g.start] (word.map .terminal)) : steps = steps' := by
  have hrun := run_replaces_iff.mp h
  have hrun' := run_replaces_iff.mp h'
  have hterminals : steps.map (·.2.terminal) = steps'.map (·.2.terminal) :=
    (front_of_run hrun).symm.trans (front_of_run hrun')
  exact (hrun.unique (·.2.terminal) (extends_unique hg) hrun' hterminals).1

/-! ### Determinism and what follows from it -/

/-- **What determinism is and what it gives.**  The automaton of a grammar is deterministic exactly if no
nonterminal has two alternatives with one terminal that go on differently.

In every valid automaton that is deterministic, the simulation goes on behind the front of a word from an
active set of one state at most, and along a word the start state is followed by one sequence of states at
most.  The steps of a derivation are the rewrites by the productions as written.  If the automaton of a grammar
is deterministic, every word that can be generated has exactly one derivation; derivations are told apart by
the nonterminals and alternatives of their steps, so an alternative that is repeated makes no difference. -/
theorem isDeterministic_consequences (hg : g.Built) :
    (g.toAutomaton.isDeterministic = true ↔
      ¬ ∃ name, ∃ p ∈ g.productionsOf name, ∃ p' ∈ g.productionsOf name,
        p.terminal = p'.terminal ∧ p.next ≠ p'.next) ∧
    (∀ m : Automaton, m.WellFormed → m.isDeterministic = true →
      (∀ front rest, (m.reach (.singleton m.start) front).size ≤ 1 ∧
        m.accepts (front ++ rest) = m.acceptsFrom (m.reach (.singleton m.start) front) rest) ∧
      ∀ word (q q' : ℕ → String), q 0 = m.start → m.Visits q word → q' 0 = m.start →
        m.Visits q' word → ∀ i ≤ word.length, q i = q' i) ∧
    (∀ form next, g.Rewrite form next ↔ ∃ step, g.Replaces form step next) ∧
    (g.toAutomaton.isDeterministic = true → ∀ limit source word,
      (g.generate limit source).1 = .ok word →
        ∃! steps, Run g.Replaces steps [.nonterminal g.start] (word.map .terminal)) := by
  have hc := hg.consistent
  refine ⟨?_, ?_, fun form next => rewrite_iff_replaces hc, ?_⟩
  · rw [isDeterministic_toAutomaton hc]
    constructor
    · rintro h ⟨name, p, hp, p', hp', hterminal, hnext⟩
      exact hnext (h name p hp p' hp' hterminal)
    · intro h name p hp p' hp' hterminal
      by_contra hnext
      exact h ⟨name, p, hp, p', hp', hterminal, hnext⟩
  · intro m hwell hm
    constructor
    · intro front rest
      exact ⟨Automaton.size_reach_le_one hm m.start front, Automaton.acceptsFrom_append hwell _ _ _⟩
    · intro word q q' h0 hq h0' hq'
      exact hq.eq hm hq' (h0.trans h0'.symm)
  · intro hdeterministic limit source word hword
    obtain ⟨steps, hrun⟩ := exists_run_extends (derives_of_generate hword).1 []
    rw [List.nil_append] at hrun
    have hsteps := run_replaces_iff.mpr hrun
    refine ⟨steps, hsteps, fun other hother => ?_⟩
    exact replaces_unique ((isDeterministic_toAutomaton hc).mp hdeterministic) hother hsteps

/-- `S` has the alternative `aA` twice, and `A` begins with both terminals. -/
def steady : Grammar where
  nonterminals := OrdSet.ofList ["S", "A"]
  terminals := OrdSet.ofList ['a', 'b']
  productions := mergeRules [("S", ["aA", "aA", "b"]), ("A", ["b", "aS"])]
  start := "S"
  weights := ∅
  limits := {}
  alternatives := ⟨[("S", [⟨'a', some "A"⟩, ⟨'a', some "A"⟩, ⟨'b', none⟩]),
    ("A", [⟨'b', none⟩, ⟨'a', some "S"⟩])], by decide⟩
  samplers := ∅

theorem steady_built : steady.Built := by
  have h : make ["S", "A"] ['a', 'b'] [("S", ["aA", "aA", "b"]), ("A", ["b", "aS"])] "S" =
      .ok steady := by decide
  exact .make h

/-- The word `ab` of `steady` has one derivation; in `crowded` the alternatives `aB` and `a` of `S` are in
conflict. -/
theorem steady_consequences : steady.Built ∧ crowded.Built ∧
    steady.toAutomaton.isDeterministic = true ∧ ¬ crowded.toAutomaton.isDeterministic = true ∧
    steady.toAutomaton.WellFormed ∧
    (steady.toAutomaton.reach (.singleton "S") ['a', 'a']).size ≤ 1 ∧
    (∀ i ≤ 2, ["S", "A", "FINAL"].getD i "S" = ["S", "A", "FINAL"].getD i "A") ∧
    (steady.generate 5 (.ofWords [])).1 = .ok ['a', 'b'] ∧
    ∃! steps, Run steady.Replaces steps [.nonterminal "S"] [.terminal 'a', .terminal 'b'] := by
  have hdeterministic : steady.toAutomaton.isDeterministic = true := by decide
  have hwell := wellFormed_toAutomaton steady_built.consistent
  have hword : (steady.generate 5 (.ofWords [])).1 = .ok ['a', 'b'] := by decide
  obtain ⟨_, hautomata, _, hunique⟩ := isDeterministic_consequences steady_built
  obtain ⟨hactive, hvisits⟩ := hautomata steady.toAutomaton hwell hdeterministic
  have hconflict := (isDeterministic_consequences crowded_built).1.not.mpr (not_not.mpr
    ⟨"S", ⟨'a', some "B"⟩, by decide, ⟨'a', none⟩, by decide, by decide⟩)
  refine ⟨steady_built, crowded_built, hdeterministic, hconflict, hwell, (hactive ['a', 'a'] []).1, ?_,
    hword, hunique hdeterministic 5 (.ofWords []) ['a', 'b'] hword⟩
  exact hvisits ['a', 'b'] (fun i => ["S", "A", "FINAL"].getD i "S")
    (fun i => ["S", "A", "FINAL"].getD i "A") rfl (by unfold Automaton.Visits; decide) rfl
    (by unfold Automaton.Visits; decide)

end Grammar
end RightLinear
