import RightLinear.Definition.Basic
import RightLinear.Proofs.Conversions
import RightLinear.Proofs.RunningSums

/-! # What construction guarantees

`Built` are the grammars that the library hands out: made of declarations and rules, then given
other limits and other weights any number of times.  Definitions, whether read from a text or put
together step by step, lead to no others (`built_of_toGrammar`).

`Consistent` is the invariant of construction: alternatives and samplers are what reading the rules
and preparing the weights gives, without a fault.  `make_eq_ok` and `withWeights_eq_ok` say all that
the two operations can do, `mem_productionsOf` what the alternatives of a nonterminal are, and
`toGrammar_ofGrammar` that a grammar is built again from its own definition. -/

namespace RightLinear.Grammar

/-- The grammars that are made and then given limits and weights. -/
inductive Built : Grammar → Prop
  | make {nonterminals : List String} {terminals : List Char}
      {rules : List (String × List String)} {start : String} {g : Grammar} :
      Grammar.make nonterminals terminals rules start = .ok g → Built g
  | withLimits {g : Grammar} (limits : Limits) : Built g → Built (g.withLimits limits)
  | withWeights {g h : Grammar} {weights : Weights} :
      Built g → g.withWeights weights = .ok h → Built h

/-- The components agree with each other. -/
structure Consistent (g : Grammar) : Prop where
  start_mem : g.start ∈ g.nonterminals
  unshared : sharedName? g.nonterminals g.terminals = none
  /-- The alternatives are the productions as read. -/
  read : g.productions.traverse (readRule g.nonterminals g.terminals) = .ok g.alternatives
  weighed : g.weights.entries.findSome? g.weightFault? = none
  /-- The samplers are those of the weighted nonterminals. -/
  sampled : (g.productions.filter fun name _ => g.weights.isWeighted name).traverse
    (makeSampler g.weights) = .ok g.samplers

/-! ### Making a grammar -/

theorem mergeRules_entries (m : OrdMap String (List String)) : mergeRules m.entries = m :=
  m.foldl_alter (fun _ => []) (fun new old => old ++ new) fun v => List.nil_append v

/-- All that `make` can hand out. -/
theorem make_eq_ok {nonterminals : List String} {terminals : List Char}
    {rules : List (String × List String)} {start : String} {g : Grammar} :
    make nonterminals terminals rules start = .ok g ↔
      start ∈ OrdSet.ofList nonterminals ∧
      sharedName? (OrdSet.ofList nonterminals) (OrdSet.ofList terminals) = none ∧
      ∃ alternatives, (mergeRules rules).traverse
          (readRule (OrdSet.ofList nonterminals) (OrdSet.ofList terminals)) = .ok alternatives ∧
        g = ⟨OrdSet.ofList nonterminals, OrdSet.ofList terminals, mergeRules rules, start, ∅, {},
          alternatives, ∅⟩ := by
  unfold make
  dsimp only
  by_cases hs : start ∈ OrdSet.ofList nonterminals
  · rw [if_pos hs]
    cases hn : sharedName? (OrdSet.ofList nonterminals) (OrdSet.ofList terminals) with
    | some t => simp
    | none =>
        cases ht : (mergeRules rules).traverse
            (readRule (OrdSet.ofList nonterminals) (OrdSet.ofList terminals)) with
        | error fault => simp
        | ok alternatives => simp [OrdSet.mem_ofList.mp hs, eq_comm]
  · rw [if_neg hs]
    simp [mt OrdSet.mem_ofList.mpr hs]

theorem traverse_unweighted (productions : OrdMap String (List String)) :
    (productions.filter fun name _ => (∅ : Weights).isWeighted name).traverse (makeSampler ∅) =
      .ok ∅ := by
  have h : (productions.filter fun name _ => (∅ : Weights).isWeighted name).entries = [] :=
    List.filter_eq_nil_iff.mpr fun _ _ => Bool.false_ne_true
  rw [OrdMap.traverse_eq_ok, h]
  rfl

theorem consistent_of_make {nonterminals : List String} {terminals : List Char}
    {rules : List (String × List String)} {start : String} {g : Grammar}
    (h : make nonterminals terminals rules start = .ok g) : g.Consistent := by
  obtain ⟨hs, hn, alternatives, ha, rfl⟩ := make_eq_ok.mp h
  exact ⟨hs, hn, ha, rfl, traverse_unweighted _⟩

/-! ### Limits and weights -/

theorem withWeights_eq_ok {g h : Grammar} {weights : Weights} :
    g.withWeights weights = .ok h ↔
      weights.entries.findSome? g.weightFault? = none ∧
      ∃ samplers, (g.productions.filter fun name _ => weights.isWeighted name).traverse
          (makeSampler weights) = .ok samplers ∧
        h = { g with weights, samplers } := by
  unfold withWeights
  cases hw : weights.entries.findSome? g.weightFault? with
  | some fault => simp
  | none =>
      cases ht : (g.productions.filter fun name _ => weights.isWeighted name).traverse
          (makeSampler weights) with
      | error fault => simp [ht]
      | ok samplers => simp [ht, eq_comm]

theorem Consistent.withLimits {g : Grammar} (hg : g.Consistent) (limits : Limits) :
    (g.withLimits limits).Consistent :=
  ⟨hg.start_mem, hg.unshared, hg.read, hg.weighed, hg.sampled⟩

theorem Consistent.withWeights {g h : Grammar} {weights : Weights} (hg : g.Consistent)
    (hw : g.withWeights weights = .ok h) : h.Consistent := by
  obtain ⟨hf, samplers, hs, rfl⟩ := withWeights_eq_ok.mp hw
  exact ⟨hg.start_mem, hg.unshared, hg.read, hf, hs⟩

/-- Whatever has been done to a grammar, its components agree. -/
theorem Built.consistent {g : Grammar} (hg : g.Built) : g.Consistent := by
  induction hg with
  | make h => exact consistent_of_make h
  | withLimits limits _ ih => exact ih.withLimits limits
  | withWeights _ hw ih => exact ih.withWeights hw

theorem one_le_iff_ne_zero {w : UInt32} : 1 ≤ w ↔ w ≠ 0 := by
  grind

theorem weightFault?_eq_none {g : Grammar} {e : Weights.Entry} :
    g.weightFault? e = none ↔ ∃ rule, g.productions.get? e.nonterminal = some rule ∧
      e.alternative ∈ rule ∧ e.weight ≠ 0 := by
  unfold weightFault?
  cases g.productions.get? e.nonterminal with
  | none => simp
  | some rule =>
      by_cases ha : e.alternative ∈ rule <;> by_cases hw : e.weight = 0 <;> simp [ha, hw]

theorem weightOf_ne_zero_of_entries {weights : Weights} (h : ∀ e ∈ weights.entries, e.weight ≠ 0)
    (name alternative : String) : weights.weightOf name alternative ≠ 0 := by
  unfold Weights.weightOf
  cases hw : (weights.table.get? name).bind fun row => row.get? alternative with
  | none => decide
  | some n => exact h ⟨name, alternative, n⟩ (weights.mem_entries.mpr hw)

theorem weightOf_ne_zero {g : Grammar} (hg : g.Consistent) (name alternative : String) :
    g.weights.weightOf name alternative ≠ 0 := by
  refine weightOf_ne_zero_of_entries (fun e he => ?_) name alternative
  obtain ⟨_, _, _, hn⟩ := weightFault?_eq_none.mp (List.findSome?_eq_none_iff.mp hg.weighed e he)
  exact hn

/-- What is made of the weights of a rule, by their exact sum. -/
theorem makeSampler_eq (weights : Weights) (name : String) (rule : List String) :
    makeSampler weights name rule =
      if UInt32.size ≤ Sampler.total ⟨rule.map (weights.weightOf name)⟩ then
        .error (.weightOverflow name)
      else if rule = [] then .error (.emptyRow name)
      else if Sampler.total ⟨rule.map (weights.weightOf name)⟩ = 0 then .error (.zeroRow name)
      else .ok ⟨rule.map (weights.weightOf name)⟩ := by
  unfold makeSampler
  dsimp only
  by_cases hover : UInt32.size ≤ Sampler.total ⟨rule.map (weights.weightOf name)⟩
  · rw [if_pos hover, Sampler.checkedSum_eq_none.mpr hover]
  · obtain ⟨sum, hsum⟩ := Option.ne_none_iff_exists'.mp (mt Sampler.checkedSum_eq_none.mp hover)
    rw [if_neg hover, hsum]
    dsimp only
    by_cases hrule : rule = []
    · subst hrule
      rfl
    · have hrow : rule.map (weights.weightOf name) ≠ [] := mt List.map_eq_nil_iff.mp hrule
      rw [if_neg hrule]
      by_cases hzero : Sampler.total ⟨rule.map (weights.weightOf name)⟩ = 0
      · rw [if_pos hzero, Sampler.runningSums_eq_allZero hrow hzero]
        rfl
      · obtain ⟨sums, last, hsums, _⟩ :=
          Sampler.exists_runningSums (Nat.pos_of_ne_zero hzero) (Nat.lt_of_not_le hover)
        rw [if_neg hzero, hsums]

section

variable {weights : Weights} {name : String} (hw : ∀ text, weights.weightOf name text ≠ 0)
include hw

theorem total_weightOf_pos {rule : List String} (hrule : rule ≠ []) :
    0 < Sampler.total ⟨rule.map (weights.weightOf name)⟩ := by
  apply Sampler.total_pos
  · intro w hmem
    obtain ⟨text, _, rfl⟩ := List.mem_map.mp hmem
    exact hw text
  · exact mt List.map_eq_nil_iff.mp hrule

theorem makeSampler_of_ne_zero (rule : List String) :
    makeSampler weights name rule =
      if UInt32.size ≤ Sampler.total ⟨rule.map (weights.weightOf name)⟩ then
        .error (.weightOverflow name)
      else if rule = [] then .error (.emptyRow name)
      else .ok ⟨rule.map (weights.weightOf name)⟩ := by
  rw [makeSampler_eq]
  by_cases hrule : rule = []
  · rw [if_pos hrule, if_pos hrule]
  · rw [if_neg hrule, if_neg hrule, if_neg (Nat.ne_of_gt (total_weightOf_pos hw hrule))]

theorem makeSampler_eq_ok {rule : List String} {s : Sampler} :
    makeSampler weights name rule = .ok s ↔
      s.row = rule.map (weights.weightOf name) ∧ s.total < UInt32.size ∧ rule ≠ [] := by
  obtain ⟨row⟩ := s
  rw [makeSampler_of_ne_zero hw]
  split
  · next h =>
    simp only [reduceCtorEq, false_iff, not_and]
    rintro rfl hlt
    omega
  · next h =>
    split
    · next hr => simp [hr]
    · next hr =>
      simp only [Except.ok.injEq, Sampler.mk.injEq]
      constructor
      · rintro rfl
        exact ⟨rfl, Nat.lt_of_not_le h, hr⟩
      · rintro ⟨rfl, _⟩
        rfl

end

theorem get?_samplers {g : Grammar} (hg : g.Consistent) {name : String} {s : Sampler} :
    g.samplers.get? name = some s ↔ ∃ rule, g.productions.get? name = some rule ∧
      g.weights.isWeighted name = true ∧ s.row = rule.map (g.weights.weightOf name) ∧
      s.total < UInt32.size ∧ rule ≠ [] := by
  rw [OrdMap.get?_traverse hg.sampled]
  simp only [OrdMap.get?_filter, Option.filter_eq_some_iff, and_assoc,
    makeSampler_eq_ok (weightOf_ne_zero hg name)]

theorem row_ne_zero {g : Grammar} (hg : g.Consistent) {name : String} {s : Sampler}
    (hs : g.samplers.get? name = some s) : ∀ w ∈ s.row, w ≠ 0 := by
  obtain ⟨rule, _, _, hrow, _⟩ := (get?_samplers hg).mp hs
  rw [hrow]
  intro w hw
  obtain ⟨text, _, rfl⟩ := List.mem_map.mp hw
  exact weightOf_ne_zero hg name text

/-! ### Definitions -/

theorem built_of_toGrammar {d : Definition} {g : Grammar} (h : d.toGrammar = .ok g) : g.Built := by
  unfold Definition.toGrammar at h
  split at h
  · cases h
  · next hm => exact .withWeights (.withLimits d.limits (.make hm)) h

/-- A grammar is built again from its own definition. -/
theorem toGrammar_ofGrammar {g : Grammar} (hg : g.Consistent) :
    (Definition.ofGrammar g).toGrammar = .ok g := by
  have hm : make g.nonterminals.toList g.terminals.toList g.productions.entries g.start =
      .ok ⟨g.nonterminals, g.terminals, g.productions, g.start, ∅, {}, g.alternatives, ∅⟩ := by
    rw [make_eq_ok, OrdSet.ofList_toList, OrdSet.ofList_toList, mergeRules_entries]
    exact ⟨hg.start_mem, hg.unshared, g.alternatives, hg.read, rfl⟩
  unfold Definition.toGrammar Definition.ofGrammar
  rw [hm]
  exact withWeights_eq_ok.mpr ⟨hg.weighed, g.samplers, hg.sampled, rfl⟩

/-! ### Alternatives as written and as read -/

/-- A right-hand side reads as a declared terminal, alone or before a declared nonterminal with a
name of one character. -/
theorem readAlternative_eq_ok {nonterminals : OrdSet String} {terminals : OrdSet Char}
    {text : String} {p : Production} :
    readAlternative nonterminals terminals text = .ok p ↔
      p.terminal ∈ terminals ∧
      (text.toList = [p.terminal] ∧ p.next = none ∨
        ∃ n, text.toList = [p.terminal, n] ∧ String.singleton n ∈ nonterminals ∧
          p.next = some (String.singleton n)) := by
  obtain ⟨terminal, next⟩ := p
  unfold readAlternative
  cases htext : text.toList with
  | nil => simp
  | cons t rest =>
      dsimp only
      by_cases ht : t ∈ terminals
      · rw [if_pos ht]
        match rest with
        | [] => grind
        | [n] =>
            dsimp only
            by_cases hn : String.singleton n ∈ nonterminals
            · rw [if_pos hn]
              grind
            · rw [if_neg hn]
              grind
        | _ :: _ :: _ => simp
      · rw [if_neg ht]
        grind

theorem get?_alternatives {g : Grammar} (hg : g.Consistent) {name : String}
    {ps : List Production} :
    g.alternatives.get? name = some ps ↔ ∃ rule, g.productions.get? name = some rule ∧
      name ∈ g.nonterminals ∧
      rule.mapM (readAlternative g.nonterminals g.terminals) = .ok ps := by
  rw [OrdMap.get?_traverse hg.read]
  constructor
  · rintro ⟨rule, hrule, h⟩
    unfold readRule at h
    split at h
    · next hname => exact ⟨rule, hrule, hname, h⟩
    · cases h
  · rintro ⟨rule, hrule, hname, h⟩
    exact ⟨rule, hrule, (if_pos hname).trans h⟩

theorem exists_alternatives {g : Grammar} (hg : g.Consistent) {name : String} {rule : List String}
    (hrule : g.productions.get? name = some rule) :
    ∃ ps, g.alternatives.get? name = some ps ∧
      rule.mapM (readAlternative g.nonterminals g.terminals) = .ok ps := by
  have hkey : name ∈ g.alternatives.keys := by
    rw [OrdMap.keys_traverse hg.read]
    exact OrdMap.mem_keys.mpr ⟨rule, hrule⟩
  obtain ⟨ps, hps⟩ := OrdMap.mem_keys.mp hkey
  obtain ⟨rule', hrule', _, hread⟩ := (get?_alternatives hg).mp hps
  obtain rfl : rule = rule' := Option.some.inj (hrule.symm.trans hrule')
  exact ⟨ps, hps, hread⟩

theorem mapM_readAlternative {g : Grammar} (hg : g.Consistent) {name : String} {rule : List String}
    (hrule : g.productions.get? name = some rule) :
    rule.mapM (readAlternative g.nonterminals g.terminals) = .ok (g.productionsOf name) := by
  obtain ⟨ps, hps, hread⟩ := exists_alternatives hg hrule
  rw [productionsOf, hps]
  exact hread

theorem length_productionsOf {g : Grammar} (hg : g.Consistent) {name : String} {rule : List String}
    (hrule : g.productions.get? name = some rule) :
    (g.productionsOf name).length = rule.length :=
  (mapM_eq_ok.mp (mapM_readAlternative hg hrule)).length_eq.symm

theorem exists_production {g : Grammar} (hg : g.Consistent) {name text : String}
    {rule : List String} (hrule : g.productions.get? name = some rule) (htext : text ∈ rule) :
    ∃ p ∈ g.productionsOf name, readAlternative g.nonterminals g.terminals text = .ok p :=
  exists_mem_of_forall₂ (mapM_eq_ok.mp (mapM_readAlternative hg hrule)) htext

/-- The alternatives of a nonterminal are its right-hand sides as read. -/
theorem mem_productionsOf {g : Grammar} (hg : g.Consistent) {name : String} {p : Production} :
    p ∈ g.productionsOf name ↔ ∃ rule, g.productions.get? name = some rule ∧
      ∃ text ∈ rule, readAlternative g.nonterminals g.terminals text = .ok p := by
  constructor
  · intro hp
    unfold productionsOf at hp
    cases hps : g.alternatives.get? name with
    | none =>
        rw [hps] at hp
        cases hp
    | some ps =>
        rw [hps] at hp
        obtain ⟨rule, hrule, _, hread⟩ := (get?_alternatives hg).mp hps
        obtain ⟨text, htext, h⟩ := exists_mem_of_forall₂ (mapM_eq_ok.mp hread).flip hp
        exact ⟨rule, hrule, text, htext, h⟩
  · rintro ⟨rule, hrule, text, htext, h⟩
    obtain ⟨p', hp', h'⟩ := exists_production hg hrule htext
    cases h.symm.trans h'
    exact hp'

theorem declared_of_mem_productionsOf {g : Grammar} (hg : g.Consistent) {name : String}
    {p : Production} (hp : p ∈ g.productionsOf name) :
    name ∈ g.nonterminals ∧ p.terminal ∈ g.terminals ∧
      ∀ next, p.next = some next → next ∈ g.nonterminals := by
  have hname : name ∈ g.nonterminals := by
    unfold productionsOf at hp
    cases hps : g.alternatives.get? name with
    | none => rw [hps] at hp; cases hp
    | some ps =>
        obtain ⟨_, _, hname, _⟩ := (get?_alternatives hg).mp hps
        exact hname
  obtain ⟨_, _, _, _, hread⟩ := (mem_productionsOf hg).mp hp
  obtain ⟨ht, hnext⟩ := readAlternative_eq_ok.mp hread
  refine ⟨hname, ht, ?_⟩
  intro next hn
  rcases hnext with ⟨_, hnone⟩ | ⟨x, _, hx, hsome⟩
  · rw [hnone] at hn
    cases hn
  · rw [hsome] at hn
    cases hn
    exact hx

end RightLinear.Grammar
