import RightLinear.Ordered.Fold
import RightLinear.Proofs.Construction

/-! # Which declarations make a grammar

A grammar is made of declared nonterminals and terminals, rules and a start symbol.  The rules of one
nonterminal are united first, in the order in which they are given (`merged`), and then checked: the start
symbol, the terminals that are names of nonterminals as well, and the united rules, each left-hand side
before its right-hand sides.

`Fitting` says what the check asks for, and `FirstFault` which fault is the first.  `make_cases` says that
nothing else is asked for, that what is made is what was declared, and that no other fault is reported. -/

namespace RightLinear.Grammar

/-! ### What is asked for -/

section
variable (nonterminals : List String) (terminals : List Char)

/-- A right-hand side is one declared terminal, alone or in front of one character that is a declared
nonterminal. -/
def Fitting (text : String) : Prop :=
  ∃ t ∈ terminals, text.toList = [t] ∨
    ∃ x, text.toList = [t, x] ∧ String.singleton x ∈ nonterminals

/-- A declared nonterminal with right-hand sides that fit. -/
def FittingRule (rule : String × List String) : Prop :=
  rule.1 ∈ nonterminals ∧ ∀ text ∈ rule.2, Fitting nonterminals terminals text

/-- What is wrong with a right-hand side. -/
inductive TextFault (text : String) : Fault → Prop
  | empty : text.toList = [] → TextFault text .emptyAlternative
  | noTerminal {t : Char} {rest : List Char} :
      text.toList = t :: rest → ¬ t ∈ terminals → TextFault text (.noTerminal text)
  | undeclaredNext {t x : Char} : text.toList = [t, x] → t ∈ terminals →
      ¬ String.singleton x ∈ nonterminals → TextFault text (.undeclaredNext text)
  | tooLong {t x y : Char} {rest : List Char} :
      text.toList = t :: x :: y :: rest → t ∈ terminals → TextFault text (.tooLong text)

/-- What is wrong with a rule: its left-hand side, or else the first of its right-hand sides that does
not fit. -/
inductive RuleFault : String × List String → Fault → Prop
  | undeclaredLeft {name : String} {rule : List String} :
      ¬ name ∈ nonterminals → RuleFault (name, rule) (.undeclaredLeft name)
  | text {name text : String} {before after : List String} {fault : Fault} :
      name ∈ nonterminals → (∀ text ∈ before, Fitting nonterminals terminals text) →
      TextFault nonterminals terminals text fault → RuleFault (name, before ++ text :: after) fault

end

/-- The rules with those of one nonterminal united: a nonterminal stands where it stands first, with all
its right-hand sides in order. -/
def merged (rules : List (String × List String)) : List (String × List String) :=
  (rules.map Prod.fst).eraseDups.map fun name =>
    (name, (rules.filter fun rule => rule.1 = name).flatMap Prod.snd)

/-- The first fault of a description. -/
inductive FirstFault (nonterminals : List String) (terminals : List Char)
    (rules : List (String × List String)) (start : String) : Fault → Prop
  | undeclaredStart : ¬ start ∈ nonterminals →
      FirstFault nonterminals terminals rules start (.undeclaredStart start)
  | sharedName {before after : List Char} {t : Char} : start ∈ nonterminals →
      terminals = before ++ t :: after → (∀ c ∈ before, ¬ String.singleton c ∈ nonterminals) →
      String.singleton t ∈ nonterminals →
      FirstFault nonterminals terminals rules start (.sharedName t)
  | rule {before after : List (String × List String)} {rule : String × List String} {fault : Fault} :
      start ∈ nonterminals → (∀ c ∈ terminals, ¬ String.singleton c ∈ nonterminals) →
      merged rules = before ++ rule :: after →
      (∀ earlier ∈ before, FittingRule nonterminals terminals earlier) →
      RuleFault nonterminals terminals rule fault →
      FirstFault nonterminals terminals rules start fault

/-- The right-hand side is the spelling of the alternative. -/
def Spells (text : String) (p : Production) : Prop :=
  text.toList = [p.terminal] ∧ p.next = none ∨
    ∃ x, text.toList = [p.terminal, x] ∧ p.next = some (String.singleton x)

/-! ### Uniting the rules -/

theorem keys_mergeRules (rules : List (String × List String)) :
    (mergeRules rules).keys = (rules.map Prod.fst).eraseDups := by
  unfold mergeRules
  exact OrdMap.keys_foldl_alter_empty Prod.fst (fun _ => []) (fun rule old => old ++ rule.2) rules

/-- Uniting the rules lists them as `merged` does. -/
theorem entries_mergeRules (rules : List (String × List String)) :
    (mergeRules rules).entries = merged rules := by
  have hvalues : ∀ name ∈ (mergeRules rules).keys, (mergeRules rules).get? name =
      some ((rules.filter fun rule => rule.1 = name).flatMap Prod.snd) := by
    intro name hname
    rw [keys_mergeRules, List.mem_eraseDups] at hname
    unfold mergeRules
    rw [List.flatMap_eq_foldl]
    exact OrdMap.get?_foldl_alter_empty Prod.fst [] (fun rule old => old ++ rule.2) hname
  rw [OrdMap.entries_eq_map hvalues, keys_mergeRules]
  rfl

/-! ### One right-hand side -/

variable {nonterminals : List String} {terminals : List Char}

theorem exists_readAlternative {text : String} :
    (∃ p, readAlternative (OrdSet.ofList nonterminals) (OrdSet.ofList terminals) text = .ok p) ↔
      Fitting nonterminals terminals text := by
  simp only [readAlternative_eq_ok, OrdSet.mem_ofList]
  constructor
  · rintro ⟨p, ht, ⟨htext, _⟩ | ⟨x, htext, hx, _⟩⟩
    · exact ⟨p.terminal, ht, .inl htext⟩
    · exact ⟨p.terminal, ht, .inr ⟨x, htext, hx⟩⟩
  · rintro ⟨t, ht, htext | ⟨x, htext, hx⟩⟩
    · exact ⟨⟨t, none⟩, ht, .inl ⟨htext, rfl⟩⟩
    · exact ⟨⟨t, some (String.singleton x)⟩, ht, .inr ⟨x, htext, hx, rfl⟩⟩

theorem readAlternative_eq_error {text : String} {fault : Fault} :
    readAlternative (OrdSet.ofList nonterminals) (OrdSet.ofList terminals) text = .error fault ↔
      TextFault nonterminals terminals text fault := by
  unfold readAlternative
  constructor
  · intro h
    split at h
    · next htext =>
      cases h
      exact .empty htext
    · next t rest htext =>
      split at h
      · next ht =>
        rw [OrdSet.mem_ofList] at ht
        split at h
        · cases h
        · next x =>
          split at h
          · cases h
          · next hx =>
            cases h
            exact .undeclaredNext htext ht (mt OrdSet.mem_ofList.mpr hx)
        · next x y rest =>
          cases h
          exact .tooLong htext ht
      · next ht =>
        cases h
        exact .noTerminal htext (mt OrdSet.mem_ofList.mpr ht)
  · intro h
    cases h with
    | empty htext => rw [htext]
    | noTerminal htext ht =>
        rw [htext]
        exact if_neg (mt OrdSet.mem_ofList.mp ht)
    | undeclaredNext htext ht hx =>
        rw [htext]
        dsimp only
        rw [if_pos (OrdSet.mem_ofList.mpr ht), if_neg (mt OrdSet.mem_ofList.mp hx)]
    | tooLong htext ht =>
        rw [htext]
        exact if_pos (OrdSet.mem_ofList.mpr ht)

/-! ### One rule -/

theorem exists_readRule {name : String} {rule : List String} :
    (∃ ps, readRule (OrdSet.ofList nonterminals) (OrdSet.ofList terminals) name rule = .ok ps) ↔
      FittingRule nonterminals terminals (name, rule) := by
  unfold readRule FittingRule
  by_cases hname : name ∈ OrdSet.ofList nonterminals
  · simp only [if_pos hname, exists_mapM, exists_readAlternative, OrdSet.mem_ofList.mp hname, true_and]
  · simp only [if_neg hname, mt OrdSet.mem_ofList.mpr hname, reduceCtorEq, exists_false, false_and]

theorem readRule_eq_error {name : String} {rule : List String} {fault : Fault} :
    readRule (OrdSet.ofList nonterminals) (OrdSet.ofList terminals) name rule = .error fault ↔
      RuleFault nonterminals terminals (name, rule) fault := by
  unfold readRule
  constructor
  · intro h
    split at h
    · next hname =>
      obtain ⟨before, text, after, rfl, hbefore, hfault⟩ := mapM_eq_error.mp h
      refine .text (OrdSet.mem_ofList.mp hname) ?_ (readAlternative_eq_error.mp hfault)
      exact fun text ht => exists_readAlternative.mp (hbefore text ht)
    · next hname =>
      cases h
      exact .undeclaredLeft (mt OrdSet.mem_ofList.mpr hname)
  · intro h
    cases h with
    | undeclaredLeft hname => exact if_neg (mt OrdSet.mem_ofList.mp hname)
    | @text _ text before after _ hname hbefore hfault =>
        rw [if_pos (OrdSet.mem_ofList.mpr hname)]
        refine mapM_eq_error.mpr ⟨before, text, after, rfl, ?_, readAlternative_eq_error.mpr hfault⟩
        exact fun text ht => exists_readAlternative.mpr (hbefore text ht)

/-! ### Terminals that are names of nonterminals -/

theorem sharedName?_eq_none :
    sharedName? (OrdSet.ofList nonterminals) (OrdSet.ofList terminals) = none ↔
      ∀ c ∈ terminals, ¬ String.singleton c ∈ nonterminals := by
  unfold sharedName?
  rw [OrdSet.toList_ofList, OrdSet.find?_eraseDups]
  simp

theorem sharedName?_eq_some {t : Char} :
    sharedName? (OrdSet.ofList nonterminals) (OrdSet.ofList terminals) = some t ↔
      ∃ before after, terminals = before ++ t :: after ∧
        (∀ c ∈ before, ¬ String.singleton c ∈ nonterminals) ∧ String.singleton t ∈ nonterminals := by
  unfold sharedName?
  rw [OrdSet.toList_ofList, OrdSet.find?_eraseDups, List.find?_eq_some_iff_append]
  simp only [OrdSet.contains_eq_true, OrdSet.mem_ofList, Bool.not_eq_true', ← Bool.not_eq_true]
  constructor
  · rintro ⟨ht, before, after, heq, hbefore⟩
    exact ⟨before, after, heq, hbefore, ht⟩
  · rintro ⟨before, after, heq, hbefore, ht⟩
    exact ⟨ht, before, after, heq, hbefore⟩

/-! ### All rules -/

theorem mem_merged {rules : List (String × List String)} {name : String} {rule : List String} :
    (name, rule) ∈ merged rules ↔ name ∈ rules.map Prod.fst ∧
      rule = (rules.filter fun rule => rule.1 = name).flatMap Prod.snd := by
  simp only [merged, List.mem_map, List.mem_eraseDups, Prod.mk.injEq]
  constructor
  · rintro ⟨name, hname, rfl, rfl⟩
    exact ⟨hname, rfl⟩
  · rintro ⟨hname, rfl⟩
    exact ⟨name, hname, rfl, rfl⟩

theorem forall_merged {rules : List (String × List String)} :
    (∀ rule ∈ merged rules, FittingRule nonterminals terminals rule) ↔
      ∀ rule ∈ rules, FittingRule nonterminals terminals rule := by
  constructor
  · rintro h ⟨name, rule⟩ hrule
    have hname : name ∈ rules.map Prod.fst := List.mem_map.mpr ⟨_, hrule, rfl⟩
    obtain ⟨hdeclared, hfits⟩ := h _ (mem_merged.mpr ⟨hname, rfl⟩)
    refine ⟨hdeclared, fun text htext => hfits text ?_⟩
    exact List.mem_flatMap.mpr ⟨_, List.mem_filter.mpr ⟨hrule, decide_eq_true rfl⟩, htext⟩
  · rintro h ⟨name, rule⟩ hmerged
    obtain ⟨hname, rfl⟩ := mem_merged.mp hmerged
    obtain ⟨first, hfirst, rfl⟩ := List.mem_map.mp hname
    refine ⟨(h first hfirst).1, fun text htext => ?_⟩
    obtain ⟨rule, hrule, htext⟩ := List.mem_flatMap.mp htext
    exact (h rule (List.mem_filter.mp hrule).1).2 text htext

theorem exists_traverse_readRule {rules : List (String × List String)} :
    (∃ alternatives, (mergeRules rules).traverse
        (readRule (OrdSet.ofList nonterminals) (OrdSet.ofList terminals)) = .ok alternatives) ↔
      ∀ rule ∈ rules, FittingRule nonterminals terminals rule := by
  rw [OrdMap.exists_traverse, ← forall_merged, ← entries_mergeRules]
  simp only [exists_readRule, OrdMap.get?_eq_some, Prod.forall]

theorem traverse_readRule_eq_error {rules : List (String × List String)} {fault : Fault} :
    (mergeRules rules).traverse
        (readRule (OrdSet.ofList nonterminals) (OrdSet.ofList terminals)) = .error fault ↔
      ∃ before rule after, merged rules = before ++ rule :: after ∧
        (∀ earlier ∈ before, FittingRule nonterminals terminals earlier) ∧
        RuleFault nonterminals terminals rule fault := by
  rw [OrdMap.traverse_eq_error, entries_mergeRules]
  simp only [exists_readRule, readRule_eq_error, Prod.exists]

/-! ### The whole description -/

theorem exists_make {rules : List (String × List String)} {start : String} :
    (∃ g, make nonterminals terminals rules start = .ok g) ↔
      start ∈ nonterminals ∧ (∀ c ∈ terminals, ¬ String.singleton c ∈ nonterminals) ∧
        ∀ rule ∈ rules, FittingRule nonterminals terminals rule := by
  simp only [make_eq_ok, OrdSet.mem_ofList, sharedName?_eq_none, ← exists_traverse_readRule]
  constructor
  · rintro ⟨_, hstart, hshared, alternatives, hread, _⟩
    exact ⟨hstart, hshared, alternatives, hread⟩
  · rintro ⟨hstart, hshared, alternatives, hread⟩
    exact ⟨_, hstart, hshared, alternatives, hread, rfl⟩

theorem make_eq_error {rules : List (String × List String)} {start : String} {fault : Fault} :
    make nonterminals terminals rules start = .error fault ↔
      FirstFault nonterminals terminals rules start fault := by
  unfold make
  dsimp only
  constructor
  · intro h
    split at h
    · next hstart =>
      rw [OrdSet.mem_ofList] at hstart
      split at h
      · next t hshared =>
        cases h
        obtain ⟨before, after, heq, hbefore, ht⟩ := sharedName?_eq_some.mp hshared
        exact .sharedName hstart heq hbefore ht
      · next hshared =>
        split at h
        · next hread =>
          cases h
          obtain ⟨before, rule, after, heq, hbefore, hrule⟩ := traverse_readRule_eq_error.mp hread
          exact .rule hstart (sharedName?_eq_none.mp hshared) heq hbefore hrule
        · cases h
    · next hstart =>
      cases h
      exact .undeclaredStart (mt OrdSet.mem_ofList.mpr hstart)
  · intro h
    cases h with
    | undeclaredStart hstart => rw [if_neg (mt OrdSet.mem_ofList.mp hstart)]
    | sharedName hstart heq hbefore ht =>
        have hshared := sharedName?_eq_some.mpr ⟨_, _, heq, hbefore, ht⟩
        rw [if_pos (OrdSet.mem_ofList.mpr hstart), hshared]
    | rule hstart hunshared heq hbefore hrule =>
        have hread := traverse_readRule_eq_error.mpr ⟨_, _, _, heq, hbefore, hrule⟩
        rw [if_pos (OrdSet.mem_ofList.mpr hstart), sharedName?_eq_none.mpr hunshared]
        dsimp only
        rw [hread]

theorem forall₂_spells {g : Grammar} (hg : g.Consistent) (name : String) :
    List.Forall₂ Spells ((g.productions.get? name).getD []) (g.productionsOf name) := by
  cases hrule : g.productions.get? name with
  | none =>
      have hnone : g.alternatives.get? name = none := by
        cases hps : g.alternatives.get? name with
        | none => rfl
        | some ps =>
            obtain ⟨rule, hrule', _⟩ := (get?_alternatives hg).mp hps
            cases hrule.symm.trans hrule'
      rw [productionsOf, hnone]
      exact .nil
  | some rule =>
      refine (mapM_eq_ok.mp (mapM_readAlternative hg hrule)).imp fun text p hread => ?_
      rcases (readAlternative_eq_ok.mp hread).2 with hlast | ⟨x, htext, _, hnext⟩
      · exact .inl hlast
      · exact .inr ⟨x, htext, hnext⟩

/-- **A grammar is made exactly of what fits, and the first fault is reported.**  Declarations and rules
make a grammar if and only if the start symbol is declared, no terminal is the name of a nonterminal, and
every rule, even an empty one, has a declared left-hand side and right-hand sides that fit.  The grammar
declares what was given, has the rules united by their left-hand sides in order of first appearance, and
alternatives that spell the right-hand sides one by one.  Otherwise the fault is the first in the order:
start symbol, terminals in order, united rules in order, each left-hand side before its right-hand
sides. -/
theorem make_cases (nonterminals : List String) (terminals : List Char)
    (rules : List (String × List String)) (start : String) :
    ((∃ g, make nonterminals terminals rules start = .ok g) ↔
      start ∈ nonterminals ∧ (∀ c ∈ terminals, ¬ String.singleton c ∈ nonterminals) ∧
        ∀ rule ∈ rules, FittingRule nonterminals terminals rule) ∧
    (∀ g, make nonterminals terminals rules start = .ok g →
      g.nonterminals.toList = nonterminals.eraseDups ∧ g.terminals.toList = terminals.eraseDups ∧
        g.start = start ∧ g.productions.entries = merged rules ∧
        ∀ name, List.Forall₂ Spells ((g.productions.get? name).getD []) (g.productionsOf name)) ∧
    ∀ fault, make nonterminals terminals rules start = .error fault ↔
      FirstFault nonterminals terminals rules start fault := by
  refine ⟨exists_make, ?_, fun _ => make_eq_error⟩
  intro g hg
  have hspells := forall₂_spells (consistent_of_make hg)
  obtain ⟨_, _, alternatives, _, rfl⟩ := make_eq_ok.mp hg
  exact ⟨OrdSet.toList_ofList _, OrdSet.toList_ofList _, rfl, entries_mergeRules rules, hspells⟩

/-- In the order given the right-hand side of `B` is the first that does not fit, but the rules of `S` are
united before it. -/
theorem make_united_rules :
    make ["S", "B"] ['a'] [("S", ["aB"]), ("B", ["b"]), ("S", ["aa", "a"])] "S" =
        .error (.undeclaredNext "aa") ∧
      ∃ g, make ["S", "B"] ['a'] [("S", ["aB"]), ("B", []), ("S", ["a", "aB"])] "S" = .ok g ∧
        g.productions.entries = [("S", ["aB", "a", "aB"]), ("B", [])] := by
  have hone : Fitting ["S", "B"] ['a'] "a" := ⟨'a', by decide, .inl rfl⟩
  have htwo : Fitting ["S", "B"] ['a'] "aB" := ⟨'a', by decide, .inr ⟨'B', rfl, by decide⟩⟩
  refine ⟨?_, ?_⟩
  · apply ((make_cases _ _ _ _).2.2 _).mpr
    have hfault : RuleFault ["S", "B"] ['a'] ("S", ["aB"] ++ "aa" :: ["a"]) (.undeclaredNext "aa") :=
      .text (by decide) (by simpa using htwo) (.undeclaredNext rfl (by decide) (by decide))
    have hunited : merged [("S", ["aB"]), ("B", ["b"]), ("S", ["aa", "a"])] =
        [] ++ ("S", ["aB"] ++ "aa" :: ["a"]) :: [("B", ["b"])] := rfl
    exact .rule (by decide) (by simp) hunited (fun _ h => nomatch h) hfault
  · obtain ⟨hmake, hmade, _⟩ :=
      make_cases ["S", "B"] ['a'] [("S", ["aB"]), ("B", []), ("S", ["a", "aB"])] "S"
    obtain ⟨g, hg⟩ := hmake.mpr ⟨by decide, by simp, by simp [FittingRule, hone, htwo]⟩
    obtain ⟨_, _, _, hproductions, _⟩ := hmade g hg
    exact ⟨g, hg, hproductions⟩

end RightLinear.Grammar
