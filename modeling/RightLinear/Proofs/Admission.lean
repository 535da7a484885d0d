import RightLinear.Proofs.Construction
import RightLinear.Proofs.RunningSums

/-! # Which weights are admitted

Weights are attached to a grammar in two passes.  The first goes through the weights in the order of
their table: each has to belong to an alternative of the grammar and must not be zero (`Fits`).  The
second goes through the rules of the grammar: that of a weighted nonterminal has to have an alternative,
and the weights of its alternatives a sum of 32 bits (`RowFits`).  Repeated alternatives count each time
and those without a weight count one.

`withWeights_cases` says that nothing else is asked for, that the first to offend is reported, and that
what is left to the sampler then cannot go wrong. -/

namespace RightLinear

/-! ### Weights as listed -/

namespace Weights

variable (w : Weights)

/-- The weight that is listed for an alternative; one if none is. -/
def listed (name alternative : String) : ℕ :=
  match w.entries.find? fun e => e.nonterminal = name ∧ e.alternative = alternative with
  | some e => e.weight.toNat
  | none => 1

/-- The exact sum over the alternatives of a rule. -/
def rowTotal (name : String) (rule : List String) : ℕ := (rule.map (w.listed name)).foldr (· + ·) 0

/-- The rule of a weighted nonterminal has an alternative, and its sum fits 32 bits. -/
def RowFits (name : String) (rule : List String) : Prop :=
  w.isWeighted name = true → rule ≠ [] ∧ w.rowTotal name rule ≤ UInt32.size - 1

variable {w}

theorem listed_eq (name alternative : String) :
    w.listed name alternative = (w.weightOf name alternative).toNat := by
  unfold listed weightOf
  split
  · next e he =>
    have hfound := List.find?_some he
    obtain ⟨rfl, rfl⟩ := of_decide_eq_true hfound
    rw [w.mem_entries.mp (List.mem_of_find?_eq_some he)]
    rfl
  · next hnone =>
    cases hweight : (w.table.get? name).bind fun row => row.get? alternative with
    | none => rfl
    | some n =>
        have he : (⟨name, alternative, n⟩ : Entry) ∈ w.entries := w.mem_entries.mpr hweight
        exact absurd (decide_eq_true ⟨rfl, rfl⟩) (List.find?_eq_none.mp hnone _ he)

theorem rowTotal_eq (name : String) (rule : List String) :
    w.rowTotal name rule = Sampler.total ⟨rule.map (w.weightOf name)⟩ := by
  unfold rowTotal Sampler.total Sampler.weights
  rw [List.map_map]
  congr 2
  exact funext (listed_eq name)

end Weights

namespace Grammar

variable {g : Grammar}

/-! ### Weights that fit -/

/-- A weight belongs to an alternative of the grammar and is not zero. -/
def Fits (g : Grammar) (e : Weights.Entry) : Prop :=
  ∃ rule, g.productions.get? e.nonterminal = some rule ∧ e.alternative ∈ rule ∧ 1 ≤ e.weight

/-- What is wrong with a weight.  Without a rule nothing is an alternative, and the weight of what is
no alternative does not matter. -/
inductive EntryFault (g : Grammar) (e : Weights.Entry) : Fault → Prop
  | nothing : g.productions.get? e.nonterminal = none →
      EntryFault g e (.weightOfNothing e.nonterminal)
  | unknown {rule : List String} : g.productions.get? e.nonterminal = some rule →
      ¬ e.alternative ∈ rule → EntryFault g e (.weightOfUnknown e.nonterminal e.alternative)
  | zero {rule : List String} : g.productions.get? e.nonterminal = some rule →
      e.alternative ∈ rule → e.weight = 0 →
      EntryFault g e (.zeroWeight e.nonterminal e.alternative)

/-- What is wrong with the rule of a weighted nonterminal. -/
inductive RowFault (w : Weights) (name : String) (rule : List String) : Fault → Prop
  | overflow : UInt32.size ≤ w.rowTotal name rule → RowFault w name rule (.weightOverflow name)
  | empty : rule = [] → RowFault w name rule (.emptyRow name)

theorem weightFault?_eq_none_iff {e : Weights.Entry} : g.weightFault? e = none ↔ g.Fits e := by
  rw [weightFault?_eq_none]
  simp only [Fits, one_le_iff_ne_zero]

theorem weightFault?_eq_some {e : Weights.Entry} {fault : Fault} :
    g.weightFault? e = some fault ↔ g.EntryFault e fault := by
  constructor
  · intro h
    unfold weightFault? at h
    split at h
    · next hrule =>
      cases h
      exact .nothing hrule
    · next rule hrule =>
      split at h
      · next halternative =>
        split at h
        · next hweight =>
          cases h
          exact .zero hrule halternative hweight
        · cases h
      · next halternative =>
        cases h
        exact .unknown hrule halternative
  · intro h
    unfold weightFault?
    cases h with
    | nothing hrule => rw [hrule]
    | unknown hrule halternative =>
        rw [hrule]
        exact if_neg halternative
    | zero hrule halternative hweight =>
        rw [hrule]
        dsimp only
        rw [if_pos halternative, if_pos hweight]

theorem findSome?_weightFault?_eq_some {entries : List Weights.Entry} {fault : Fault} :
    entries.findSome? g.weightFault? = some fault ↔ ∃ before e after,
      entries = before ++ e :: after ∧ (∀ e' ∈ before, g.Fits e') ∧ g.EntryFault e fault := by
  rw [List.findSome?_eq_some_iff]
  simp only [weightFault?_eq_some, weightFault?_eq_none_iff, and_comm]

theorem findSome?_weightFault?_eq_none {entries : List Weights.Entry} :
    entries.findSome? g.weightFault? = none ↔ ∀ e ∈ entries, g.Fits e := by
  rw [List.findSome?_eq_none_iff]
  simp only [weightFault?_eq_none_iff]

/-! ### Rules that fit -/

/-- If all weights fit, no alternative weighs nothing: what is listed is at least one, and what is not
counts one. -/
theorem weightOf_ne_zero_of_fits {w : Weights} (hentries : ∀ e ∈ w.entries, g.Fits e)
    (name text : String) : w.weightOf name text ≠ 0 := by
  apply weightOf_ne_zero_of_entries
  intro e he
  obtain ⟨_, _, _, hweight⟩ := hentries e he
  exact one_le_iff_ne_zero.mp hweight

section Rows

variable {w : Weights} (hw : ∀ name text, w.weightOf name text ≠ 0)
include hw

theorem exists_makeSampler {name : String} {rule : List String} :
    (∃ s, makeSampler w name rule = .ok s) ↔
      rule ≠ [] ∧ w.rowTotal name rule ≤ UInt32.size - 1 := by
  have hsize : 0 < UInt32.size := by decide
  simp only [makeSampler_eq_ok (hw name), Weights.rowTotal_eq]
  constructor
  · rintro ⟨⟨row⟩, hrow, htotal, hne⟩
    cases hrow
    exact ⟨hne, Nat.le_sub_one_of_lt htotal⟩
  · rintro ⟨hne, htotal⟩
    exact ⟨_, rfl, Nat.lt_of_le_sub_one hsize htotal, hne⟩

theorem makeSampler_eq_error {name : String} {rule : List String} {fault : Fault} :
    makeSampler w name rule = .error fault ↔ RowFault w name rule fault := by
  have hempty : Sampler.total ⟨([] : List String).map (w.weightOf name)⟩ = 0 := rfl
  have hsize : 0 < UInt32.size := by decide
  rw [makeSampler_of_ne_zero (hw name)]
  rw [← Weights.rowTotal_eq] at hempty ⊢
  constructor
  · intro h
    split at h
    · next htotal =>
      cases h
      exact .overflow htotal
    · split at h
      · next hrule =>
        cases h
        exact .empty hrule
      · cases h
  · intro h
    cases h with
    | overflow htotal => rw [if_pos htotal]
    | empty hrule =>
        -- Without alternatives the sum is zero, so it is not the overflow that is reported.
        subst hrule
        rw [if_neg (by omega), if_pos rfl]

end Rows

/-- What comes first among the elements that pass a test comes first among all that pass. -/
theorem exists_filter_eq_append {α : Type} {p : α → Bool} {Q R : α → Prop} {l : List α} :
    (∃ before a after, l.filter p = before ++ a :: after ∧ (∀ b ∈ before, Q b) ∧ R a) ↔
      ∃ before a after, l = before ++ a :: after ∧ (∀ b ∈ before, p b = true → Q b) ∧
        p a = true ∧ R a := by
  constructor
  · rintro ⟨before, a, after, hl, hbefore, ha⟩
    obtain ⟨front, rest, rfl, rfl, hrest⟩ := List.filter_eq_append_iff.mp hl
    obtain ⟨between, back, rfl, hbetween, hpa, _⟩ := List.filter_eq_cons_iff.mp hrest
    -- Between the elements before and `a` there may be others that fail the test.
    refine ⟨front ++ between, a, back, (List.append_assoc _ _ _).symm, ?_, hpa, ha⟩
    intro b hb hpb
    rcases List.mem_append.mp hb with hb | hb
    · exact hbefore b (List.mem_filter.mpr ⟨hb, hpb⟩)
    · exact absurd hpb (hbetween b hb)
  · rintro ⟨before, a, after, rfl, hbefore, hpa, ha⟩
    refine ⟨before.filter p, a, after.filter p, ?_, ?_, ha⟩
    · rw [List.filter_append, List.filter_cons_of_pos hpa]
    · intro b hb
      obtain ⟨hb, hpb⟩ := List.mem_filter.mp hb
      exact hbefore b hb hpb

section Rows

variable {w : Weights} (hw : ∀ name text, w.weightOf name text ≠ 0)
  {productions : OrdMap String (List String)}
include hw

theorem traverse_makeSampler_eq_error {fault : Fault} :
    (productions.filter fun name _ => w.isWeighted name).traverse (makeSampler w) = .error fault ↔
      ∃ before name rule after, productions.entries = before ++ (name, rule) :: after ∧
        (∀ row ∈ before, w.RowFits row.1 row.2) ∧ w.isWeighted name = true ∧
          RowFault w name rule fault := by
  have hfirst := exists_filter_eq_append (p := fun row => w.isWeighted row.1)
    (Q := fun row => row.2 ≠ [] ∧ w.rowTotal row.1 row.2 ≤ UInt32.size - 1)
    (R := fun row => RowFault w row.1 row.2 fault) (l := productions.entries)
  rw [OrdMap.traverse_eq_error]
  simp only [exists_makeSampler hw, makeSampler_eq_error hw]
  simp only [Prod.exists] at hfirst
  exact hfirst

theorem exists_traverse_makeSampler :
    (∃ samplers, (productions.filter fun name _ => w.isWeighted name).traverse (makeSampler w) =
        .ok samplers) ↔
      ∀ name rule, productions.get? name = some rule → w.RowFits name rule := by
  rw [OrdMap.exists_traverse]
  simp only [OrdMap.get?_filter, Option.filter_eq_some_iff, exists_makeSampler hw, and_imp,
    Weights.RowFits]

end Rows

/-! ### Both passes -/

theorem exists_withWeights {w : Weights} :
    (∃ h, g.withWeights w = .ok h) ↔ (∀ e ∈ w.entries, g.Fits e) ∧
      ∀ name rule, g.productions.get? name = some rule → w.RowFits name rule := by
  have hpasses : (∃ h, g.withWeights w = .ok h) ↔ (∀ e ∈ w.entries, g.Fits e) ∧
      ∃ samplers, (g.productions.filter fun name _ => w.isWeighted name).traverse (makeSampler w) =
        .ok samplers := by
    simp only [withWeights_eq_ok, findSome?_weightFault?_eq_none]
    constructor
    · rintro ⟨_, hentries, samplers, hsamplers, _⟩
      exact ⟨hentries, samplers, hsamplers⟩
    · rintro ⟨hentries, samplers, hsamplers⟩
      exact ⟨_, hentries, samplers, hsamplers, rfl⟩
  rw [hpasses]
  apply and_congr_right
  intro hentries
  exact exists_traverse_makeSampler (weightOf_ne_zero_of_fits hentries)

/-- The second pass comes into play if all weights fit. -/
theorem withWeights_eq_error {w : Weights} {fault : Fault} :
    g.withWeights w = .error fault ↔
      (∃ before e after, w.entries = before ++ e :: after ∧ (∀ e' ∈ before, g.Fits e') ∧
        g.EntryFault e fault) ∨
      (∀ e ∈ w.entries, g.Fits e) ∧
        ∃ before name rule after, g.productions.entries = before ++ (name, rule) :: after ∧
          (∀ row ∈ before, w.RowFits row.1 row.2) ∧ w.isWeighted name = true ∧
            RowFault w name rule fault := by
  rw [← findSome?_weightFault?_eq_some, ← findSome?_weightFault?_eq_none]
  unfold withWeights
  cases hentries : w.entries.findSome? g.weightFault? with
  | some found => simp
  | none =>
      have hw := weightOf_ne_zero_of_fits (findSome?_weightFault?_eq_none.mp hentries)
      rw [← traverse_makeSampler_eq_error hw]
      cases hrows : (g.productions.filter fun name _ => w.isWeighted name).traverse
          (makeSampler w) with
      | error found => simp [hrows]
      | ok samplers => simp [hrows]

/-! ### What a fault says -/

theorem infix_append_append (front text back : String) :
    text.toList <:+: (front ++ text ++ back).toList := by
  rw [String.toList_append, String.toList_append]
  exact List.infix_append _ _ _

theorem message_weightOfUnknown (name alternative : String) :
    (Fault.weightOfUnknown name alternative).message =
      "Weight given for " ++ (name ++ " -> " ++ alternative) ++ " which is not a production" :=
  calc
    _ = "Weight given for " ++ name ++ " -> " ++ alternative ++ " which is not a production" := rfl
    _ = _ := by simp only [String.append_assoc]

theorem message_zeroWeight (name alternative : String) :
    (Fault.zeroWeight name alternative).message =
      "Weight of " ++ (name ++ " -> " ++ alternative) ++ " must be positive" :=
  calc
    _ = "Weight of " ++ name ++ " -> " ++ alternative ++ " must be positive" := rfl
    _ = _ := by simp only [String.append_assoc]

/-- The fault of a weight names its nonterminal, and its alternative if the nonterminal has a rule. -/
theorem EntryFault.names {e : Weights.Entry} {fault : Fault} (h : g.EntryFault e fault) :
    e.nonterminal.toList <:+: fault.message.toList ∧
      ((g.productions.get? e.nonterminal).isSome = true →
        (e.nonterminal ++ " -> " ++ e.alternative).toList <:+: fault.message.toList) := by
  have hname : e.nonterminal.toList <:+: (e.nonterminal ++ " -> " ++ e.alternative).toList := by
    rw [String.toList_append, String.toList_append, List.append_assoc]
    exact (List.prefix_append _ _).isInfix
  cases h with
  | nothing hrule =>
      refine ⟨infix_append_append "Weight given for " e.nonterminal " which has no productions", ?_⟩
      rw [hrule]
      exact fun h => nomatch h
  | unknown hrule halternative =>
      have hboth : (e.nonterminal ++ " -> " ++ e.alternative).toList <:+:
          (Fault.weightOfUnknown e.nonterminal e.alternative).message.toList := by
        rw [message_weightOfUnknown]
        exact infix_append_append _ _ _
      exact ⟨hname.trans hboth, fun _ => hboth⟩
  | zero hrule halternative hweight =>
      have hboth : (e.nonterminal ++ " -> " ++ e.alternative).toList <:+:
          (Fault.zeroWeight e.nonterminal e.alternative).message.toList := by
        rw [message_zeroWeight]
        exact infix_append_append _ _ _
      exact ⟨hname.trans hboth, fun _ => hboth⟩

theorem RowFault.names {w : Weights} {name : String} {rule : List String} {fault : Fault}
    (h : RowFault w name rule fault) : name.toList <:+: fault.message.toList := by
  cases h with
  | overflow _ => exact infix_append_append "Weights for " name " overflow: their sum exceeds 4294967295"
  | empty _ =>
      exact infix_append_append "Weights for " name ": No weights provided in distribution"

/-! ### What is left to the sampler -/

/-- If all weights fit, the running sums of a rule can be formed unless it has no alternative. -/
theorem runningSums_of_fits {w : Weights} (hentries : ∀ e ∈ w.entries, g.Fits e) {name : String}
    {rule : List String} (htotal : w.rowTotal name rule ≤ UInt32.size - 1) :
    rule = [] ∧ Sampler.runningSums (rule.map (w.weightOf name)) = .error .noWeight ∨
      rule ≠ [] ∧ ∃ sums last, Sampler.runningSums (rule.map (w.weightOf name)) = .ok (sums, last) ∧
        last.toNat = w.rowTotal name rule := by
  have hsize : 0 < UInt32.size := by decide
  by_cases hrule : rule = []
  · subst hrule
    exact .inl ⟨rfl, rfl⟩
  · have hpos := total_weightOf_pos (weightOf_ne_zero_of_fits hentries name) hrule
    have hfits := Nat.lt_of_le_sub_one hsize htotal
    rw [Weights.rowTotal_eq] at hfits ⊢
    exact .inr ⟨hrule, Sampler.exists_runningSums hpos hfits⟩

/-- **Weights are admitted exactly if they fit, and the first that does not is reported.**  Weights are
attached if and only if each belongs to an alternative and is at least one, and each weighted
nonterminal with a rule has an alternative and an exact sum of at most `2 ^ 32 - 1`.  Otherwise the
fault is that of the first weight that does not fit, in the order of the table; if all do, that of the
first rule that does not, in the order of the rules; and it names what it is about.  Adding up in words
of 32 bits gives up exactly if the exact sum is too great, and the running sums of a rule that has
passed can always be formed, unless it has no alternative. -/
theorem withWeights_cases (g : Grammar) (w : Weights) :
    ((∃ h, g.withWeights w = .ok h) ↔ (∀ e ∈ w.entries, g.Fits e) ∧
      ∀ name rule, g.productions.get? name = some rule → w.RowFits name rule) ∧
    (∀ fault, g.withWeights w = .error fault ↔
      (∃ before e after, w.entries = before ++ e :: after ∧ (∀ e' ∈ before, g.Fits e') ∧
        g.EntryFault e fault) ∨
      (∀ e ∈ w.entries, g.Fits e) ∧
        ∃ before name rule after, g.productions.entries = before ++ (name, rule) :: after ∧
          (∀ row ∈ before, w.RowFits row.1 row.2) ∧ w.isWeighted name = true ∧
            RowFault w name rule fault) ∧
    ((∀ e fault, g.EntryFault e fault → e.nonterminal.toList <:+: fault.message.toList ∧
        ((g.productions.get? e.nonterminal).isSome = true →
          (e.nonterminal ++ " -> " ++ e.alternative).toList <:+: fault.message.toList)) ∧
      ∀ name rule fault, RowFault w name rule fault → name.toList <:+: fault.message.toList) ∧
    (∀ name rule, Sampler.checkedSum (rule.map (w.weightOf name)) = none ↔
      UInt32.size ≤ w.rowTotal name rule) ∧
    ((∀ e ∈ w.entries, g.Fits e) → ∀ name rule, w.rowTotal name rule ≤ UInt32.size - 1 →
      rule = [] ∧ Sampler.runningSums (rule.map (w.weightOf name)) = .error .noWeight ∨
        rule ≠ [] ∧
          ∃ sums last, Sampler.runningSums (rule.map (w.weightOf name)) = .ok (sums, last) ∧
            last.toNat = w.rowTotal name rule) := by
  refine ⟨exists_withWeights, fun _ => withWeights_eq_error,
    ⟨fun _ _ => EntryFault.names, fun _ _ _ => RowFault.names⟩, ?_, ?_⟩
  · intro name rule
    rw [Sampler.checkedSum_eq_none, Weights.rowTotal_eq]
  · exact fun hentries _ _ htotal => runningSums_of_fits hentries htotal

/-- `S` has a repeated alternative and `B` has none. -/
def brimful : Grammar where
  nonterminals := OrdSet.ofList ["S", "B"]
  terminals := OrdSet.ofList ['a', 'b']
  productions := mergeRules [("S", ["aS", "b", "aS"]), ("B", [])]
  start := "S"
  weights := ∅
  limits := {}
  alternatives := ⟨[("S", [⟨'a', some "S"⟩, ⟨'b', none⟩, ⟨'a', some "S"⟩]), ("B", [])], by decide⟩
  samplers := ∅

/-- A weight of `aS` in `brimful`, and an empty table for `B`. -/
def brimfulWeights (n : UInt32) : Weights where
  table := ⟨[("B", ∅), ("S", ⟨[("aS", n)], by simp⟩)], by simp⟩

theorem fits_brimful {n : UInt32} (hn : 1 ≤ n) : ∀ e ∈ (brimfulWeights n).entries, brimful.Fits e := by
  intro e he
  obtain rfl := List.mem_singleton.mp he
  exact ⟨_, rfl, List.mem_cons_self, hn⟩

/-- The empty table of `B`, which has no alternative, stands first, but the rule of `S` is reported if
its weight, counted twice and with one for `b`, comes to more than fits. -/
theorem brimful_withWeights :
    brimful.withWeights (brimfulWeights 2147483648) = .error (.weightOverflow "S") ∧
    brimful.withWeights (brimfulWeights 2147483647) = .error (.emptyRow "B") ∧
    brimful.withWeights (brimfulWeights 0) = .error (.zeroWeight "S" "aS") ∧
    ∃ sums last, Sampler.runningSums [2147483647, 1, 2147483647] = .ok (sums, last) ∧
      last.toNat = 4294967295 := by
  refine ⟨?_, ?_, ?_, ?_⟩
  · exact ((withWeights_cases brimful _).2.1 _).mpr (.inr ⟨fits_brimful (by decide), [], "S",
      ["aS", "b", "aS"], [("B", [])], rfl, fun _ h => (nomatch h), by decide, .overflow (by decide)⟩)
  · refine ((withWeights_cases brimful _).2.1 _).mpr (.inr ⟨fits_brimful (by decide),
      [("S", ["aS", "b", "aS"])], "B", [], [], rfl, fun row hrow => ?_, by decide, .empty rfl⟩)
    obtain rfl := List.mem_singleton.mp hrow
    exact fun _ => ⟨List.cons_ne_nil _ _, by decide⟩
  · exact ((withWeights_cases brimful _).2.1 _).mpr (.inl ⟨[], ⟨"S", "aS", 0⟩, [], rfl,
      fun _ h => (nomatch h), .zero rfl List.mem_cons_self rfl⟩)
  · have hlast := (withWeights_cases brimful (brimfulWeights 2147483647)).2.2.2.2
      (fits_brimful (by decide)) "S" ["aS", "b", "aS"] (by decide)
    rcases hlast with ⟨hrule, _⟩ | ⟨_, hsums⟩
    · exact absurd hrule (List.cons_ne_nil _ _)
    · exact hsums

end Grammar
end RightLinear
