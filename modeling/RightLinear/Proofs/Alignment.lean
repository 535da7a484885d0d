import RightLinear.Proofs.Bounds
import RightLinear.Proofs.Reload

/-! # The tables of a grammar stand in line

The rules as written, the alternatives as read and the samplers are three tables, filled at different
times and indexed into each other.  `Aligned` says how they fit together, and every grammar that is
constructed and changed is aligned (`Consistent.aligned`), with empty rules, repeated alternatives and
empty tables of weights as with any others.

`deriveChecked` is derivation with a check before each draw and each access by index.  On an aligned
grammar no check ever fails, so it derives what derivation does (`deriveChecked_eq`). -/

namespace RightLinear

open RightLinear.Random (Scale Source)

/-! ### Checked derivation -/

/-- What can be wrong with a draw or an access by index. -/
inductive Misstep
  | emptyRange
  | outOfBounds (index : ℕ)

/-- `pick`, unless there is nothing to pick from. -/
def Random.pickChecked (s : Scale) (source : Source) : Except Misstep (ℕ × Source) :=
  if s.count = 0 then .error .emptyRange else .ok (source.pick s)

theorem Random.pickChecked_eq {s : Scale} (hcount : 0 < s.count) (source : Source) :
    pickChecked s source = .ok (source.pick s) :=
  if_neg (Nat.pos_iff_ne_zero.mp hcount)

namespace Element

/-- The form with the elements in the place of the one at the index. -/
def splice (form : List Element) (i : ℕ) (elements : List Element) :
    Except Misstep (List Element) :=
  if i < form.length then .ok (form.take i ++ elements ++ form.drop (i + 1))
  else .error (.outOfBounds i)

theorem eq_append_of_leftmost? {form before after : List Element} {name : String}
    (h : leftmost? form = some (before, name, after)) :
    form = before ++ .nonterminal name :: after := by
  induction form generalizing before with
  | nil => cases h
  | cons e form ih =>
      cases e with
      | nonterminal a =>
          cases h
          rfl
      | terminal t =>
          rw [leftmost?, Option.map_eq_some_iff] at h
          obtain ⟨⟨before, _, _⟩, hrest, heq⟩ := h
          cases heq
          exact congrArg (Element.terminal t :: ·) (ih hrest)

theorem splice_append (before after elements : List Element) (e : Element) :
    splice (before ++ e :: after) before.length elements = .ok (before ++ elements ++ after) := by
  have hlength : before.length < (before ++ e :: after).length := by
    rw [List.length_append, List.length_cons]
    omega
  rw [splice, if_pos hlength, List.take_left, List.drop_append, List.drop_eq_nil_of_le (by omega)]
  simp

end Element

namespace Grammar

variable (g : Grammar)

/-- `drawIndex`, with a check of the range. -/
def drawIndexChecked (name : String) (count : ℕ) (source : Source) : Except Misstep (ℕ × Source) :=
  match g.samplers.get? name with
  | some sampler => do
    let (unit, source) ← Random.pickChecked (.weighted sampler.total) source
    .ok (Random.locate unit sampler.weights, source)
  | none => Random.pickChecked (.uniform count) source

/-- `choose`, with a check of the range and one of the index. -/
def chooseChecked (name : String) (alternatives : List Production) (source : Source) :
    Except Misstep (Production × Source) := do
  let (i, source) ← g.drawIndexChecked name alternatives.length source
  match alternatives[i]? with
  | none => .error (.outOfBounds i)
  | some p => .ok (p, source)

/-- `deriveFrom`, with the checks of `chooseChecked` and one of the place that is rewritten. -/
def deriveChecked : ℕ → List Element → Source → Except Misstep (Option (List Char) × Source)
  | budget, form, source =>
    match Element.leftmost? form with
    | none => .ok (some (Element.yield form), source)
    | some (before, name, _) =>
      match budget, g.productionsOf name with
      | 0, _ => .ok (none, source)
      | _ + 1, [] => .ok (none, source)
      | budget + 1, alternatives@(_ :: _) => do
        let (p, source) ← g.chooseChecked name alternatives source
        let form ← Element.splice form before.length p.elements
        deriveChecked budget form source

/-! ### The tables -/

/-- The three tables fit together, and the samplers are fit for use. -/
structure Aligned : Prop where
  /-- Rules and alternatives stand under the same names, in the same order. -/
  keys_alternatives : g.alternatives.keys = g.productions.keys
  /-- The alternatives are displayed as they are written. -/
  render_alternatives : ∀ name rule, g.productions.get? name = some rule →
    ∃ ps, g.alternatives.get? name = some ps ∧ ps.map Production.render = rule.map String.toList
  /-- The weighted nonterminals that have a rule are those with a sampler. -/
  mem_keys_samplers : ∀ name, name ∈ g.samplers.keys ↔
    g.weights.isWeighted name = true ∧ name ∈ g.productions.keys
  /-- A sampler weighs the alternatives in their order, none of them with nothing. -/
  sampler : ∀ name s, g.samplers.get? name = some s →
    ∃ rule ps, g.productions.get? name = some rule ∧ g.alternatives.get? name = some ps ∧
      s.row = rule.map (g.weights.weightOf name) ∧ (∀ w ∈ s.row, 1 ≤ w) ∧
      s.row.length = ps.length ∧ s.total ≤ UInt32.size - 1

variable {g}

theorem render_of_readAlternative {nonterminals : OrdSet String} {terminals : OrdSet Char}
    {text : String} {p : Production} (h : readAlternative nonterminals terminals text = .ok p) :
    p.render = text.toList := by
  unfold Production.render
  rcases (readAlternative_eq_ok.mp h).2 with ⟨htext, hnext⟩ | ⟨n, htext, _, hnext⟩
  · rw [htext, hnext]
    rfl
  · rw [htext, hnext]
    simp

theorem render_of_forall₂ {nonterminals : OrdSet String} {terminals : OrdSet Char}
    {rule : List String} {ps : List Production}
    (h : List.Forall₂ (fun text p => readAlternative nonterminals terminals text = .ok p) rule ps) :
    ps.map Production.render = rule.map String.toList := by
  induction h with
  | nil => rfl
  | cons hread _ ih =>
      rw [List.map_cons, List.map_cons, render_of_readAlternative hread, ih]

theorem Consistent.aligned (hg : g.Consistent) : g.Aligned where
  keys_alternatives := OrdMap.keys_traverse hg.read
  render_alternatives := by
    intro name rule hrule
    obtain ⟨ps, hps, hread⟩ := exists_alternatives hg hrule
    exact ⟨ps, hps, render_of_forall₂ (mapM_eq_ok.mp hread)⟩
  mem_keys_samplers := by
    intro name
    rw [OrdMap.keys_traverse hg.sampled, OrdMap.mem_keys, OrdMap.mem_keys]
    simp only [OrdMap.get?_filter, Option.filter_eq_some_iff]
    constructor
    · rintro ⟨rule, hrule, hweighted⟩
      exact ⟨hweighted, rule, hrule⟩
    · rintro ⟨hweighted, rule, hrule⟩
      exact ⟨rule, hrule, hweighted⟩
  sampler := by
    intro name s hs
    obtain ⟨rule, hrule, _, hrow, htotal, _⟩ := (get?_samplers hg).mp hs
    obtain ⟨ps, hps, hread⟩ := exists_alternatives hg hrule
    refine ⟨rule, ps, hrule, hps, hrow, ?_, ?_, Nat.le_sub_one_of_lt htotal⟩
    · exact fun w hw => one_le_iff_ne_zero.mpr (row_ne_zero hg hs w hw)
    · rw [hrow, List.length_map]
      exact (mapM_eq_ok.mp hread).length_eq

/-! ### No check fails -/

theorem Aligned.drawIndexChecked_eq (hg : g.Aligned) {name : String}
    (hne : g.productionsOf name ≠ []) (source : Source) :
    g.drawIndexChecked name (g.productionsOf name).length source =
        .ok (g.drawIndex name (g.productionsOf name).length source) ∧
      (g.drawIndex name (g.productionsOf name).length source).1 < (g.productionsOf name).length := by
  unfold drawIndexChecked drawIndex
  cases hs : g.samplers.get? name with
  | none =>
      have hcount : 0 < (Scale.uniform (g.productionsOf name).length).count :=
        List.length_pos_iff.mpr hne
      exact ⟨Random.pickChecked_eq hcount source, Source.pick_lt hcount source⟩
  | some s =>
      obtain ⟨_, ps, _, hps, _, hpos, hlength, _⟩ := hg.sampler name s hs
      have halternatives : g.productionsOf name = ps := by
        rw [productionsOf, hps, Option.getD_some]
      rw [halternatives] at hne ⊢
      have hrow : s.row ≠ [] := by
        rw [← List.length_pos_iff, hlength]
        exact List.length_pos_iff.mpr hne
      have htotal := Sampler.total_pos (fun w hw => one_le_iff_ne_zero.mp (hpos w hw)) hrow
      have hpick := Random.pickChecked_eq (s := .weighted s.total) htotal source
      refine ⟨?_, hlength ▸ Sampler.pick_lt htotal source⟩
      dsimp only
      rw [hpick]
      rfl

/-- The checks of a choice do not fail, and it comes to one of the alternatives. -/
theorem Aligned.chooseChecked_eq (hg : g.Aligned) {name : String} (hne : g.productionsOf name ≠ [])
    (source : Source) :
    ∃ p rest, g.chooseChecked name (g.productionsOf name) source = .ok (p, rest) ∧
      g.choose name (g.productionsOf name) source = (some p, rest) := by
  obtain ⟨hdraw, hindex⟩ := hg.drawIndexChecked_eq hne source
  have hget := List.getElem?_eq_getElem hindex
  unfold chooseChecked choose
  rw [hdraw]
  dsimp only [Except.bind, bind]
  rw [hget]
  exact ⟨_, _, rfl, rfl⟩

theorem Aligned.deriveChecked_eq (hg : g.Aligned) (budget : ℕ) (form : List Element)
    (source : Source) : g.deriveChecked budget form source = .ok (g.deriveFrom budget form source) := by
  induction budget generalizing form source with
  | zero =>
      rw [deriveChecked, deriveFrom]
      cases Element.leftmost? form with
      | none => rfl
      | some found => rfl
  | succ budget ih =>
      rw [deriveChecked, deriveFrom]
      cases hform : Element.leftmost? form with
      | none => rfl
      | some found =>
          obtain ⟨before, name, after⟩ := found
          dsimp only
          cases hps : g.productionsOf name with
          | nil => rfl
          | cons p ps =>
              have hne : g.productionsOf name ≠ [] := by
                rw [hps]
                exact List.cons_ne_nil p ps
              obtain ⟨chosen, rest, hchecked, hchoose⟩ := hg.chooseChecked_eq hne source
              rw [hps] at hchecked hchoose
              dsimp only
              rw [hchecked, hchoose, Element.eq_append_of_leftmost? hform]
              dsimp only [Except.bind, bind]
              rw [Element.splice_append]
              exact ih _ rest

/-- **The tables of a grammar stand in line, whatever was done to it.**  A grammar that was constructed
by any route and changed in any way is aligned.  Its limits are the last that it was given, its weights
are the last that it was given, and with them all but the limits is settled.  So in choosing and
deriving nothing is drawn from an empty range and no index is out of bounds, from any source. -/
theorem aligned_of_changes {g₀ g : Grammar} {cs : List Change} (hg₀ : g₀.Constructed)
    (hc : Changes g₀ cs g) :
    g.Aligned ∧
    (g.limits = (lastLimits? cs).getD g₀.limits ∧ g.weights = (lastWeights? cs).getD g₀.weights ∧
      ∀ cs' g', Changes g₀ cs' g' → lastWeights? cs' = lastWeights? cs →
        g'.withLimits g.limits = g) ∧
    (∀ name, g.productionsOf name ≠ [] → ∀ source, ∃ p rest,
      g.chooseChecked name (g.productionsOf name) source = .ok (p, rest) ∧
      g.choose name (g.productionsOf name) source = (some p, rest)) ∧
    ∀ budget form source,
      g.deriveChecked budget form source = .ok (g.deriveFrom budget form source) := by
  have haligned : g.Aligned := (hc.built hg₀.built).consistent.aligned
  refine ⟨haligned, ⟨hc.settled.1, hc.weights_eq, ?_⟩, ?_, haligned.deriveChecked_eq⟩
  · intro cs' g' hc' hweights
    exact hc.eq_of_lastWeights hc' hweights
  · intro name hne source
    exact haligned.chooseChecked_eq hne source

/-- `reweighed` has an empty rule, repeated alternatives and an empty table of weights. -/
theorem reweighed_aligned :
    single.Constructed ∧
    Changes single [.weights ∅, .limits ⟨7, 1⟩, .weights reweighed.weights] reweighed ∧
    reweighed.Aligned ∧ reweighed.limits = ⟨7, 1⟩ ∧
    (∀ source, ∃ p rest,
      reweighed.chooseChecked "S" (reweighed.productionsOf "S") source = .ok (p, rest) ∧
      reweighed.choose "S" (reweighed.productionsOf "S") source = (some p, rest)) ∧
    ∀ budget form source,
      reweighed.deriveChecked budget form source = .ok (reweighed.deriveFrom budget form source) := by
  obtain ⟨haligned, ⟨hlimits, _⟩, hchoose, hderive⟩ :=
    aligned_of_changes constructed_single changes_reweighed
  exact ⟨constructed_single, changes_reweighed, haligned, hlimits, hchoose "S" (by decide), hderive⟩

end Grammar
end RightLinear
