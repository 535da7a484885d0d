import RightLinear.Proofs.Alignment
import RightLinear.Proofs.Shares

/-! # Choices are exactly fair

A choice among the alternatives of a nonterminal draws words until one is let through.  `selects?` is
the index that a single word selects, if it is let through; `Settles` says that words are drawn, and
turned down, until one selects an index, and this is what a choice does (`choose_of_settles`), from a
tape without any bound on the words that are turned down (`exists_settles`).

The words that select an index are counted.  With a sampler they are in exact proportion to the weights,
and what cannot be divided among the units of weight is turned down (`ways_weighted`,
`ways_weighted_none`).  Without one every index has the same number of words (`ways_uniform`). -/

namespace RightLinear

open RightLinear.Random (Scale Source Supply Width)

/-! ### Drawing until a word is let through -/

namespace Random.Source

/-- Words are drawn, and the given number of them turned down, until `f` has a result for one. -/
inductive Settles (width : Width) (f : ℕ → Option ℕ) : ℕ → Source → ℕ → Source → Prop
  | taken {source : Source} {i : ℕ} :
      f (source.next width).1 = some i → Settles width f 0 source i (source.next width).2
  | redrawn {n i : ℕ} {source last : Source} :
      f (source.next width).1 = none → Settles width f n (source.next width).2 i last →
      Settles width f (n + 1) source i last

variable {s : Scale} {f : ℕ → Option ℕ} {n i : ℕ} {source last : Source}

theorem roll_of_settles {h : ℕ → ℕ}
    (hs : Settles s.width (fun v => (s.admit? v).map h) n source i last) {patience : ℕ}
    (hn : n ≤ patience) :
    h (source.roll s patience).1 = i ∧ (source.roll s patience).2 = last := by
  induction hs generalizing patience with
  | @taken source i hf =>
      obtain ⟨u, hu, rfl⟩ := Option.map_eq_some_iff.mp hf
      cases patience with
      | zero => exact ⟨congrArg h (Scale.answer_of_admit? hu), rfl⟩
      | succ patience =>
          rw [roll]
          dsimp only
          rw [hu]
          exact ⟨rfl, rfl⟩
  | @redrawn n i source last hf _ ih =>
      obtain ⟨patience, rfl⟩ := Nat.exists_eq_add_one_of_ne_zero (by omega : patience ≠ 0)
      have hnone : s.admit? (source.next s.width).1 = none := Option.map_eq_none_iff.mp hf
      rw [roll]
      dsimp only
      rw [hnone]
      exact ih (Nat.le_of_succ_le_succ hn)

/-- If zero is let through, every tape settles before the zeros behind it begin, or at the first. -/
theorem exists_settles {width : Width} (hzero : ∃ i, f 0 = some i) (words : List UInt64) (drawn : ℕ) :
    ∃ n ≤ words.length, ∃ i last, Settles width f n ⟨.tape words, drawn⟩ i last := by
  induction words generalizing drawn with
  | nil =>
      obtain ⟨i, hi⟩ := hzero
      have hnext : (Source.next width ⟨.tape [], drawn⟩).1 = 0 := by cases width <;> rfl
      exact ⟨0, Nat.le_refl 0, i, _, .taken (by rw [hnext, hi])⟩
  | cons w words ih =>
      cases hw : f (Source.next width ⟨.tape (w :: words), drawn⟩).1 with
      | some i => exact ⟨0, Nat.zero_le _, i, _, .taken hw⟩
      | none =>
          obtain ⟨n, hn, i, last, hrest⟩ := ih (drawn + 1)
          have hnext : (Source.next width ⟨.tape (w :: words), drawn⟩).2 = ⟨.tape words, drawn + 1⟩ := by
            cases width <;> rfl
          exact ⟨n + 1, Nat.succ_le_succ hn, i, last, .redrawn hw (hnext ▸ hrest)⟩

end Random.Source

namespace Grammar

variable (g : Grammar)

/-! ### What one word selects -/

/-- The width of the words that are drawn for a choice: words of 32 bits for a choice by weight. -/
def drawWidth (name : String) : Width :=
  match g.samplers.get? name with
  | some _ => .half
  | none => .full

/-- The scale of a choice among the alternatives of a nonterminal. -/
def scaleOf (name : String) : Scale :=
  match g.samplers.get? name with
  | some s => .weighted s.total
  | none => .uniform (g.productionsOf name).length

/-- The index that an answer stands for. -/
def indexOf (name : String) (answer : ℕ) : ℕ :=
  match g.samplers.get? name with
  | some s => Random.locate answer s.weights
  | none => answer

/-- The index of the alternative that a single word selects, unless the word is turned down. -/
def selects? (name : String) (v : ℕ) : Option ℕ := ((g.scaleOf name).admit? v).map (g.indexOf name)

variable {g} {name : String}

theorem width_scaleOf : (g.scaleOf name).width = g.drawWidth name := by
  unfold scaleOf drawWidth
  cases g.samplers.get? name <;> rfl

theorem drawIndex_eq (source : Source) :
    g.drawIndex name (g.productionsOf name).length source =
      (g.indexOf name (source.pick (g.scaleOf name)).1, (source.pick (g.scaleOf name)).2) := by
  unfold drawIndex indexOf scaleOf
  cases g.samplers.get? name <;> rfl

theorem selects?_of_sampler {s : Sampler} (hs : g.samplers.get? name = some s) :
    g.selects? name =
      fun v => ((Scale.weighted s.total).admit? v).map fun unit => Random.locate unit s.weights := by
  funext v
  have hindex : g.indexOf name = fun unit => Random.locate unit s.weights := by
    funext unit
    simp only [indexOf, hs]
  simp only [selects?, scaleOf, hindex, hs]

theorem selects?_of_none (hs : g.samplers.get? name = none) :
    g.selects? name = (Scale.uniform (g.productionsOf name).length).admit? := by
  funext v
  have hindex : g.indexOf name = id := by
    funext answer
    simp only [indexOf, hs, id]
  simp only [selects?, scaleOf, hindex, hs, Option.map_id, id]

theorem choose_of_settles (hg : g.Aligned) (hne : g.productionsOf name ≠ []) {n i : ℕ}
    {source last : Source} (hs : source.Settles (g.drawWidth name) (g.selects? name) n i last)
    (hn : n ≤ source.supply.patience) :
    ∃ h : i < (g.productionsOf name).length,
      g.choose name (g.productionsOf name) source = (some (g.productionsOf name)[i], last) := by
  rw [← width_scaleOf] at hs
  obtain ⟨hindex, hlast⟩ := Random.Source.roll_of_settles hs hn
  have hdraw : g.drawIndex name (g.productionsOf name).length source = (i, last) := by
    rw [drawIndex_eq]
    exact Prod.ext hindex hlast
  have hlt : i < (g.productionsOf name).length := by
    have hbound := (hg.drawIndexChecked_eq hne source).2
    rwa [hdraw] at hbound
  refine ⟨hlt, ?_⟩
  simp only [choose, hdraw, List.getElem?_eq_getElem hlt]

theorem exists_selects?_zero : ∃ i, g.selects? name 0 = some i := by
  have hadmit : (g.scaleOf name).admit? 0 = some ((g.scaleOf name).answer 0) := by
    unfold Scale.admit?
    rw [Nat.zero_mul, Nat.zero_mod, if_pos (Nat.zero_le _)]
  exact ⟨_, by rw [selects?, hadmit]; rfl⟩

/-! ### Counting the words -/

theorem total_sampler (hg : g.Consistent) {s : Sampler} (hs : g.samplers.get? name = some s) :
    0 < s.total ∧ s.total < UInt32.size := by
  obtain ⟨rule, _, _, hrow, htotal, hrule⟩ := (get?_samplers hg).mp hs
  have hne : s.row ≠ [] := by
    rw [hrow]
    exact mt List.map_eq_nil_iff.mp hrule
  exact ⟨Sampler.total_pos (row_ne_zero hg hs) hne, htotal⟩

/-- An index is selected by as many words as its weight has units, times the share of a unit. -/
theorem ways_weighted (hg : g.Consistent) {s : Sampler} (hs : g.samplers.get? name = some s) {i : ℕ}
    (hi : i < s.weights.length) :
    Width.half.ways (g.selects? name) (some i) = s.weights[i] * (UInt32.size / s.total) := by
  obtain ⟨hpos, htotal⟩ := total_sampler hg hs
  have hfair := Scale.fair_weighted hpos htotal
  have hbelow : ∀ v < Width.half.range, ∀ unit, (Scale.weighted s.total).admit? v = some unit →
      unit < s.total := fun v hv unit => Scale.lt_of_admit? (s := .weighted s.total) hpos hv
  have hshare : ∀ unit < s.total,
      Width.half.ways (Scale.weighted s.total).admit? (some unit) = UInt32.size / s.total :=
    fun unit => hfair.ways_answer
  have hunits : ((Finset.range s.total).filter fun unit => Random.locate unit s.weights = i).card =
      s.weights[i] := Random.card_units hi
  rw [selects?_of_sampler hs, Width.ways_map hbelow hshare, hunits]

/-- The words that are turned down are those that cannot be divided among the units. -/
theorem ways_weighted_none (hg : g.Consistent) {s : Sampler} (hs : g.samplers.get? name = some s) :
    Width.half.ways (g.selects? name) none = UInt32.size % s.total := by
  obtain ⟨hpos, htotal⟩ := total_sampler hg hs
  have hnone := (Scale.fair_weighted hpos htotal).ways_none hpos
  have hsplit := Nat.div_add_mod UInt32.size s.total
  calc
    Width.half.ways (g.selects? name) none =
        Width.half.ways (Scale.weighted s.total).admit? none := by
      simp only [Width.ways, selects?_of_sampler hs, Option.map_eq_none_iff]
    _ = UInt32.size - s.total * (UInt32.size / s.total) := hnone
    _ = UInt32.size % s.total := by omega

theorem ways_uniform (hs : g.samplers.get? name = none) {i : ℕ}
    (hi : i < (g.productionsOf name).length) (hsize : (g.productionsOf name).length < UInt64.size) :
    Width.full.ways (g.selects? name) (some i) =
      2 ^ (BitVec.ofNat 64 (g.productionsOf name).length).clz.toNat := by
  have hpos : 0 < (g.productionsOf name).length := Nat.lt_of_le_of_lt (Nat.zero_le i) hi
  rw [selects?_of_none hs]
  exact (Scale.fair_uniform hpos hsize).ways_answer hi

/-- **Every choice is exactly fair.**  A choice among the alternatives of a nonterminal takes the
alternative that the first word which is not turned down selects; from a tape there always is one.
With a sampler the words have 32 bits, and of them each alternative is selected by its weight, as given
for it in the rule, times the share `2 ^ 32 / total`, while the remainder of the division is turned down;
so the alternatives are in exact proportion to their weights.  Without a sampler the words have 64 bits,
and each alternative is selected by two to the number of leading zero bits of the number of alternatives. -/
theorem choose_fair (hg : g.Built) (hne : g.productionsOf name ≠ []) :
    ((∀ n i source last, Source.Settles (g.drawWidth name) (g.selects? name) n source i last →
        n ≤ source.supply.patience → ∃ h : i < (g.productionsOf name).length,
          g.choose name (g.productionsOf name) source = (some (g.productionsOf name)[i], last)) ∧
      ∀ words drawn, ∃ n ≤ words.length, ∃ i last,
        Source.Settles (g.drawWidth name) (g.selects? name) n ⟨.tape words, drawn⟩ i last) ∧
    (∀ s, g.samplers.get? name = some s → g.drawWidth name = .half ∧
      (∃ rule, g.productions.get? name = some rule ∧
        s.weights = rule.map fun text => (g.weights.weightOf name text).toNat) ∧
      s.weights.length = (g.productionsOf name).length ∧
      (∀ i w, s.weights[i]? = some w →
        Width.half.ways (g.selects? name) (some i) = w * (UInt32.size / s.total)) ∧
      Width.half.ways (g.selects? name) none = UInt32.size % s.total ∧
      ∀ i j w u, s.weights[i]? = some w → s.weights[j]? = some u →
        Width.half.ways (g.selects? name) (some i) * u =
          Width.half.ways (g.selects? name) (some j) * w) ∧
    (g.samplers.get? name = none → g.drawWidth name = .full ∧
      ((g.productionsOf name).length < UInt64.size →
        ∀ i < (g.productionsOf name).length, Width.full.ways (g.selects? name) (some i) =
          2 ^ (BitVec.ofNat 64 (g.productionsOf name).length).clz.toNat)) := by
  have hc := hg.consistent
  refine ⟨⟨?_, ?_⟩, ?_, ?_⟩
  · intro n i source last hs hn
    exact choose_of_settles hc.aligned hne hs hn
  · exact Random.Source.exists_settles exists_selects?_zero
  · intro s hs
    obtain ⟨rule, hrule, _, hrow, _⟩ := (get?_samplers hc).mp hs
    have hweights : s.weights = rule.map fun text => (g.weights.weightOf name text).toNat := by
      rw [Sampler.weights, hrow, List.map_map]
      rfl
    have hways : ∀ i w, s.weights[i]? = some w →
        Width.half.ways (g.selects? name) (some i) = w * (UInt32.size / s.total) := by
      intro i w hw
      obtain ⟨hi, rfl⟩ := List.getElem?_eq_some_iff.mp hw
      exact ways_weighted hc hs hi
    refine ⟨by rw [drawWidth, hs], ⟨rule, hrule, hweights⟩, ?_, hways, ways_weighted_none hc hs, ?_⟩
    · rw [hweights, List.length_map, length_productionsOf hc hrule]
    · intro i j w u hw hu
      rw [hways i w hw, hways j u hu, Nat.mul_right_comm, Nat.mul_comm w u, Nat.mul_right_comm]
  · intro hs
    exact ⟨by rw [drawWidth, hs], fun hsize i hi => ways_uniform hs hi hsize⟩

/-- `S` chooses by weight among alternatives of which one is repeated, `B` among three equal ones. -/
def uneven : Grammar where
  nonterminals := OrdSet.ofList ["S", "B"]
  terminals := OrdSet.ofList ['a', 'b']
  productions := mergeRules [("S", ["aB", "b", "aB"]), ("B", ["aS", "a", "b"])]
  start := "S"
  weights := Weights.ofEntries [⟨"S", "aB", 3⟩]
  limits := {}
  alternatives := ⟨[("S", [⟨'a', some "B"⟩, ⟨'b', none⟩, ⟨'a', some "B"⟩]),
    ("B", [⟨'a', some "S"⟩, ⟨'a', none⟩, ⟨'b', none⟩])], by decide⟩
  samplers := ⟨[("S", ⟨[3, 1, 3]⟩)], by decide⟩

theorem uneven_built : uneven.Built := by
  have hmake : make ["S", "B"] ['a', 'b'] [("S", ["aB", "b", "aB"]), ("B", ["aS", "a", "b"])] "S" =
      .ok { uneven with weights := ∅, samplers := ∅ } := by decide
  have hweights : Grammar.withWeights { uneven with weights := ∅, samplers := ∅ }
      (Weights.ofEntries [⟨"S", "aB", 3⟩]) = .ok uneven := by decide
  exact .withWeights (.make hmake) hweights

/-- The product of the first word with the total of seven has a low part of which all bits are set, so
the word is turned down. -/
theorem uneven_fair : uneven.Built ∧ uneven.productionsOf "S" ≠ [] ∧ uneven.productionsOf "B" ≠ [] ∧
    Width.half.ways (uneven.selects? "S") (some 2) = 3 * 613566756 ∧
    Width.half.ways (uneven.selects? "S") (some 1) = 613566756 ∧
    Width.half.ways (uneven.selects? "S") none = 4 ∧
    Width.full.ways (uneven.selects? "B") (some 2) = 4611686018427387904 ∧
    uneven.choose "S" (uneven.productionsOf "S") (.ofWords [1227133513, 2000000000]) =
      (some ⟨'b', none⟩, ⟨.tape [], 2⟩) := by
  have hS : uneven.productionsOf "S" ≠ [] := by decide
  have hB : uneven.productionsOf "B" ≠ [] := by decide
  have hsampler : uneven.samplers.get? "S" = some ⟨[3, 1, 3]⟩ := by decide
  have hsettles : Source.Settles (uneven.drawWidth "S") (uneven.selects? "S") 1
      (.ofWords [1227133513, 2000000000]) 1 ⟨.tape [], 2⟩ :=
    .redrawn (by decide) (.taken (by decide))
  obtain ⟨⟨hchoose, _⟩, hweighted, _⟩ := choose_fair uneven_built hS
  obtain ⟨_, _, _, hways, hnone, _⟩ := hweighted _ hsampler
  obtain ⟨_, _, huniform⟩ := choose_fair uneven_built hB
  refine ⟨uneven_built, hS, hB, ?_, ?_, hnone, ?_, ?_⟩
  · exact hways 2 3 (by decide)
  · exact hways 1 1 (by decide)
  · exact (huniform (by decide)).2 (by decide) 2 (by decide)
  · obtain ⟨_, h⟩ := hchoose 1 1 _ _ hsettles (by decide)
    exact h

end Grammar
end RightLinear
