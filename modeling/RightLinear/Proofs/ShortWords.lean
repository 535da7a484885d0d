import Mathlib.Data.List.Perm.Subperm
import RightLinear.Proofs.Generation

/-! # Short words

A grammar that derives any word derives one with at most as many characters as there are nonterminals,
so the limit `n - 1` on the steps is enough to tell whether the language of `n` nonterminals is empty.

* What follows the first character of a shortest word of a nonterminal is a shortest word of the next
  one (`Shortest.tail`).  So the nonterminals along its derivation have shorter and shorter shortest
  words, and none of them comes twice (`Shortest.exists_names`).
* Nonterminals whose alternatives all lead back among them have no word at all (`not_derives_of_closed`):
  this is how a language comes to be empty.
* The walk of a short word is within the limit, and without a word every tape exhausts the attempts. -/

namespace RightLinear.Grammar

open RightLinear.Random (Source)

variable {g : Grammar} {name next : String} {word other : List Char}

/-! ### Shortest words -/

/-- The word belongs to the nonterminal, and no word of the nonterminal is shorter. -/
structure Shortest (g : Grammar) (name : String) (word : List Char) : Prop where
  derives : g.Derives name word
  least : ∀ {other}, g.Derives name other → word.length ≤ other.length

theorem exists_shortest (h : g.Derives name word) : ∃ short, g.Shortest name short := by
  induction hn : word.length using Nat.strongRecOn generalizing word with
  | ind n ih =>
      by_cases hleast : ∃ other, g.Derives name other ∧ other.length < word.length
      · obtain ⟨other, hother, hlt⟩ := hleast
        exact ih other.length (hn ▸ hlt) hother rfl
      · refine ⟨word, h, fun {other} hother => ?_⟩
        have hnot : ¬ other.length < word.length := fun hlt => hleast ⟨other, hother, hlt⟩
        omega

theorem Shortest.length_eq (h : g.Shortest name word) (ho : g.Shortest name other) :
    word.length = other.length := by
  have hle := h.least ho.derives
  have hge := ho.least h.derives
  omega

theorem Shortest.tail {p : Production} (hp : p ∈ g.productionsOf name) (hnext : p.next = some next)
    (hd : g.Derives next word) (h : g.Shortest name (p.terminal :: word)) : g.Shortest next word := by
  refine ⟨hd, fun {other} hother => ?_⟩
  have hle := h.least (.more hp hnext hother)
  simp only [List.length_cons] at hle
  omega

/-- The nonterminals along the derivation of a shortest word are all different. -/
theorem Shortest.exists_names (hg : g.Consistent) (h : g.Shortest name word) :
    ∃ names : List String, names.length = word.length ∧ names.Nodup ∧
      ∀ a ∈ names, a ∈ g.nonterminals ∧ ∃ short, g.Shortest a short ∧ short.length ≤ word.length := by
  have hd := h.derives
  induction hd with
  | @last name p hp hnext =>
      refine ⟨[name], rfl, List.nodup_singleton name, fun a ha => ?_⟩
      obtain rfl := List.mem_singleton.mp ha
      exact ⟨(declared_of_mem_productionsOf hg hp).1, _, h, Nat.le_refl _⟩
  | @more name next p word hp hnext hd ih =>
      obtain ⟨names, hlength, hnodup, hnames⟩ := ih (Shortest.tail hp hnext hd h)
      -- A second visit to `name` would give it a word shorter than its shortest one.
      have hnew : name ∉ names := by
        intro hmem
        obtain ⟨_, short, hshort, hle⟩ := hnames name hmem
        have heq := h.length_eq hshort
        simp only [List.length_cons] at heq
        omega
      refine ⟨name :: names, congrArg (· + 1) hlength, List.nodup_cons.mpr ⟨hnew, hnodup⟩, ?_⟩
      intro a ha
      rcases List.mem_cons.mp ha with rfl | ha
      · exact ⟨(declared_of_mem_productionsOf hg hp).1, _, h, Nat.le_refl _⟩
      · obtain ⟨hdeclared, short, hshort, hle⟩ := hnames a ha
        exact ⟨hdeclared, short, hshort, Nat.le_succ_of_le hle⟩

theorem Shortest.length_le (hg : g.Consistent) (h : g.Shortest name word) :
    word.length ≤ g.nonterminals.size := by
  obtain ⟨names, hlength, hnodup, hnames⟩ := h.exists_names hg
  have hsubset : names ⊆ g.nonterminals.toList := fun a ha => (hnames a ha).1
  have hle := (List.subperm_of_subset hnodup hsubset).length_le
  rw [hlength] at hle
  exact hle

theorem exists_derives_le (hg : g.Consistent) (h : g.Derives name word) :
    ∃ short, g.Derives name short ∧ short.length ≤ g.nonterminals.size := by
  obtain ⟨short, hshort⟩ := exists_shortest h
  exact ⟨short, hshort.derives, hshort.length_le hg⟩

/-! ### Nonterminals without words -/

/-- Nonterminals whose alternatives, if any, all lead back among them have no word. -/
theorem not_derives_of_closed (dead : String → Prop)
    (hclosed : ∀ name, dead name → ∀ p ∈ g.productionsOf name, ∃ next, p.next = some next ∧ dead next)
    (hname : dead name) : ¬ g.Derives name word := by
  intro h
  induction h with
  | last hp hnext =>
      obtain ⟨next, hsome, _⟩ := hclosed _ hname _ hp
      rw [hnext] at hsome
      cases hsome
  | more hp hnext _ ih =>
      obtain ⟨next, hsome, hdead⟩ := hclosed _ hname _ hp
      rw [hnext] at hsome
      cases hsome
      exact ih hdead

/-! ### Generation -/

/-- **A language that is not empty shows within as many characters as there are nonterminals.**  If the
automaton of a grammar with `n` nonterminals accepts any word, it accepts one of at most `n` characters.
So with at least one attempt and any limit from `n - 1` on, some tape makes generation succeed if and only
if the language is not empty; and if it is empty, every tape exhausts the attempts. -/
theorem generates_iff_nonempty (hg : g.Built) :
    ((∃ word, g.toAutomaton.accepts word = true) →
      ∃ word, g.toAutomaton.accepts word = true ∧ word.length ≤ g.nonterminals.size) ∧
    (∀ limit : UInt64, g.Indexable → 1 ≤ g.limits.maxAttempts.toNat →
      g.nonterminals.size - 1 ≤ limit.toNat →
      ((∃ words word, (g.generate limit (.ofWords words)).1 = .ok word) ↔
        ∃ word, g.toAutomaton.accepts word = true)) ∧
    ((∀ word, g.toAutomaton.accepts word = false) → ∀ limit words,
      (g.generate limit (.ofWords words)).1 = .error ⟨g.limits.maxAttempts, limit⟩) := by
  have hc := hg.consistent
  refine ⟨?_, ?_, ?_⟩
  · rintro ⟨word, hword⟩
    obtain ⟨short, hshort, hle⟩ := exists_derives_le hc ((accepts_iff_derives hc).mp hword)
    exact ⟨short, (accepts_iff_derives hc).mpr hshort, hle⟩
  · intro limit hindex hattempts hlimit
    constructor
    · rintro ⟨words, word, h⟩
      exact ⟨word, (accepts_iff_derives hc).mpr (derives_of_generate h).1⟩
    · rintro ⟨word, hword⟩
      obtain ⟨short, hshort, hle⟩ := exists_derives_le hc ((accepts_iff_derives hc).mp hword)
      have hwithin : short.length ≤ limit.toNat + 1 := by omega
      obtain ⟨words, h⟩ := exists_generate hc hindex hattempts hshort hwithin
      exact ⟨words, short, h⟩
  · intro hempty limit words
    rcases generate_eq_ok_or_error (g := g) limit (.ofWords words) with ⟨word, h⟩ | h
    · have haccepts := (accepts_iff_derives hc).mpr (derives_of_generate h).1
      rw [hempty word] at haccepts
      cases haccepts
    · exact h

/-- A word of `relay` passes through all three nonterminals. -/
def relay : Grammar where
  nonterminals := OrdSet.ofList ["S", "A", "B"]
  terminals := OrdSet.ofList ['a', 'b']
  productions := mergeRules [("S", ["aS", "aA"]), ("A", ["bS", "bB"]), ("B", ["b"])]
  start := "S"
  weights := ∅
  limits := {}
  alternatives := ⟨[("S", [⟨'a', some "S"⟩, ⟨'a', some "A"⟩]), ("A", [⟨'b', some "S"⟩, ⟨'b', some "B"⟩]),
    ("B", [⟨'b', none⟩])], by decide⟩
  samplers := ∅

theorem relay_built : relay.Built := by
  have h : make ["S", "A", "B"] ['a', 'b'] [("S", ["aS", "aA"]), ("A", ["bS", "bB"]), ("B", ["b"])] "S" =
      .ok relay := by decide
  exact .make h

/-- `S` and `A` lead to each other and to `D`, which has no alternatives. -/
def barren : Grammar where
  nonterminals := OrdSet.ofList ["S", "A", "D"]
  terminals := OrdSet.ofList ['a', 'b']
  productions := mergeRules [("S", ["aS", "bA"]), ("A", ["aS", "bD"])]
  start := "S"
  weights := ∅
  limits := {}
  alternatives := ⟨[("S", [⟨'a', some "S"⟩, ⟨'b', some "A"⟩]), ("A", [⟨'a', some "S"⟩, ⟨'b', some "D"⟩])],
    by decide⟩
  samplers := ∅

theorem barren_built : barren.Built := by
  have h : make ["S", "A", "D"] ['a', 'b'] [("S", ["aS", "bA"]), ("A", ["aS", "bD"])] "S" = .ok barren := by
    decide
  exact .make h

theorem accepts_barren (word : List Char) : barren.toAutomaton.accepts word = false := by
  rw [← Bool.not_eq_true, accepts_iff_derives barren_built.consistent]
  refine not_derives_of_closed (fun _ => True) (fun name _ p hp => ?_) trivial
  have hall : ∀ e ∈ barren.alternatives.entries, ∀ p ∈ e.2, p.next.isSome = true := by decide
  unfold productionsOf at hp
  cases hps : barren.alternatives.get? name with
  | none => rw [hps] at hp; cases hp
  | some ps =>
      rw [hps] at hp
      obtain ⟨next, hnext⟩ := Option.isSome_iff_exists.mp (hall _ (OrdMap.get?_eq_some.mp hps) p hp)
      exact ⟨next, hnext, trivial⟩

/-- With three nonterminals the limit 2 is enough for `relay`; no limit is for `barren`. -/
theorem relay_generates : relay.Built ∧ barren.Built ∧
    (∃ word, relay.toAutomaton.accepts word = true ∧ word.length ≤ 3) ∧
    (∃ words word, (relay.generate 2 (.ofWords words)).1 = .ok word) ∧
    ∀ limit words, (barren.generate limit (.ofWords words)).1 = .error ⟨50, limit⟩ := by
  have haccepts : ∃ word, relay.toAutomaton.accepts word = true := ⟨['a', 'b', 'a', 'b', 'b'], by decide⟩
  have hindex : relay.Indexable := indexable_of_entries (by decide)
  obtain ⟨hshort, hgenerate, _⟩ := generates_iff_nonempty relay_built
  refine ⟨relay_built, barren_built, hshort haccepts, ?_, ?_⟩
  · exact (hgenerate 2 hindex (by decide) (by decide)).mpr haccepts
  · exact (generates_iff_nonempty barren_built).2.2 accepts_barren

end RightLinear.Grammar
