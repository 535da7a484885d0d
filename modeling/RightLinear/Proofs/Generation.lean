import RightLinear.Proofs.Draws
import RightLinear.Proofs.Language
import RightLinear.Proofs.Walk

/-! # What can be generated

As the random words range over all tapes, generation with the limit `N` yields exactly the accepted
words of at most `N + 1` characters, by whatever weights.

* A walk that ends has derived its output, one step for each character (`derives_of_walk`).
* Every alternative is chosen at some first word of the tape (`exists_choose`), so every short enough
  derivation is walked on some tape (`exists_walk`).
* Generation returns what one of its attempts returns, and the first attempt is free to succeed. -/

namespace RightLinear.Grammar

open RightLinear.Random (Source)

/-- Every index of an alternative is a 64-bit word, as in any list held in memory. -/
def Indexable (g : Grammar) : Prop := ∀ name, (g.productionsOf name).length ≤ UInt64.size

variable {g : Grammar}

theorem indexable_of_entries (h : ∀ e ∈ g.alternatives.entries, e.2.length ≤ UInt64.size) :
    g.Indexable := by
  intro name
  unfold productionsOf
  cases hps : g.alternatives.get? name with
  | none => exact Nat.zero_le _
  | some ps => exact h _ (OrdMap.get?_eq_some.mp hps)

/-! ### One choice -/

theorem mem_of_choose {name : String} {ps : List Production} {source source' : Source}
    {p : Production} (h : g.choose name ps source = (some p, source')) : p ∈ ps := by
  unfold choose at h
  exact List.mem_of_getElem? (congrArg Prod.fst h)

theorem exists_drawIndex (hg : g.Consistent) (hindex : g.Indexable) {name : String} {i : ℕ}
    (hi : i < (g.productionsOf name).length) :
    ∃ w, ∀ rest n, g.drawIndex name (g.productionsOf name).length ⟨.tape (w :: rest), n⟩ =
      (i, ⟨.tape rest, n + 1⟩) := by
  unfold drawIndex
  cases hs : g.samplers.get? name with
  | some sampler =>
      obtain ⟨rule, hrule, _, hrow, htotal, _⟩ := (get?_samplers hg).mp hs
      refine Sampler.exists_pick_index (row_ne_zero hg hs) htotal ?_
      rw [hrow, List.length_map, ← length_productionsOf hg hrule]
      exact hi
  | none => exact Random.exists_pick (hindex name) (Random.Scale.count_le_uniform_zone _) hi

theorem exists_choose (hg : g.Consistent) (hindex : g.Indexable) {name : String} {p : Production}
    (hp : p ∈ g.productionsOf name) :
    ∃ w, ∀ rest n, g.choose name (g.productionsOf name) ⟨.tape (w :: rest), n⟩ =
      (some p, ⟨.tape rest, n + 1⟩) := by
  obtain ⟨i, hi, rfl⟩ := List.getElem_of_mem hp
  obtain ⟨w, hw⟩ := exists_drawIndex hg hindex hi
  refine ⟨w, fun rest n => ?_⟩
  simp only [choose, hw, List.getElem?_eq_getElem hi]

/-! ### One walk -/

/-- A walk that ends appends a word of its nonterminal, within the budget. -/
theorem derives_of_walk {budget : ℕ} {front word : List Char} {name : String}
    {source source' : Source} (h : g.walk budget front (some name) source = (some word, source')) :
    ∃ tail, word = front ++ tail ∧ g.Derives name tail ∧ tail.length ≤ budget := by
  induction budget generalizing front name source with
  | zero => cases h
  | succ budget ih =>
      rw [walk] at h
      split at h
      · cases h
      · split at h
        · cases h
        · next p rest hchoose =>
          have hp := mem_of_choose hchoose
          cases hnext : p.next with
          | none =>
              rw [hnext, walk] at h
              cases h
              exact ⟨[p.terminal], rfl, .last hp hnext, Nat.succ_le_succ (Nat.zero_le budget)⟩
          | some next =>
              rw [hnext] at h
              obtain ⟨tail, rfl, hd, hlength⟩ := ih h
              exact ⟨p.terminal :: tail, by simp, .more hp hnext hd, Nat.succ_le_succ hlength⟩

/-- Every derivation within the budget is walked on a suitable tape. -/
theorem exists_walk (hg : g.Consistent) (hindex : g.Indexable) {name : String} {tail : List Char}
    (h : g.Derives name tail) : ∃ words, ∀ budget, tail.length ≤ budget → ∀ front rest n,
      g.walk budget front (some name) ⟨.tape (words ++ rest), n⟩ =
        (some (front ++ tail), ⟨.tape rest, n + tail.length⟩) := by
  induction h with
  | @last name p hp hnext =>
      obtain ⟨w, hw⟩ := exists_choose hg hindex hp
      refine ⟨[w], fun budget hbudget front rest n => ?_⟩
      obtain ⟨budget, rfl⟩ := Nat.exists_eq_add_one_of_ne_zero (Nat.pos_iff_ne_zero.mp hbudget)
      rw [walk, if_neg (List.ne_nil_of_mem hp), List.singleton_append, hw]
      dsimp only
      rw [hnext, walk]
      rfl
  | @more name next p tail hp hnext _ ih =>
      -- The tape is found before budget, front and what follows on it, so that another draw can be put
      -- in front of it.
      obtain ⟨w, hw⟩ := exists_choose hg hindex hp
      obtain ⟨words, hwords⟩ := ih
      refine ⟨w :: words, fun budget hbudget front rest n => ?_⟩
      rw [List.length_cons] at hbudget ⊢
      obtain ⟨budget, rfl⟩ := Nat.exists_eq_add_one_of_ne_zero (by omega : budget ≠ 0)
      rw [walk, if_neg (List.ne_nil_of_mem hp), List.cons_append, hw]
      dsimp only
      rw [hnext, hwords budget (by omega), List.append_assoc, List.singleton_append]
      have hdraws : n + 1 + tail.length = n + (tail.length + 1) := by omega
      rw [hdraws]

/-! ### Attempts -/

theorem exists_derive_of_attempt {limit : UInt64} {attempts : ℕ} {source source' : Source}
    {word : List Char} (h : g.attempt limit attempts source = (some word, source')) :
    ∃ before, (g.derive limit before).1 = some word := by
  induction attempts generalizing source with
  | zero => cases h
  | succ attempts ih =>
      rw [attempt] at h
      split at h
      · next hd =>
        cases h
        exact ⟨source, congrArg Prod.fst hd⟩
      · exact ih h

theorem exists_derive_of_generate {limit : UInt64} {source : Source} {word : List Char}
    (h : (g.generate limit source).1 = .ok word) :
    ∃ before, (g.derive limit before).1 = some word := by
  unfold generate at h
  split at h
  · next hattempt =>
    cases h
    exact exists_derive_of_attempt hattempt
  · cases h

theorem derives_of_generate {limit : UInt64} {source : Source} {word : List Char}
    (h : (g.generate limit source).1 = .ok word) :
    g.Derives g.start word ∧ word.length ≤ limit.toNat + 1 := by
  obtain ⟨before, hd⟩ := exists_derive_of_generate h
  rw [derive_eq_walk] at hd
  obtain ⟨tail, rfl, hderives, hlength⟩ := derives_of_walk (Prod.ext hd rfl)
  exact ⟨hderives, hlength⟩

theorem exists_generate (hg : g.Consistent) (hindex : g.Indexable)
    (hattempts : 1 ≤ g.limits.maxAttempts.toNat) {limit : UInt64} {word : List Char}
    (h : g.Derives g.start word) (hlength : word.length ≤ limit.toNat + 1) :
    ∃ words, (g.generate limit (.ofWords words)).1 = .ok word := by
  obtain ⟨words, hwords⟩ := exists_walk hg hindex h
  have hderive : g.derive limit (.ofWords words) = (some word, ⟨.tape [], 0 + word.length⟩) := by
    have hwalk := hwords (limit.toNat + 1) hlength [] [] 0
    rw [List.append_nil] at hwalk
    rw [derive_eq_walk]
    exact hwalk
  obtain ⟨attempts, hsucc⟩ := Nat.exists_eq_add_one_of_ne_zero (Nat.pos_iff_ne_zero.mp hattempts)
  refine ⟨words, ?_⟩
  rw [generate, hsucc, attempt, hderive]

theorem generate_eq_ok_or_error (limit : UInt64) (source : Source) :
    (∃ word, (g.generate limit source).1 = .ok word) ∨
      (g.generate limit source).1 = .error ⟨g.limits.maxAttempts, limit⟩ := by
  unfold generate
  split
  · exact .inl ⟨_, rfl⟩
  · exact .inr rfl

/-- **Generation reaches exactly the accepted words that are short enough.**  With at least one
attempt and the limit `N`, the words generated from tapes are the accepted words of at most `N + 1`
characters; each was derived in at most `N + 1` rewrites; and if there is no such word, every tape
exhausts the attempts. -/
theorem generate_iff_accepts (hg : g.Built) (hindex : g.Indexable)
    (hattempts : 1 ≤ g.limits.maxAttempts.toNat) (limit : UInt64) :
    (∀ word, (∃ words, (g.generate limit (.ofWords words)).1 = .ok word) ↔
      g.toAutomaton.accepts word = true ∧ word.length ≤ limit.toNat + 1) ∧
    (∀ words word, (g.generate limit (.ofWords words)).1 = .ok word →
      ∃ n ≤ limit.toNat + 1, g.Rewrites n [.nonterminal g.start] (word.map .terminal)) ∧
    ((¬ ∃ word, g.toAutomaton.accepts word = true ∧ word.length ≤ limit.toNat + 1) →
      ∀ words, (g.generate limit (.ofWords words)).1 = .error ⟨g.limits.maxAttempts, limit⟩) := by
  have hc := hg.consistent
  refine ⟨?_, ?_, ?_⟩
  · intro word
    rw [accepts_iff_derives hc]
    constructor
    · rintro ⟨words, h⟩
      exact derives_of_generate h
    · rintro ⟨hd, hlength⟩
      exact exists_generate hc hindex hattempts hd hlength
  · intro words word h
    obtain ⟨hd, hlength⟩ := derives_of_generate h
    exact ⟨word.length, hlength, (rewrites_iff_derives hc).mpr ⟨hd, rfl⟩⟩
  · intro hnone words
    rcases generate_eq_ok_or_error (g := g) limit (.ofWords words) with ⟨word, h⟩ | h
    · obtain ⟨hd, hlength⟩ := derives_of_generate h
      exact absurd ⟨word, (accepts_iff_derives hc).mpr hd, hlength⟩ hnone
    · exact h

/-- The weights of `S` have the greatest sum that is admitted. -/
def lopsided : Grammar :=
  { crowded with
    weights := Weights.ofEntries [⟨"S", "a", 4294967294⟩]
    samplers := ⟨[("S", ⟨[1, 4294967294]⟩)], by decide⟩ }

theorem lopsided_built : lopsided.Built := by
  have h : crowded.withWeights (Weights.ofEntries [⟨"S", "a", 4294967294⟩]) = .ok lopsided := by
    decide
  exact .withWeights crowded_built h

theorem lopsided_generate : lopsided.Built ∧ lopsided.Indexable ∧
    1 ≤ lopsided.limits.maxAttempts.toNat ∧
    (∃ words, (lopsided.generate 2 (.ofWords words)).1 = .ok ['a', 'b', 'a']) ∧
    ¬ ∃ words, (lopsided.generate 1 (.ofWords words)).1 = .ok ['a', 'b', 'a'] := by
  have hindex : lopsided.Indexable := indexable_of_entries (by decide)
  have hattempts : 1 ≤ lopsided.limits.maxAttempts.toNat := by decide
  refine ⟨lopsided_built, hindex, hattempts, ?_, fun h => ?_⟩
  · exact ((generate_iff_accepts lopsided_built hindex hattempts 2).1 _).mpr (by decide)
  · have hshort := ((generate_iff_accepts lopsided_built hindex hattempts 1).1 _).mp h
    exact absurd hshort.2 (by decide)

end RightLinear.Grammar
