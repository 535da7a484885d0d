import Mathlib.Data.List.Basic
import RightLinear.Automaton.Membership

/-! # Membership and paths

An automaton accepts a word if and only if a path labelled with the word leads from its start state
to an accepting one.

* `WellFormed` lists what the check of the components guarantees (`fault?_eq_none`).
* `Path` is the relation "reading the word leads from one state to another"; `Visits` says the same
  of the whole sequence of states (`path_iff_visits`).
* `reach` is the subset simulation without its two early exits.  Its invariant is `mem_reach`: the
  active set after a word holds exactly the ends of the paths labelled with the word.
* In a well-formed automaton a symbol outside the alphabet has no targets, so both exits agree with
  what the plain simulation would have found (`acceptsFrom_eq_any_reach`). -/

namespace RightLinear.Automaton

/-- The automata made of five components or of a list of transitions. -/
inductive Built : Automaton → Prop
  | make {states : List String} {alphabet : List Char} {delta : Delta} {start : String}
      {accepting : List String} {m : Automaton} :
      Automaton.make states alphabet delta start accepting = .ok m → Built m
  | ofTransitions {start : String} {accepting : List String} {transitions : List Transition}
      {m : Automaton} :
      Automaton.ofTransitions start accepting transitions = .ok m → Built m

/-- Everything that the components mention is declared. -/
structure WellFormed (m : Automaton) : Prop where
  start_mem : m.start ∈ m.states
  accepting_mem : ∀ q ∈ m.accepting, q ∈ m.states
  source_mem : ∀ q ∈ m.delta.keys, q ∈ m.states
  symbol_mem : ∀ {q c s}, m.targets? q c = some s → c ∈ m.alphabet
  target_mem : ∀ {q c s}, m.targets? q c = some s → ∀ r ∈ s, r ∈ m.states

/-- Reading the word leads from the first state to the last. -/
inductive Path (m : Automaton) : String → List Char → String → Prop
  | nil (q : String) : Path m q [] q
  | cons {q r s : String} {c : Char} {word : List Char} :
      r ∈ m.targets q c → Path m r word s → Path m q (c :: word) s

/-- While the word is read, the states `q 0`, `q 1`, … follow each other. -/
def Visits (m : Automaton) (q : ℕ → String) (word : List Char) : Prop :=
  ∀ i (h : i < word.length), q (i + 1) ∈ m.targets (q i) word[i]

variable {m : Automaton}

/-! ### The check of the components -/

theorem targets?_eq_some {q : String} {c : Char} {s : OrdSet String} :
    m.targets? q c = some s ↔ ∃ row, (q, row) ∈ m.delta.entries ∧ (c, s) ∈ row.entries := by
  simp only [targets?, Delta.targets?, Option.bind_eq_some_iff, OrdMap.get?_eq_some]

theorem mem_targets {q r : String} {c : Char} :
    r ∈ m.targets q c ↔ ∃ s, m.targets? q c = some s ∧ r ∈ s := by
  unfold targets
  cases m.targets? q c <;> simp

theorem find?_undeclared_eq_none {l : List String} :
    (l.find? fun q => !m.states.contains q) = none ↔ ∀ q ∈ l, q ∈ m.states := by
  simp

theorem cellFault?_eq_none {q : String} {c : Char} {s : OrdSet String} :
    m.cellFault? q c s = none ↔ c ∈ m.alphabet ∧ ∀ r ∈ s, r ∈ m.states := by
  unfold cellFault?
  split
  · next h =>
    rw [Option.map_eq_none_iff, find?_undeclared_eq_none]
    exact ⟨fun hs => ⟨h, hs⟩, fun hs => hs.2⟩
  · next h => simp [h]

theorem rowFault?_eq_none {q : String} {row : OrdMap Char (OrdSet String)} :
    m.rowFault? q row = none ↔ q ∈ m.states ∧
      ∀ e ∈ row.entries, e.1 ∈ m.alphabet ∧ ∀ r ∈ e.2, r ∈ m.states := by
  unfold rowFault?
  split
  · next h => simp [h, cellFault?_eq_none]
  · next h => simp [h]

theorem fault?_eq_none : m.fault? = none ↔ m.WellFormed := by
  have hrows : (∀ e ∈ m.delta.entries, m.rowFault? e.1 e.2 = none) ↔
      (∀ q ∈ m.delta.keys, q ∈ m.states) ∧
        ∀ q c s, m.targets? q c = some s → c ∈ m.alphabet ∧ ∀ r ∈ s, r ∈ m.states := by
    simp only [rowFault?_eq_none, targets?_eq_some, OrdMap.keys, List.mem_map]
    constructor
    · intro h
      refine ⟨?_, ?_⟩
      · rintro q ⟨e, he, rfl⟩
        exact (h e he).1
      · rintro q c s ⟨row, hrow, hcell⟩
        exact (h _ hrow).2 _ hcell
    · rintro ⟨hk, ht⟩ e he
      exact ⟨hk _ ⟨e, he, rfl⟩, fun cell hcell => ht _ _ _ ⟨e.2, he, hcell⟩⟩
  unfold fault?
  constructor
  · intro h
    split at h
    · next hs =>
      split at h
      · cases h
      · next ha =>
        obtain ⟨hk, ht⟩ := hrows.mp (List.findSome?_eq_none_iff.mp h)
        exact ⟨hs, find?_undeclared_eq_none.mp ha, hk, fun e => (ht _ _ _ e).1,
          fun e => (ht _ _ _ e).2⟩
    · cases h
  · intro hm
    have ha := find?_undeclared_eq_none.mpr hm.accepting_mem
    have hd := hrows.mpr ⟨hm.source_mem, fun q c s h => ⟨hm.symbol_mem h, hm.target_mem h⟩⟩
    simp only [hm.start_mem, if_true, ha]
    exact List.findSome?_eq_none_iff.mpr hd

theorem wellFormed_of_make {states : List String} {alphabet : List Char} {delta : Delta}
    {start : String} {accepting : List String}
    (h : make states alphabet delta start accepting = .ok m) : m.WellFormed := by
  unfold make at h
  dsimp only at h
  split at h
  · cases h
  · next hf =>
    cases h
    exact fault?_eq_none.mp hf

theorem Built.wellFormed (hm : m.Built) : m.WellFormed := by
  cases hm with
  | make h => exact wellFormed_of_make h
  | ofTransitions h => exact wellFormed_of_make h

/-! ### Paths and sequences of states -/

theorem path_nil {q r : String} : m.Path q [] r ↔ q = r :=
  ⟨fun h => by cases h; rfl, fun h => h ▸ .nil q⟩

theorem path_cons {q s : String} {c : Char} {word : List Char} :
    m.Path q (c :: word) s ↔ ∃ r ∈ m.targets q c, m.Path r word s := by
  constructor
  · intro h
    cases h with
    | cons hr h => exact ⟨_, hr, h⟩
  · rintro ⟨r, hr, h⟩
    exact .cons hr h

theorem path_iff_visits {q r : String} {word : List Char} :
    m.Path q word r ↔ ∃ f : ℕ → String, f 0 = q ∧ m.Visits f word ∧ f word.length = r := by
  constructor
  · intro h
    induction h with
    | nil q => exact ⟨fun _ => q, rfl, fun i hi => absurd hi (Nat.not_lt_zero i), rfl⟩
    | @cons q r s c word hr _ ih =>
        obtain ⟨f, h0, hv, hl⟩ := ih
        refine ⟨fun i => Nat.casesOn i q f, rfl, ?_, hl⟩
        intro i hi
        cases i with
        | zero => rw [← h0] at hr; exact hr
        | succ i => exact hv i (Nat.lt_of_succ_lt_succ hi)
  · rintro ⟨f, rfl, hv, rfl⟩
    induction word generalizing f with
    | nil => exact .nil _
    | cons c word ih =>
        have h0 : f 1 ∈ m.targets (f 0) c := hv 0 (Nat.succ_pos _)
        have hrest : m.Visits (fun i => f (i + 1)) word :=
          fun i hi => hv (i + 1) (Nat.succ_lt_succ hi)
        exact .cons h0 (ih (fun i => f (i + 1)) hrest)

/-! ### The subset simulation -/

variable (m)

/-- The active set after the word, with neither exit taken. -/
def reach (active : OrdSet String) (word : List Char) : OrdSet String :=
  word.foldl m.advance active

variable {m}

/-- The invariant of the simulation: the active states are the ends of the paths from those active
before. -/
theorem mem_reach {active : OrdSet String} {word : List Char} {r : String} :
    r ∈ m.reach active word ↔ ∃ q ∈ active, m.Path q word r := by
  induction word generalizing active with
  | nil => simp [reach, path_nil]
  | cons c word ih =>
      -- The first symbol changes the set, so the induction is over all sets at once.
      show r ∈ m.reach (m.advance active c) word ↔ _
      rw [ih]
      constructor
      · rintro ⟨p, hp, hpath⟩
        obtain ⟨q, hq, hqp⟩ := m.mem_advance.mp hp
        exact ⟨q, hq, path_cons.mpr ⟨p, hqp, hpath⟩⟩
      · rintro ⟨q, hq, hpath⟩
        obtain ⟨p, hqp, hpath⟩ := path_cons.mp hpath
        exact ⟨p, m.mem_advance.mpr ⟨q, hq, hqp⟩, hpath⟩

theorem reach_empty (word : List Char) : m.reach ∅ word = ∅ := by
  induction word with
  | nil => rfl
  | cons c word ih => exact ih

theorem advance_of_not_mem (hm : m.WellFormed) {active : OrdSet String} {c : Char}
    (hc : ¬ c ∈ m.alphabet) : m.advance active c = ∅ := by
  have hq : ∀ q, m.targets q c = [] := by
    intro q
    unfold targets
    cases h : m.targets? q c with
    | none => rfl
    | some s => exact absurd (hm.symbol_mem h) hc
  simp only [advance, hq]
  induction active.toList with
  | nil => rfl
  | cons q l ih => exact ih

/-- Neither exit changes what the simulation finds. -/
theorem acceptsFrom_eq_any_reach (hm : m.WellFormed) (active : OrdSet String) (word : List Char) :
    m.acceptsFrom active word = (m.reach active word).toList.any m.accepting.contains := by
  induction word generalizing active with
  | nil => rfl
  | cons c word ih =>
      show _ = (m.reach (m.advance active c) word).toList.any m.accepting.contains
      rw [acceptsFrom]
      by_cases hc : c ∈ m.alphabet
      · rw [if_pos hc]
        dsimp only
        split
        · next he =>
          rw [OrdSet.isEmpty_eq_true.mp he, reach_empty]
          rfl
        · exact ih _
      · rw [if_neg hc, advance_of_not_mem hm hc, reach_empty]
        rfl

theorem accepts_iff_path (hm : m.WellFormed) {word : List Char} :
    m.accepts word = true ↔ ∃ r ∈ m.accepting, m.Path m.start word r := by
  unfold accepts
  rw [acceptsFrom_eq_any_reach hm, List.any_eq_true]
  simp only [OrdSet.mem_toList, OrdSet.contains_eq_true, mem_reach, OrdSet.mem_singleton]
  constructor
  · rintro ⟨r, ⟨q, rfl, hpath⟩, hr⟩
    exact ⟨r, hr, hpath⟩
  · rintro ⟨r, hr, hpath⟩
    exact ⟨r, ⟨m.start, rfl, hpath⟩, hr⟩

/-- **Membership is the existence of a run.**  A word is accepted exactly if states follow each
other along it from the start state to an accepting one, and the two exits of the simulation, at a
symbol outside the alphabet and at an empty active set, never decide otherwise than the simulation
without them. -/
theorem accepts_iff_visits (hm : m.Built) (word : List Char) :
    (m.accepts word = true ↔
      ∃ q : ℕ → String, q 0 = m.start ∧ m.Visits q word ∧ q word.length ∈ m.accepting) ∧
    m.accepts word =
      (m.reach (OrdSet.singleton m.start) word).toList.any m.accepting.contains := by
  refine ⟨?_, acceptsFrom_eq_any_reach hm.wellFormed _ _⟩
  rw [accepts_iff_path hm.wellFormed]
  constructor
  · rintro ⟨r, hr, hpath⟩
    obtain ⟨q, h0, hv, rfl⟩ := path_iff_visits.mp hpath
    exact ⟨q, h0, hv, hr⟩
  · rintro ⟨q, h0, hv, hr⟩
    exact ⟨_, hr, path_iff_visits.mpr ⟨q, h0, hv, rfl⟩⟩

/-- Two targets on one symbol, an empty set of targets and an empty row. -/
def fork : Automaton where
  states := OrdSet.ofList ["p", "q", "f"]
  alphabet := OrdSet.ofList ['a', 'b']
  delta := Delta.ofRows [("p", [('a', ["p", "q"])]), ("q", [('b', ["f"]), ('a', [])]), ("f", [])]
  start := "p"
  accepting := OrdSet.ofList ["f"]

theorem fork_built : fork.Built := by
  have h : make ["p", "q", "f"] ['a', 'b'] fork.delta "p" ["f"] = .ok fork := by decide
  exact .make h

theorem fork_visits : fork.Built ∧ ∃ q : ℕ → String, q 0 = "p" ∧
    fork.Visits q ['a', 'a', 'b'] ∧ q 3 ∈ fork.accepting :=
  ⟨fork_built, (accepts_iff_visits fork_built ['a', 'a', 'b']).1.mp (by decide)⟩

end RightLinear.Automaton
