import RightLinear.Error
import RightLinear.Proofs.Paths

/-! # Which components make an automaton

An automaton is made of states, an alphabet, a transition relation, a start state and accepting states.
The check goes through them in this order: the start state, the accepting states, and the rows of
the relation, each source before its entries and in each entry the symbol before its targets.

`FittingRow` and `FittingCell` say what is asked of the relation, and `FirstFault` which fault is the first.
The check of each level finds exactly the first fault of that level (`cellFault?_eq_some`,
`rowFault?_eq_some`, `fault?_eq_some`).  `components_cases` says that nothing else is asked for, that the
automaton has the components as they were given, and that no other fault is reported. -/

namespace RightLinear.Automaton

/-! ### What is asked for -/

section
variable (states : List String) (alphabet : List Char)

/-- An entry with a symbol of the alphabet, and with targets, if any, that are declared. -/
def FittingCell (cell : Char × OrdSet String) : Prop :=
  cell.1 ∈ alphabet ∧ ∀ r ∈ cell.2, r ∈ states

/-- The row of a declared state, with entries, if any, that fit. -/
def FittingRow (row : String × OrdMap Char (OrdSet String)) : Prop :=
  row.1 ∈ states ∧ ∀ cell ∈ row.2.entries, FittingCell states alphabet cell

/-- What is wrong with an entry of the state `q`: its symbol, or else the first of its targets that is not
declared. -/
inductive CellFault (q : String) : Char × OrdSet String → Fault → Prop
  | foreignSymbol {c : Char} {targets : OrdSet String} :
      ¬ c ∈ alphabet → CellFault q (c, targets) (.foreignSymbol q c)
  | unknownTarget {c : Char} {targets : OrdSet String} {r : String} {before after : List String} :
      c ∈ alphabet → targets.toList = before ++ r :: after → (∀ s ∈ before, s ∈ states) →
      ¬ r ∈ states → CellFault q (c, targets) (.unknownTarget q c r)

/-- What is wrong with a row: its source, or else the first of its entries that does not fit. -/
inductive RowFault : String × OrdMap Char (OrdSet String) → Fault → Prop
  | unknownSource {q : String} {row : OrdMap Char (OrdSet String)} :
      ¬ q ∈ states → RowFault (q, row) (.unknownSource q)
  | cell {q : String} {row : OrdMap Char (OrdSet String)} {cell : Char × OrdSet String}
      {before after : List (Char × OrdSet String)} {fault : Fault} :
      q ∈ states → row.entries = before ++ cell :: after →
      (∀ earlier ∈ before, FittingCell states alphabet earlier) →
      CellFault states alphabet q cell fault → RowFault (q, row) fault

end

/-- The first fault of five components. -/
inductive FirstFault (states : List String) (alphabet : List Char) (delta : Delta) (start : String)
    (accepting : List String) : Fault → Prop
  | undeclaredStart : ¬ start ∈ states →
      FirstFault states alphabet delta start accepting (.undeclaredStart start)
  | undeclaredAccepting {q : String} {before after : List String} : start ∈ states →
      accepting = before ++ q :: after → (∀ p ∈ before, p ∈ states) → ¬ q ∈ states →
      FirstFault states alphabet delta start accepting (.undeclaredAccepting q)
  | row {row : String × OrdMap Char (OrdSet String)}
      {before after : List (String × OrdMap Char (OrdSet String))} {fault : Fault} :
      start ∈ states → (∀ q ∈ accepting, q ∈ states) → delta.entries = before ++ row :: after →
      (∀ earlier ∈ before, FittingRow states alphabet earlier) → RowFault states alphabet row fault →
      FirstFault states alphabet delta start accepting fault

/-! ### The check, level by level -/

section
variable {m : Automaton} {states : List String} {alphabet : List Char}
  (hstates : ∀ q, q ∈ m.states ↔ q ∈ states) (halphabet : ∀ c, c ∈ m.alphabet ↔ c ∈ alphabet)

include hstates in
theorem find?_undeclared_eq_some {l : List String} {r : String} :
    (l.find? fun q => !m.states.contains q) = some r ↔
      ∃ before after, l = before ++ r :: after ∧ (∀ s ∈ before, s ∈ states) ∧ ¬ r ∈ states := by
  rw [List.find?_eq_some_iff_append]
  simp only [OrdSet.contains_eq_true, Bool.not_eq_true', ← Bool.not_eq_true, hstates, not_not]
  constructor
  · rintro ⟨hr, before, after, heq, hbefore⟩
    exact ⟨before, after, heq, hbefore, hr⟩
  · rintro ⟨before, after, heq, hbefore, hr⟩
    exact ⟨hr, before, after, heq, hbefore⟩

include hstates halphabet

theorem cellFault?_eq_none_iff {q : String} {cell : Char × OrdSet String} :
    m.cellFault? q cell.1 cell.2 = none ↔ FittingCell states alphabet cell := by
  rw [cellFault?_eq_none]
  simp only [hstates, halphabet, FittingCell]

theorem cellFault?_eq_some {q : String} {cell : Char × OrdSet String} {fault : Fault} :
    m.cellFault? q cell.1 cell.2 = some fault ↔ CellFault states alphabet q cell fault := by
  obtain ⟨c, targets⟩ := cell
  unfold cellFault?
  dsimp only
  by_cases hc : c ∈ m.alphabet
  · have hc' := (halphabet c).mp hc
    rw [if_pos hc, Option.map_eq_some_iff]
    simp only [find?_undeclared_eq_some hstates]
    constructor
    · rintro ⟨r, ⟨before, after, heq, hbefore, hr⟩, rfl⟩
      exact .unknownTarget hc' heq hbefore hr
    · intro h
      cases h with
      | foreignSymbol hforeign => exact absurd hc' hforeign
      | unknownTarget _ heq hbefore hr => exact ⟨_, ⟨_, _, heq, hbefore, hr⟩, rfl⟩
  · have hc' := mt (halphabet c).mpr hc
    rw [if_neg hc, Option.some.injEq]
    constructor
    · rintro rfl
      exact .foreignSymbol hc'
    · intro h
      cases h with
      | foreignSymbol _ => rfl
      | unknownTarget hdeclared _ _ _ => exact absurd hdeclared hc'

theorem rowFault?_eq_none_iff {row : String × OrdMap Char (OrdSet String)} :
    m.rowFault? row.1 row.2 = none ↔ FittingRow states alphabet row := by
  rw [rowFault?_eq_none]
  simp only [hstates, halphabet, FittingRow, FittingCell]

theorem rowFault?_eq_some {row : String × OrdMap Char (OrdSet String)} {fault : Fault} :
    m.rowFault? row.1 row.2 = some fault ↔ RowFault states alphabet row fault := by
  obtain ⟨q, row⟩ := row
  unfold rowFault?
  dsimp only
  by_cases hq : q ∈ m.states
  · have hq' := (hstates q).mp hq
    rw [if_pos hq, List.findSome?_eq_some_iff]
    simp only [cellFault?_eq_none_iff hstates halphabet, cellFault?_eq_some hstates halphabet]
    constructor
    · rintro ⟨before, cell, after, heq, hcell, hbefore⟩
      exact .cell hq' heq hbefore hcell
    · intro h
      cases h with
      | unknownSource hunknown => exact absurd hq' hunknown
      | cell _ heq hbefore hcell => exact ⟨_, _, _, heq, hcell, hbefore⟩
  · have hq' := mt (hstates q).mpr hq
    rw [if_neg hq, Option.some.injEq]
    constructor
    · rintro rfl
      exact .unknownSource hq'
    · intro h
      cases h with
      | unknownSource _ => rfl
      | cell hdeclared _ _ _ => exact absurd hdeclared hq'

section
variable {accepting : List String} (haccepting : m.accepting.toList = accepting.eraseDups)
include haccepting

theorem fault?_eq_none_iff : m.fault? = none ↔
    m.start ∈ states ∧ (∀ q ∈ accepting, q ∈ states) ∧
      ∀ row ∈ m.delta.entries, FittingRow states alphabet row := by
  unfold fault?
  rw [haccepting, OrdSet.find?_eraseDups]
  simp only [hstates]
  by_cases hstart : m.start ∈ states
  · rw [if_pos hstart]
    cases hundeclared : accepting.find? fun q => !m.states.contains q with
    | some q =>
        obtain ⟨before, after, rfl, _, hq⟩ := (find?_undeclared_eq_some hstates).mp hundeclared
        exact iff_of_false (Option.some_ne_none _) fun h => hq (h.2.1 q (by simp))
    | none =>
        rw [find?_undeclared_eq_none] at hundeclared
        simp only [hstates] at hundeclared
        simp only [List.findSome?_eq_none_iff, rowFault?_eq_none_iff hstates halphabet]
        exact ⟨fun h => ⟨hstart, hundeclared, h⟩, fun h => h.2.2⟩
  · rw [if_neg hstart]
    simp [hstart]

theorem fault?_eq_some {fault : Fault} :
    m.fault? = some fault ↔ FirstFault states alphabet m.delta m.start accepting fault := by
  unfold fault?
  rw [haccepting, OrdSet.find?_eraseDups]
  simp only [hstates]
  constructor
  · intro h
    split at h
    · next hstart =>
      split at h
      · next q hundeclared =>
        cases h
        obtain ⟨before, after, heq, hbefore, hq⟩ := (find?_undeclared_eq_some hstates).mp hundeclared
        exact .undeclaredAccepting hstart heq hbefore hq
      · next hdeclared =>
        rw [find?_undeclared_eq_none] at hdeclared
        obtain ⟨before, row, after, heq, hrow, hbefore⟩ := List.findSome?_eq_some_iff.mp h
        refine .row hstart (fun q hq => (hstates q).mp (hdeclared q hq)) heq ?_ ?_
        · exact fun earlier he => (rowFault?_eq_none_iff hstates halphabet).mp (hbefore earlier he)
        · exact (rowFault?_eq_some hstates halphabet).mp hrow
    · next hstart =>
      cases h
      exact .undeclaredStart hstart
  · intro h
    cases h with
    | undeclaredStart hstart => exact if_neg hstart
    | undeclaredAccepting hstart heq hbefore hq =>
        rw [if_pos hstart, (find?_undeclared_eq_some hstates).mpr ⟨_, _, heq, hbefore, hq⟩]
    | row hstart hdeclared heq hbefore hrow =>
        have hnone := find?_undeclared_eq_none.mpr fun q hq => (hstates q).mpr (hdeclared q hq)
        rw [if_pos hstart, hnone]
        refine List.findSome?_eq_some_iff.mpr ⟨_, _, _, heq, ?_, ?_⟩
        · exact (rowFault?_eq_some hstates halphabet).mpr hrow
        · exact fun earlier he => (rowFault?_eq_none_iff hstates halphabet).mpr (hbefore earlier he)

end

end

/-! ### All components -/

section
variable {states : List String} {alphabet : List Char} {delta : Delta} {start : String}
  {accepting : List String}

theorem make_eq_ok {m : Automaton} : make states alphabet delta start accepting = .ok m ↔
    (start ∈ states ∧ (∀ q ∈ accepting, q ∈ states) ∧
      ∀ row ∈ delta.entries, FittingRow states alphabet row) ∧
    m = ⟨.ofList states, .ofList alphabet, delta, start, .ofList accepting⟩ := by
  have hfault : fault? ⟨.ofList states, .ofList alphabet, delta, start, .ofList accepting⟩ = none ↔
      start ∈ states ∧ (∀ q ∈ accepting, q ∈ states) ∧
        ∀ row ∈ delta.entries, FittingRow states alphabet row :=
    fault?_eq_none_iff (fun _ => OrdSet.mem_ofList) (fun _ => OrdSet.mem_ofList)
      (OrdSet.toList_ofList accepting)
  rw [← hfault]
  unfold make
  dsimp only
  split
  · next hsome => simp [hsome]
  · next hnone => simp [hnone, eq_comm]

theorem make_eq_error {fault : Fault} : make states alphabet delta start accepting = .error fault ↔
    FirstFault states alphabet delta start accepting fault := by
  have hfault : fault? ⟨.ofList states, .ofList alphabet, delta, start, .ofList accepting⟩ =
      some fault ↔ FirstFault states alphabet delta start accepting fault :=
    fault?_eq_some (fun _ => OrdSet.mem_ofList) (fun _ => OrdSet.mem_ofList)
      (OrdSet.toList_ofList accepting)
  rw [← hfault]
  unfold make
  dsimp only
  split
  · next hsome => simp [hsome]
  · next hnone => simp [hnone]

end

/-- **An automaton is made exactly of components that fit, and the first fault is reported.**  Five
components make an automaton if and only if the start state and the accepting states are declared, every
row, even an empty one, belongs to a declared state, every entry, even one without targets, is for a symbol
of the alphabet, and every target is declared.  The automaton has these components as they were given, but
for repetitions among states, symbols and accepting states.  Otherwise the fault is the first in the order:
start state, accepting states in order, rows in order, each source before its entries, and each symbol
before its targets in order. -/
theorem components_cases (states : List String) (alphabet : List Char) (delta : Delta)
    (start : String) (accepting : List String) :
    ((∃ m, make states alphabet delta start accepting = .ok m) ↔
      start ∈ states ∧ (∀ q ∈ accepting, q ∈ states) ∧
        ∀ row ∈ delta.entries, FittingRow states alphabet row) ∧
    (∀ m, make states alphabet delta start accepting = .ok m →
      m.states.toList = states.eraseDups ∧ m.alphabet.toList = alphabet.eraseDups ∧
        m.delta = delta ∧ m.start = start ∧ m.accepting.toList = accepting.eraseDups) ∧
    (∀ fault, make states alphabet delta start accepting = .error fault ↔
      FirstFault states alphabet delta start accepting fault) ∧
    ∀ fault, (Error.automaton fault).message = "Invalid automaton: " ++ fault.message := by
  refine ⟨?_, ?_, fun _ => make_eq_error, fun _ => rfl⟩
  · simp only [make_eq_ok, exists_and_left, exists_eq, and_true]
  · intro m hm
    obtain ⟨_, rfl⟩ := make_eq_ok.mp hm
    exact ⟨OrdSet.toList_ofList _, OrdSet.toList_ofList _, rfl, rfl, OrdSet.toList_ofList _⟩

/-- The entries of `p` in `sparse`, one of them without targets. -/
def sparseRow : OrdMap Char (OrdSet String) :=
  ⟨[('b', ∅), ('a', OrdSet.ofList ["q", "p"])], by decide⟩

/-- The state `q` has an empty row. -/
def sparse : Delta := ⟨[("q", ∅), ("p", sparseRow)], by decide⟩

theorem fittingRow_empty {states : List String} {alphabet : List Char} {q : String}
    (h : q ∈ states) : FittingRow states alphabet (q, ∅) :=
  ⟨h, fun _ hcell => nomatch hcell⟩

/-- If the symbol `b` and the accepting state `r` are not declared, the state is reported; without it,
the symbol, though no target is missing. -/
theorem sparse_make :
    (∃ m, make ["p", "q", "p"] ['b', 'a', 'b'] sparse "p" ["q", "q"] = .ok m ∧
      m.states.toList = ["p", "q"] ∧ m.delta = sparse ∧ m.accepting.toList = ["q"]) ∧
    make ["p", "q"] ['a'] sparse "p" ["p", "r"] = .error (.undeclaredAccepting "r") ∧
    make ["p", "q"] ['a'] sparse "p" ["p"] = .error (.foreignSymbol "p" 'b') := by
  have hrows : sparse.entries = [("q", ∅)] ++ ("p", sparseRow) :: [] := rfl
  have hcells : sparseRow.entries = [] ++ ('b', ∅) :: [('a', OrdSet.ofList ["q", "p"])] := rfl
  refine ⟨?_, ?_, ?_⟩
  · obtain ⟨hmake, hmade, _⟩ :=
      components_cases ["p", "q", "p"] ['b', 'a', 'b'] sparse "p" ["q", "q"]
    have hp : FittingRow ["p", "q", "p"] ['b', 'a', 'b'] ("p", sparseRow) := by
      refine ⟨by decide, ?_⟩
      rw [hcells, List.nil_append, List.forall_mem_cons, List.forall_mem_singleton]
      exact ⟨⟨by decide, fun _ hr => nomatch hr⟩, by decide, by decide⟩
    obtain ⟨m, hm⟩ := hmake.mpr ⟨by decide, by simp, by
      simp [hrows, fittingRow_empty, hp]⟩
    obtain ⟨hstates, _, hdelta, _, haccepting⟩ := hmade m hm
    exact ⟨m, hm, hstates, hdelta, haccepting⟩
  · obtain ⟨_, _, herror, _⟩ := components_cases ["p", "q"] ['a'] sparse "p" ["p", "r"]
    have heq : ["p", "r"] = ["p"] ++ "r" :: [] := rfl
    exact (herror _).mpr (.undeclaredAccepting (by decide) heq (by simp) (by decide))
  · obtain ⟨_, _, herror, _⟩ := components_cases ["p", "q"] ['a'] sparse "p" ["p"]
    have hrow : RowFault ["p", "q"] ['a'] ("p", sparseRow) (.foreignSymbol "p" 'b') :=
      .cell (by decide) hcells (by simp) (.foreignSymbol (by decide))
    exact (herror _).mpr (.row (by decide) (by simp) hrows (by simp [fittingRow_empty]) hrow)

end RightLinear.Automaton
