import RightLinear.Automaton.Render
import RightLinear.Proofs.Cutting
import RightLinear.Proofs.Paths

/-! # What the transition table shows

A transition table is a grid of cells: each cell ends in a bar, each row in a line feed (`table_eq`).
Cells without these two signs are found again by cutting the text (`drawn_injective`).

In the cells there is more than names.  A title has marks for the start state and for accepting states, which
can be read off it and taken off (`arrow_mem_rowTitle`, `star_mem_rowTitle`, `filter_rowTitle`).  The targets can
be told apart in a set (`stateSet_injective`), whose braces keep it from being taken for a missing entry
(`tableCell_injective`).  All this asks of names that they have characters and none of the signs; then the table
shows everything but the order of the accepting states and of the relation (`table_eq_iff`). -/

namespace RightLinear.Automaton

open Text

/-! ### Grids -/

/-- The cells of a row between bars. -/
def barred (cells : List (List Char)) : List Char := '|' :: cells.flatMap fun s => s ++ ['|']

/-- The rows between bars, each on a line of its own. -/
def drawn (rows : List (List (List Char))) : List Char := (rows.map barred).flatMap line

theorem barred_injective {cells cells' : List (List Char)} (h : ∀ s ∈ cells, ¬ '|' ∈ s)
    (h' : ∀ s ∈ cells', ¬ '|' ∈ s) (heq : barred cells = barred cells') : cells = cells' :=
  ended_injective h h' (List.cons.inj heq).2

theorem newline_not_mem_barred {cells : List (List Char)} (h : ∀ s ∈ cells, ¬ '\n' ∈ s) :
    ¬ '\n' ∈ barred cells := by
  intro hmem
  rcases List.mem_cons.mp hmem with hbar | hmem
  · exact absurd hbar (by decide)
  · obtain ⟨s, hs, hmem⟩ := List.mem_flatMap.mp hmem
    rcases List.mem_append.mp hmem with hmem | hbar
    · exact h s hs hmem
    · exact absurd (List.mem_singleton.mp hbar) (by decide)

/-- The cells have neither bars nor line feeds in them. -/
def Clear (rows : List (List (List Char))) : Prop :=
  ∀ row ∈ rows, ∀ s ∈ row, ¬ '|' ∈ s ∧ ¬ '\n' ∈ s

/-- The cells of a grid are found again. -/
theorem drawn_injective {rows rows' : List (List (List Char))} (h : Clear rows) (h' : Clear rows')
    (heq : drawn rows = drawn rows') : rows = rows' := by
  have hlines : ∀ {l : List (List (List Char))}, Clear l → ∀ s ∈ l.map barred, ¬ '\n' ∈ s := by
    intro l hl s hs
    obtain ⟨row, hrow, rfl⟩ := List.mem_map.mp hs
    exact newline_not_mem_barred fun t ht => (hl row hrow t ht).2
  have hbarred : rows.map barred = rows'.map barred := ended_injective (hlines h) (hlines h') heq
  induction rows generalizing rows' with
  | nil => exact (List.map_eq_nil_iff.mp hbarred.symm).symm
  | cons row rows ih =>
      cases rows' with
      | nil => cases hbarred
      | cons row' rows' =>
          obtain ⟨hrow, hrows⟩ := List.cons.inj hbarred
          have hfirst : row = row' :=
            barred_injective (fun s hs => (h row List.mem_cons_self s hs).1)
              (fun s hs => (h' row' List.mem_cons_self s hs).1) hrow
          have hclear : Clear rows := fun r hr => h r (List.mem_cons_of_mem _ hr)
          have hclear' : Clear rows' := fun r hr => h' r (List.mem_cons_of_mem _ hr)
          have hrest : drawn rows = drawn rows' := congrArg (fun l => l.flatMap line) hrows
          rw [hfirst, ih hclear hclear' hrest hrows]

/-! ### The table as a grid -/

/-- What a table needs to show names and symbols unmistakably. -/
structure Legible (m : Automaton) : Prop where
  name_ne : ∀ q ∈ m.states, q ≠ ""
  name_free : ∀ q ∈ m.states, ∀ c ∈ ['|', '\n', '→', '*', ','], ¬ c ∈ q.toList
  symbol_free : ∀ c ∈ m.alphabet, c ≠ '|' ∧ c ≠ '\n'

variable (m : Automaton)

/-- The title of a state and its cells, one for each symbol. -/
def gridRow (state : String) : List (List Char) :=
  m.rowTitle state :: m.alphabet.toList.map (m.tableCell state)

/-- All cells of the table, those of the heading and of the line below it included. -/
def grid : List (List (List Char)) :=
  (['δ'] :: m.alphabet.toList.map fun c => [c]) ::
    (":---:".toList :: m.alphabet.toList.map fun _ => ":---:".toList) ::
      m.states.toList.map m.gridRow

theorem table_eq : m.table = drawn m.grid := by
  have hhead : m.tableHead = line (barred (['δ'] :: m.alphabet.toList.map fun c => [c])) := by
    simp [tableHead, barred, List.flatMap_map]
  have hrule : m.tableRule =
      line (barred (":---:".toList :: m.alphabet.toList.map fun _ => ":---:".toList)) := by
    unfold tableRule barred
    rw [List.flatMap_cons, List.flatMap_map]
    rfl
  have hrow : m.tableRow = fun q => line (barred (m.gridRow q)) := by
    funext q
    simp [tableRow, gridRow, barred, List.flatMap_map]
  unfold table drawn grid
  rw [hhead, hrule, hrow, List.map_cons, List.map_cons, List.flatMap_cons, List.flatMap_cons,
    List.map_map, List.flatMap_map, List.append_assoc]
  rfl

variable {m}

/-! ### Titles -/

theorem mem_rowTitle {q : String} {c : Char} :
    c ∈ m.rowTitle q ↔ (q = m.start ∧ c = '→') ∨ c ∈ q.toList ∨ (q ∈ m.accepting ∧ c = '*') := by
  unfold rowTitle
  by_cases hs : q = m.start <;> by_cases ha : q ∈ m.accepting <;> simp [hs, ha]

theorem arrow_mem_rowTitle {q : String} (h : ¬ '→' ∈ q.toList) :
    '→' ∈ m.rowTitle q ↔ q = m.start := by
  simp [mem_rowTitle, h]

theorem star_mem_rowTitle {q : String} (h : ¬ '*' ∈ q.toList) :
    '*' ∈ m.rowTitle q ↔ q ∈ m.accepting := by
  simp [mem_rowTitle, h]

/-- Whether a character of a title belongs to the name. -/
def unmarked (c : Char) : Bool := c != '→' && c != '*'

theorem filter_rowTitle {q : String} (harrow : ¬ '→' ∈ q.toList) (hstar : ¬ '*' ∈ q.toList) :
    (m.rowTitle q).filter unmarked = q.toList := by
  have hname : q.toList.filter unmarked = q.toList := by
    refine List.filter_eq_self.mpr fun c hc => ?_
    have h : c ≠ '→' ∧ c ≠ '*' := ⟨fun e => harrow (e ▸ hc), fun e => hstar (e ▸ hc)⟩
    simp [unmarked, h]
  unfold rowTitle
  rw [List.filter_append, List.filter_append, hname]
  by_cases hs : q = m.start <;> by_cases ha : q ∈ m.accepting <;> simp [hs, ha, unmarked]

/-! ### Sets of targets -/

theorem mem_stateSet {s : OrdSet String} {c : Char} (h : c ∈ stateSet s) :
    c ∈ ['\x7b', ',', ' ', '\x7d'] ∨ ∃ q ∈ s, c ∈ q.toList := by
  unfold stateSet braced at h
  rw [List.cons_append, List.mem_cons, List.mem_append] at h
  rcases h with h | h | h
  · exact .inl (by simp [h])
  · rcases mem_joined h with h | ⟨t, ht, h⟩
    · exact .inl (List.mem_cons_of_mem _ (List.mem_append_left ['\x7d'] h))
    · obtain ⟨q, hq, rfl⟩ := List.mem_map.mp ht
      exact .inr ⟨q, hq, h⟩
  · exact .inl (List.mem_append_right ['\x7b', ',', ' '] h)

/-- Names with characters but without commas can be told apart in a set. -/
theorem stateSet_injective {s t : OrdSet String} (hs : ∀ q ∈ s, q ≠ "" ∧ ¬ ',' ∈ q.toList)
    (ht : ∀ q ∈ t, q ≠ "" ∧ ¬ ',' ∈ q.toList) (h : stateSet s = stateSet t) : s = t := by
  have hnames : ∀ {u : OrdSet String}, (∀ q ∈ u, q ≠ "" ∧ ¬ ',' ∈ q.toList) →
      ∀ name ∈ u.toList.map String.toList, name ≠ [] ∧ ¬ ',' ∈ name := by
    intro u hu name hname
    obtain ⟨q, hq, rfl⟩ := List.mem_map.mp hname
    exact ⟨fun e => (hu q hq).1 (String.toList_eq_nil_iff.mp e), (hu q hq).2⟩
  have hinner := List.append_cancel_right (List.cons.inj h).2
  have hlists := joined_injective (by decide) (hnames hs) (hnames ht) hinner
  exact OrdSet.ext ((List.map_injective_iff.mpr fun _ _ => String.toList_inj.mp) hlists)

theorem not_mem_tableCell (hm : m.WellFormed) {c : Char} (hname : ∀ q ∈ m.states, ¬ c ∈ q.toList)
    (hset : ¬ c ∈ ['\x7b', ',', ' ', '\x7d']) (q : String) (symbol : Char) :
    ¬ c ∈ m.tableCell q symbol := by
  unfold tableCell
  cases hs : m.targets? q symbol with
  | none => exact List.not_mem_nil
  | some s =>
      intro h
      rcases mem_stateSet h with h | ⟨r, hr, h⟩
      · exact hset h
      · exact hname r (hm.target_mem hs r hr) h

/-! ### Reading a table -/

theorem clear_grid (hm : m.WellFormed) (hl : m.Legible) : Clear m.grid := by
  have hbar : ∀ q ∈ m.states, ¬ '|' ∈ q.toList := fun q hq => hl.name_free q hq '|' (by simp)
  have hfeed : ∀ q ∈ m.states, ¬ '\n' ∈ q.toList := fun q hq => hl.name_free q hq '\n' (by simp)
  unfold Clear grid
  simp only [List.forall_mem_cons, List.forall_mem_map]
  refine ⟨⟨by decide, fun c hc => ?_⟩, ⟨by decide, fun _ _ => by decide⟩, fun q hq => ?_⟩
  · have h := hl.symbol_free c hc
    simp [h.1.symm, h.2.symm]
  · unfold gridRow
    simp only [List.forall_mem_cons, List.forall_mem_map]
    refine ⟨?_, fun c _ => ?_⟩
    · simp [mem_rowTitle, hbar q hq, hfeed q hq]
    · exact ⟨not_mem_tableCell hm hbar (by decide) q c, not_mem_tableCell hm hfeed (by decide) q c⟩

variable {n : Automaton}

/-- An entry without targets leaves the braces in its cell, a missing entry leaves nothing. -/
theorem tableCell_injective (hm : m.WellFormed) (hn : n.WellFormed) (hlm : m.Legible)
    (hln : n.Legible) {q : String} {c : Char} (h : m.tableCell q c = n.tableCell q c) :
    m.targets? q c = n.targets? q c := by
  unfold tableCell at h
  cases hs : m.targets? q c with
  | none =>
      cases ht : n.targets? q c with
      | none => rfl
      | some t =>
          rw [hs, ht] at h
          cases h
  | some s =>
      cases ht : n.targets? q c with
      | none =>
          rw [hs, ht] at h
          cases h
      | some t =>
          rw [hs, ht] at h
          have hnames : ∀ {a : Automaton}, a.WellFormed → a.Legible → ∀ {u : OrdSet String},
              a.targets? q c = some u → ∀ r ∈ u, r ≠ "" ∧ ¬ ',' ∈ r.toList :=
            fun ha hla _ hu r hr =>
              ⟨hla.name_ne r (ha.target_mem hu r hr),
                hla.name_free r (ha.target_mem hu r hr) ',' (by simp)⟩
          exact congrArg some (stateSet_injective (hnames hm hlm hs) (hnames hn hln ht) h)

theorem targets?_eq_none (hm : m.WellFormed) {q : String} {c : Char}
    (h : ¬ (q ∈ m.states ∧ c ∈ m.alphabet)) : m.targets? q c = none := by
  cases hs : m.targets? q c with
  | none => rfl
  | some s =>
      obtain ⟨row, hrow, -⟩ := targets?_eq_some.mp hs
      have hq : q ∈ m.states := hm.source_mem q (List.mem_map.mpr ⟨_, hrow, rfl⟩)
      exact absurd ⟨hq, hm.symbol_mem hs⟩ h

theorem components_of_grid (hlm : m.Legible) (hln : n.Legible) (h : m.grid = n.grid) :
    m.alphabet = n.alphabet ∧ m.states = n.states ∧ ∀ q ∈ m.states, m.gridRow q = n.gridRow q := by
  unfold grid at h
  obtain ⟨hhead, hbody⟩ := List.cons.inj h
  have hrows : m.states.toList.map m.gridRow = n.states.toList.map n.gridRow :=
    (List.cons.inj hbody).2
  have halphabet : m.alphabet = n.alphabet :=
    OrdSet.ext (List.map_injective_iff.mpr (fun _ _ e => List.singleton_injective e)
      (List.cons.inj hhead).2)
  have hname : ∀ {a : Automaton}, a.Legible →
      (a.states.toList.map a.gridRow).map (fun row => (row.headD []).filter unmarked) =
        a.states.toList.map String.toList := by
    intro a hla
    rw [List.map_map]
    refine List.map_congr_left fun q hq => ?_
    exact filter_rowTitle (hla.name_free q hq '→' (by simp)) (hla.name_free q hq '*' (by simp))
  have hnames : m.states.toList.map String.toList = n.states.toList.map String.toList := by
    rw [← hname hlm, ← hname hln, hrows]
  have hstates : m.states = n.states :=
    OrdSet.ext (List.map_injective_iff.mpr (fun _ _ => String.toList_inj.mp) hnames)
  refine ⟨halphabet, hstates, ?_⟩
  rw [← hstates] at hrows
  exact List.map_inj_left.mp hrows

theorem start_eq_of_titles (hm : m.WellFormed) (hlm : m.Legible)
    (h : ∀ q ∈ m.states, m.rowTitle q = n.rowTitle q) : m.start = n.start := by
  have hfree := hlm.name_free m.start hm.start_mem '→' (by simp)
  have harrow : '→' ∈ m.rowTitle m.start := (arrow_mem_rowTitle hfree).mpr rfl
  rw [h _ hm.start_mem] at harrow
  exact (arrow_mem_rowTitle hfree).mp harrow

theorem mem_accepting_of_titles (hm : m.WellFormed) (hn : n.WellFormed) (hlm : m.Legible)
    (hstates : m.states = n.states) (h : ∀ q ∈ m.states, m.rowTitle q = n.rowTitle q) (q : String) :
    q ∈ m.accepting ↔ q ∈ n.accepting := by
  by_cases hq : q ∈ m.states
  · have hfree := hlm.name_free q hq '*' (by simp)
    rw [← star_mem_rowTitle hfree, h q hq, star_mem_rowTitle hfree]
  · have hq' : ¬ q ∈ n.states := hstates ▸ hq
    exact ⟨fun ha => absurd (hm.accepting_mem q ha) hq, fun ha => absurd (hn.accepting_mem q ha) hq'⟩

theorem targets?_eq_of_cells (hm : m.WellFormed) (hn : n.WellFormed) (hlm : m.Legible)
    (hln : n.Legible) (hstates : m.states = n.states) (halphabet : m.alphabet = n.alphabet)
    (h : ∀ q ∈ m.states, ∀ c ∈ m.alphabet, m.tableCell q c = n.tableCell q c) (q : String) (c : Char) :
    m.targets? q c = n.targets? q c := by
  by_cases hqc : q ∈ m.states ∧ c ∈ m.alphabet
  · exact tableCell_injective hm hn hlm hln (h q hqc.1 c hqc.2)
  · have hqc' : ¬ (q ∈ n.states ∧ c ∈ n.alphabet) := hstates ▸ halphabet ▸ hqc
    rw [targets?_eq_none hm hqc, targets?_eq_none hn hqc']

theorem gridRow_congr (halphabet : m.alphabet = n.alphabet) (hstart : m.start = n.start)
    (haccepting : ∀ q, q ∈ m.accepting ↔ q ∈ n.accepting)
    (htargets : ∀ q c, m.targets? q c = n.targets? q c) (q : String) :
    m.gridRow q = n.gridRow q := by
  have htitle : m.rowTitle q = n.rowTitle q := by
    simp only [rowTitle, hstart, haccepting]
  have hcells : m.tableCell q = n.tableCell q := by
    funext c
    simp only [tableCell, htargets]
  unfold gridRow
  rw [htitle, hcells, halphabet]

/-- **What a table shows.**  Two automata with legible names have the same table if and only if they have
the same states and symbols in the same order, the same start state, the same accepting states, and for
each state and symbol the same targets in the same order or both no entry. -/
theorem table_eq_iff (hm : m.WellFormed) (hn : n.WellFormed) (hlm : m.Legible) (hln : n.Legible) :
    m.table = n.table ↔
      m.states = n.states ∧ m.alphabet = n.alphabet ∧ m.start = n.start ∧
        (∀ q, q ∈ m.accepting ↔ q ∈ n.accepting) ∧ ∀ q c, m.targets? q c = n.targets? q c := by
  rw [table_eq, table_eq]
  constructor
  · intro h
    have hgrid : m.grid = n.grid := drawn_injective (clear_grid hm hlm) (clear_grid hn hln) h
    obtain ⟨halphabet, hstates, hrows⟩ := components_of_grid hlm hln hgrid
    have htitles : ∀ q ∈ m.states, m.rowTitle q = n.rowTitle q := fun q hq =>
      (List.cons.inj (hrows q hq)).1
    have hcells : ∀ q ∈ m.states, ∀ c ∈ m.alphabet, m.tableCell q c = n.tableCell q c := by
      intro q hq
      have h := (List.cons.inj (hrows q hq)).2
      rw [← halphabet] at h
      exact List.map_inj_left.mp h
    exact ⟨hstates, halphabet, start_eq_of_titles hm hlm htitles,
      mem_accepting_of_titles hm hn hlm hstates htitles,
      targets?_eq_of_cells hm hn hlm hln hstates halphabet hcells⟩
  · rintro ⟨hstates, halphabet, hstart, haccepting, htargets⟩
    have hrow : m.gridRow = n.gridRow :=
      funext (gridRow_congr halphabet hstart haccepting htargets)
    unfold grid
    rw [hstates, halphabet, hrow]

/-- The transitions of `fork` in another order, without its empty row. -/
def reordered : Automaton :=
  { fork with delta := Delta.ofRows [("q", [('a', []), ('b', ["f"])]), ("p", [('a', ["p", "q"])])] }

/-- The transitions of `fork` without its empty set of targets. -/
def pruned : Automaton :=
  { fork with delta := Delta.ofRows [("p", [('a', ["p", "q"])]), ("q", [('b', ["f"])])] }

theorem legible_fork : fork.Legible where
  name_ne := by decide
  name_free := by
    have h : fork.states.toList = ["p", "q", "f"] := by decide
    simp [← OrdSet.mem_toList, h]
  symbol_free := by
    have h : fork.alphabet.toList = ['a', 'b'] := by decide
    simp [← OrdSet.mem_toList, h]

theorem fork_table :
    fork.table = reordered.table ∧ (∀ q c, fork.targets? q c = reordered.targets? q c) ∧
      fork.table ≠ pruned.table := by
  have hfork : fork.WellFormed := fork_built.wellFormed
  have hreordered : reordered.WellFormed := fault?_eq_none.mp (by decide)
  have hpruned : pruned.WellFormed := fault?_eq_none.mp (by decide)
  have hlegible : reordered.Legible ∧ pruned.Legible :=
    ⟨⟨legible_fork.name_ne, legible_fork.name_free, legible_fork.symbol_free⟩,
      legible_fork.name_ne, legible_fork.name_free, legible_fork.symbol_free⟩
  have hsame : fork.table = reordered.table := by decide
  refine ⟨hsame, ?_, fun h => ?_⟩
  · exact ((table_eq_iff hfork hreordered legible_fork hlegible.1).mp hsame).2.2.2.2
  · have htargets := ((table_eq_iff hfork hpruned legible_fork hlegible.2).mp h).2.2.2.2
    exact absurd (htargets "q" 'a') (by decide)

end RightLinear.Automaton
