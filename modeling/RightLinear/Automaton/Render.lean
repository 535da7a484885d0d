import RightLinear.Automaton.Basic
import RightLinear.Text.Listing

/-! # Automata as text

`render` lists the five components, `table` draws the transition relation as a table in pipe
notation with one row per state and one column per symbol. -/

namespace RightLinear.Automaton

open Text

/-- The members of a set of states between braces. -/
def stateSet (states : OrdSet String) : List Char := braced (states.toList.map String.toList)

variable (m : Automaton)

/-! ### The five components -/

/-- One entry of the transition relation. -/
def renderCell (state : String) (symbol : Char) (targets : OrdSet String) : List Char :=
  line (['δ', '('] ++ state.toList ++ [',', ' ', symbol, ')', ' ', '=', ' '] ++ stateSet targets)

/-- The components, one a line; the transition relation takes a line for each entry. -/
def render : List Char :=
  line "M = (Q, Σ, δ, q0, F)".toList ++
    line ("Q = ".toList ++ stateSet m.states) ++
    line ("Σ = ".toList ++ braced (m.alphabet.toList.map fun c => [c])) ++
    line ("q0 = ".toList ++ m.start.toList) ++
    line ("F = ".toList ++ stateSet m.accepting) ++
    m.delta.entries.flatMap fun e => e.2.entries.flatMap fun c => renderCell e.1 c.1 c.2

/-! ### The transition table -/

/-- The column titles. -/
def tableHead : List Char :=
  line (['|', 'δ', '|'] ++ m.alphabet.toList.flatMap fun c => [c, '|'])

/-- The line between titles and rows; it centres every column. -/
def tableRule : List Char :=
  line ("|:---:|".toList ++ m.alphabet.toList.flatMap fun _ => ":---:|".toList)

/-- The title of a row: an arrow marks the start state, a star the accepting ones. -/
def rowTitle (state : String) : List Char :=
  (if state = m.start then ['→'] else []) ++ state.toList ++
    (if state ∈ m.accepting then ['*'] else [])

/-- The targets of a state on a symbol; nothing if the relation has no entry. -/
def tableCell (state : String) (symbol : Char) : List Char :=
  match m.targets? state symbol with
  | some targets => stateSet targets
  | none => []

/-- The row of a state. -/
def tableRow (state : String) : List Char :=
  line ('|' :: m.rowTitle state ++
    '|' :: m.alphabet.toList.flatMap fun c => m.tableCell state c ++ ['|'])

/-- The transition relation as a table. -/
def table : List Char := m.tableHead ++ m.tableRule ++ m.states.toList.flatMap m.tableRow

end RightLinear.Automaton
