import RightLinear.Ordered.Set
import RightLinear.Ordered.Map

/-! # Finite automata

A nondeterministic finite automaton over characters: states and alphabet in order of declaration,
the transition relation as a two-level table, one start state and the accepting states.  A relation
grows by connecting a state with targets (`targets?_connect`).  `fault?` is the first undeclared
state or symbol that a component mentions; `make` and `ofTransitions` build only automata without
a fault. -/

namespace RightLinear

/-- A transition relation: for a state and a symbol, the states that may follow. -/
abbrev Delta := OrdMap String (OrdMap Char (OrdSet String))

namespace Delta

/-- Adds the targets to those that `state` has on `symbol`, also when there are none to add. -/
def connect (delta : Delta) (state : String) (symbol : Char) (targets : List String) : Delta :=
  delta.alter state ∅ fun row => row.alter symbol ∅ fun known => known.insertAll targets

/-- The targets of a state on a symbol, if the relation has any entry for them. -/
def targets? (delta : Delta) (state : String) (symbol : Char) : Option (OrdSet String) :=
  (delta.get? state).bind fun row => row.get? symbol

/-- Connecting a state adds targets on one symbol and leaves all other entries alone. -/
theorem targets?_connect (delta : Delta) (p q : String) (a b : Char) (targets : List String) :
    (delta.connect p a targets).targets? q b =
      if q = p ∧ b = a then some (((delta.targets? p a).getD ∅).insertAll targets)
      else delta.targets? q b := by
  unfold targets? connect
  rw [OrdMap.get?_alter]
  by_cases hq : q = p
  · subst hq
    rw [if_pos rfl, Option.bind_some, OrdMap.get?_alter]
    by_cases hb : b = a
    · subst hb
      cases h : OrdMap.get? delta q <;> simp
    · cases h : OrdMap.get? delta q <;> simp [hb]
  · simp [hq]

/-- The relation given row by row.  Rows of one state, and targets for one symbol, are united. -/
def ofRows (rows : List (String × List (Char × List String))) : Delta :=
  rows.foldl (fun delta r => r.2.foldl (fun delta cell => delta.connect r.1 cell.1 cell.2)
    (delta.alter r.1 ∅ id)) ∅

end Delta

/-- A nondeterministic finite automaton over characters. -/
structure Automaton where
  states : OrdSet String
  alphabet : OrdSet Char
  delta : Delta
  start : String
  accepting : OrdSet String
deriving DecidableEq

namespace Automaton

/-- A mention of an undeclared state or symbol. -/
inductive Fault
  | undeclaredStart (state : String)
  | undeclaredAccepting (state : String)
  | unknownSource (state : String)
  | foreignSymbol (state : String) (symbol : Char)
  | unknownTarget (state : String) (symbol : Char) (target : String)
deriving Repr, DecidableEq

/-- What a fault is, in words. -/
def Fault.message : Fault → String
  | .undeclaredStart state => s!"start state {state} is not a declared state"
  | .undeclaredAccepting state => s!"accepting state {state} is not a declared state"
  | .unknownSource state => s!"transition from unknown state {state}"
  | .foreignSymbol state symbol =>
    s!"transition {state} --{symbol}--> uses a symbol outside the alphabet"
  | .unknownTarget state symbol target =>
    s!"transition {state} --{symbol}--> leads to unknown state {target}"

variable (m : Automaton)

/-! ### Looking up transitions -/

/-- The targets of `state` on `symbol`, if the relation has any entry for them. -/
def targets? (state : String) (symbol : Char) : Option (OrdSet String) :=
  m.delta.targets? state symbol

/-- The targets of `state` on `symbol`, in order. -/
def targets (state : String) (symbol : Char) : List String :=
  match m.targets? state symbol with
  | some s => s.toList
  | none => []

/-- Whether no state has two targets on one symbol. -/
def isDeterministic : Bool :=
  m.delta.values.all fun row => row.values.all fun targets => targets.size ≤ 1

/-! ### Checking the components -/

/-- The fault of one entry: its symbol, then the first of its targets that is not declared. -/
def cellFault? (state : String) (symbol : Char) (targets : OrdSet String) : Option Fault :=
  if symbol ∈ m.alphabet then
    (targets.toList.find? fun q => !m.states.contains q).map (.unknownTarget state symbol)
  else some (.foreignSymbol state symbol)

/-- The first fault of one row: its source, then its entries in order. -/
def rowFault? (state : String) (row : OrdMap Char (OrdSet String)) : Option Fault :=
  if state ∈ m.states then row.entries.findSome? fun e => m.cellFault? state e.1 e.2
  else some (.unknownSource state)

/-- The first fault: the start state, then accepting states, then rows in order. -/
def fault? : Option Fault :=
  if m.start ∈ m.states then
    match m.accepting.toList.find? fun q => !m.states.contains q with
    | some q => some (.undeclaredAccepting q)
    | none => m.delta.entries.findSome? fun e => m.rowFault? e.1 e.2
  else some (.undeclaredStart m.start)

/-! ### Construction -/

/-- The automaton with the given components, if they mention declared names only. -/
def make (states : List String) (alphabet : List Char) (delta : Delta) (start : String)
    (accepting : List String) : Except Fault Automaton :=
  let m : Automaton :=
    ⟨OrdSet.ofList states, OrdSet.ofList alphabet, delta, start, OrdSet.ofList accepting⟩
  match m.fault? with
  | some fault => .error fault
  | none => .ok m

/-- From the state `source`, the symbol leads to each of the targets. -/
structure Transition where
  source : String
  symbol : Char
  targets : List String
deriving Repr, DecidableEq

/-- The automaton of a list of transitions.  States are declared by being mentioned (the start
state first, then accepting states, then sources and targets), symbols by being used. -/
def ofTransitions (start : String) (accepting : List String) (transitions : List Transition) :
    Except Fault Automaton :=
  make (start :: accepting ++ transitions.flatMap fun t => t.source :: t.targets)
    (transitions.map (·.symbol))
    (transitions.foldl (fun delta t => delta.connect t.source t.symbol t.targets) ∅)
    start accepting

/-! ### Comparing -/

/-- Both automata have the same components, in whatever order. -/
def same (a b : Automaton) : Bool :=
  a.states.sameMembers b.states && a.alphabet.sameMembers b.alphabet &&
    a.delta.sameEntries (OrdMap.sameEntries OrdSet.sameMembers) b.delta &&
    a.start == b.start && a.accepting.sameMembers b.accepting

end Automaton
end RightLinear
