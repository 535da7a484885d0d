import RightLinear.Automaton.Basic
import RightLinear.Grammar.Basic

/-! # The automaton of a grammar

Every nonterminal becomes a state, and one fresh accepting state is added.  An alternative `t` of
`A` is a transition from `A` to the accepting state, an alternative `tB` one from `A` to `B`. -/

namespace RightLinear.Grammar

/-- The first of `name`, `_name`, `__name`, … that is not taken; the last one if `fuel` runs out. -/
def freshName (taken : OrdSet String) : Nat → String → String
  | 0, name => name
  | fuel + 1, name => if name ∈ taken then freshName taken fuel ("_" ++ name) else name

variable (g : Grammar)

/-- The name of the accepting state.  Among as many names as there are nonterminals and one more,
one is not a nonterminal. -/
def finalName : String := freshName g.nonterminals g.nonterminals.size "FINAL"

/-- The transitions of all alternatives. -/
def delta : Delta :=
  g.alternatives.entries.foldl (fun delta e =>
    e.2.foldl (fun delta p => delta.connect e.1 p.terminal [p.next.getD g.finalName]) delta) ∅

/-- The automaton that accepts the words of the grammar. -/
def toAutomaton : Automaton where
  states := g.nonterminals.insert g.finalName
  alphabet := g.terminals
  delta := g.delta
  start := g.start
  accepting := OrdSet.singleton g.finalName

end RightLinear.Grammar
