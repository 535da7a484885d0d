import RightLinear.Definition.Basic
import RightLinear.Text.Blank

/-! # Definitions built step by step

A step declares symbols, adds alternatives, sets a weight or replaces the limits.  Steps of
different kinds touch different components, so only the order among steps of one kind matters. -/

namespace RightLinear.Definition

/-- One addition to a definition. -/
inductive Step
  | nonterminal (name : String)
  /-- Declares every character of the text that is not blank. -/
  | terminals (symbols : String)
  | terminal (symbol : Char)
  | production (left alternative : String)
  | productions (left : String) (alternatives : List String)
  | weight (left alternative : String) (weight : UInt32)
  | limits (limits : Limits)
deriving Repr, DecidableEq

/-- The definition with nothing but a start symbol. -/
def empty (start : String) : Definition where
  nonterminals := []
  terminals := []
  productions := ∅
  start := start

variable (d : Definition)

/-- Adds one alternative to a rule, which it starts if need be. -/
def addAlternative (left alternative : String) : Definition :=
  { d with productions := d.productions.alter left [] (· ++ [alternative]) }

/-- Carries out one step. -/
def apply : Step → Definition
  | .nonterminal name => { d with nonterminals := d.nonterminals ++ [name] }
  | .terminals symbols =>
    { d with terminals := d.terminals ++ symbols.toList.filter fun c => !Text.isBlank c }
  | .terminal symbol => { d with terminals := d.terminals ++ [symbol] }
  | .production left alternative => d.addAlternative left alternative
  | .productions left alternatives => alternatives.foldl (fun d r => d.addAlternative left r) d
  | .weight left alternative weight => { d with weights := d.weights.set left alternative weight }
  | .limits limits => { d with limits }

/-- Carries out the steps in order, starting from a start symbol alone. -/
def ofSteps (start : String) (steps : List Step) : Definition := steps.foldl apply (empty start)

end RightLinear.Definition
