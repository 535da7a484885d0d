import RightLinear.Grammar.Basic

/-! # Grammar definitions

A definition describes a grammar before anything about it is checked: lists as declared, rules as
written.  `toGrammar` checks it; `ofGrammar` describes a grammar that has been checked. -/

namespace RightLinear

/-- A description of a grammar, not yet checked. -/
structure Definition where
  nonterminals : List String
  terminals : List Char
  productions : OrdMap String (List String)
  start : String
  weights : Weights := ∅
  limits : Limits := {}
deriving DecidableEq

namespace Definition

/-- The grammar that the definition describes. -/
def toGrammar (d : Definition) : Except Grammar.Fault Grammar :=
  match Grammar.make d.nonterminals d.terminals d.productions.entries d.start with
  | .error fault => .error fault
  | .ok g => (g.withLimits d.limits).withWeights d.weights

/-- The definition of a grammar. -/
def ofGrammar (g : Grammar) : Definition :=
  ⟨g.nonterminals.toList, g.terminals.toList, g.productions, g.start, g.weights, g.limits⟩

/-- Both definitions have the same components.  Rules and weights may stand in any order,
declarations and the alternatives of a rule may not. -/
def same (a b : Definition) : Bool :=
  a.nonterminals == b.nonterminals && a.terminals == b.terminals &&
    a.productions.sameEntries (· == ·) b.productions && a.start == b.start &&
    a.weights.same b.weights && a.limits == b.limits

end Definition
end RightLinear
