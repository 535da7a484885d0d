/-! # Productions of a right-linear grammar

A right-hand side is one terminal, optionally followed by one nonterminal.  In a derivation its
elements take the place of a nonterminal of a sentential form. -/

namespace RightLinear

/-- One place of a sentential form. -/
inductive Element
  | terminal (symbol : Char)
  /-- A nonterminal still waiting to be replaced. -/
  | nonterminal (name : String)
deriving Repr, DecidableEq

/-- The symbol of a terminal. -/
def Element.symbol? : Element → Option Char
  | .terminal symbol => some symbol
  | .nonterminal _ => none

/-- A right-hand side: a terminal, and the nonterminal behind it, if there is one. -/
structure Production where
  terminal : Char
  next : Option String
deriving Repr, DecidableEq

namespace Production

variable (p : Production)

/-- The elements that take the place of a nonterminal. -/
def elements : List Element := .terminal p.terminal :: p.next.toList.map .nonterminal

/-- The right-hand side as it is written. -/
def render : List Char := p.terminal :: (p.next.toList.flatMap String.toList)

end Production
end RightLinear
