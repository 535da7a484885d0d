import RightLinear.Grammar.Basic
import RightLinear.Text.Listing

/-! # Grammars as text -/

namespace RightLinear.Grammar

open Text

/-- The alternatives of a rule as written, with bars between them. -/
def renderAlternatives (alternatives : List String) : List Char :=
  joined [' ', '|', ' '] (alternatives.map String.toList)

/-- A rule: the nonterminal, an arrow and the alternatives. -/
def renderRule (left : String) (alternatives : List String) : List Char :=
  left.toList ++ [' ', '→', ' '] ++ renderAlternatives alternatives

variable (g : Grammar)

/-- The four components on one line, with the rules left out. -/
def renderHead : List Char :=
  ['G', ' ', '=', ' ', '('] ++ braced (g.nonterminals.toList.map String.toList) ++ [',', ' '] ++
    braced (g.terminals.toList.map fun t => [t]) ++ [',', ' ', 'P', ',', ' '] ++
    g.start.toList ++ [')']

/-- The rules, one a line. -/
def renderRules : List Char :=
  g.productions.entries.flatMap fun e => line (' ' :: ' ' :: renderRule e.1 e.2)

/-- The grammar: the components, then the rules between braces. -/
def render : List Char :=
  line g.renderHead ++ line ['P', ' ', '=', ' ', '\x7b'] ++ g.renderRules ++ line ['\x7d']

end RightLinear.Grammar
