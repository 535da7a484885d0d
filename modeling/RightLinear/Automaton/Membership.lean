import RightLinear.Automaton.Basic

/-! # Membership

An automaton reads a word by keeping the set of states in which it may be.  The set starts with
the start state; a symbol replaces it by the targets of all its states.  A symbol outside the
alphabet, or a set that has become empty, rejects the word at once.  `mem_advance` says which states
one symbol leads to. -/

namespace RightLinear.Automaton

variable (m : Automaton)

/-- The states that follow the active ones on `symbol`. -/
def advance (active : OrdSet String) (symbol : Char) : OrdSet String :=
  OrdSet.ofList (active.toList.flatMap fun q => m.targets q symbol)

theorem mem_advance {active : OrdSet String} {symbol : Char} {q : String} :
    q ∈ m.advance active symbol ↔ ∃ p ∈ active, q ∈ m.targets p symbol := by
  simp [advance]

/-- Whether some active state leads to an accepting one along `word`. -/
def acceptsFrom (active : OrdSet String) : List Char → Bool
  | [] => active.toList.any m.accepting.contains
  | c :: word =>
    if c ∈ m.alphabet then
      let next := m.advance active c
      if next.isEmpty then false else acceptsFrom next word
    else false

/-- Whether the automaton accepts `word`. -/
def accepts (word : List Char) : Bool := m.acceptsFrom (OrdSet.singleton m.start) word

/-- Whether there is a word and the automaton accepts it. -/
def acceptsOption : Option (List Char) → Bool
  | some word => m.accepts word
  | none => false

end RightLinear.Automaton
