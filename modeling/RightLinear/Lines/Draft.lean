import RightLinear.Definition.Basic
import RightLinear.Lines.Directive

/-! # Reading a text line by line

Directives are entered into a draft one after another; those of different kinds enter different
components.  The first line that is not accepted ends the reading with its number.  A draft is
complete once start symbol and terminals are known; without declared nonterminals it takes the
start symbol and the left-hand sides. -/

namespace RightLinear.Lines

/-- What has been said so far. -/
structure Draft where
  nonterminals : Option (List String) := none
  terminals : Option (List Char) := none
  start : Option String := none
  productions : OrdMap String (List String) := ∅
  weights : Weights := ∅

namespace Draft

/-- Enters a directive.  Later declarations replace earlier ones, alternatives are appended. -/
def add (d : Draft) : Directive → Draft
  | .nonterminals names => { d with nonterminals := some names }
  | .terminals symbols => { d with terminals := some symbols }
  | .start name => { d with start := some name }
  | .weight left alternative weight => { d with weights := d.weights.set left alternative weight }
  | .production left alternatives =>
    { d with productions := d.productions.alter left [] (· ++ alternatives) }

/-- The nonterminals of rules alone: the start symbol, then the left-hand sides. -/
def inferred (start : String) (productions : OrdMap String (List String)) : List String :=
  (OrdSet.ofList (start :: productions.keys)).toList

end Draft

/-- Why a text is not accepted. -/
inductive Fault
  /-- A line, counted from one, is not accepted. -/
  | line (number : Nat) (fault : LineFault)
  | missingStart
  | missingTerminals
deriving Repr, DecidableEq

/-- What a fault of a text is, in words. -/
def Fault.message : Fault → String
  | .line number fault => s!"line {number}: " ++ fault.message
  | .missingStart => "missing `start:` line"
  | .missingTerminals => "missing `terminals:` line"

/-- Enters the lines from line `number` on; the first line that is not accepted ends the reading. -/
def readLines : Nat → List (List Char) → Draft → Except Fault Draft
  | _, [], d => .ok d
  | number, s :: rest, d =>
    match readLine s with
    | .error fault => .error (.line number fault)
    | .ok none => readLines (number + 1) rest d
    | .ok (some directive) => readLines (number + 1) rest (d.add directive)

/-- The definition of a draft that has a start symbol and terminals. -/
def Draft.finish (d : Draft) : Except Fault Definition :=
  match d.start, d.terminals with
  | none, _ => .error .missingStart
  | some _, none => .error .missingTerminals
  | some start, some terminals =>
    .ok {
      nonterminals := d.nonterminals.getD (inferred start d.productions)
      terminals, productions := d.productions, start, weights := d.weights }

end RightLinear.Lines

namespace RightLinear.Definition

/-- Reads a definition in the line format. -/
def ofText (text : List Char) : Except Lines.Fault Definition :=
  match Lines.readLines 1 (Text.fields '\n' text) {} with
  | .error fault => .error fault
  | .ok draft => draft.finish

end RightLinear.Definition
