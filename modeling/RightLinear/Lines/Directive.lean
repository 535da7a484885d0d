import RightLinear.Lines.Form

/-! # Directives

A directive is what an accepted line says.  `Form.check` turns the parts of a recognised line into
a directive, or says what is wrong with them; blank lines and comments say nothing. -/

namespace RightLinear.Lines

open Text

/-- Why a line is not accepted. -/
inductive LineFault
  | longTerminal (token : List Char)
  | foreignDigit
  | largeWeight
  | unrecognized (line : List Char)
deriving Repr, DecidableEq

/-- What a fault of a line is, in words. -/
def LineFault.message : LineFault → String
  | .longTerminal token =>
    "terminal must be a single character: " ++ String.ofList token
  | .foreignDigit => "bad weight: invalid digit found in string"
  | .largeWeight => "bad weight: number too large to fit in target type"
  | .unrecognized line => "unrecognized line: " ++ String.ofList line

/-- What an accepted line says. -/
inductive Directive
  | nonterminals (names : List String)
  | terminals (symbols : List Char)
  | start (name : String)
  | weight (left alternative : String) (weight : UInt32)
  | production (left : String) (alternatives : List String)
deriving Repr, DecidableEq

/-- The only character of a token. -/
def singleChar : List Char → Except LineFault Char
  | [c] => .ok c
  | token => .error (.longTerminal token)

/-- The value of decimal digits behind the value `n`, read from the left: below `UInt32.size`
after every digit, and all digits from the ASCII range. -/
def weightValue : Nat → List Char → Except LineFault UInt32
  | n, [] => .ok n.toUInt32
  | n, c :: rest =>
    match asciiValue? c with
    | none => .error .foreignDigit
    | some d =>
      if 10 * n + d < UInt32.size then weightValue (10 * n + d) rest else .error .largeWeight

/-- The directive of a line of the given form; a silent line has none. -/
def Form.check : Form → Except LineFault (Option Directive)
  | .silent => .ok none
  | .nonterminals names => .ok (some (.nonterminals (names.map String.ofList)))
  | .terminals tokens => (tokens.mapM singleChar).map fun symbols => some (.terminals symbols)
  | .start name => .ok (some (.start (String.ofList name)))
  | .weight left alternative digits =>
    (weightValue 0 digits).map fun w =>
      some (.weight (String.ofList left) (String.ofList alternative) w)
  | .production left alternatives =>
    .ok (some (.production (String.ofList left) (alternatives.map String.ofList)))
  | .unknown line => .error (.unrecognized line)

/-- The directive of a line as it stands in the text. -/
def readLine (s : List Char) : Except LineFault (Option Directive) := (Form.ofLine (trim s)).check

end RightLinear.Lines
