import RightLinear.Text.Blank
import RightLinear.Text.DecimalDigit

/-! # Forms of lines

The line format of grammars:

```text
# comment
nonterminals: S B
terminals: a b
start: S
S -> aB
B → a | bB
weight B -> a = 3
```

A trimmed line is recognised by its form, the first of a fixed series that fits; `Form.ofLine`
cuts the line into the parts that the form names.  Names are as long as the rest of the line
allows (`splitRun`), so they may contain arrows and equals signs. -/

namespace RightLinear.Lines

open Text

/-! ### Recognising parts of a line -/

/-- The longest nonempty run without blanks in front whose rest `next` recognises. -/
def splitRun {β : Type} (next : List Char → Option β) : List Char → Option (List Char × β)
  | [] => none
  | c :: rest =>
    if isBlank c then none
    else
      match splitRun next rest with
      | some (run, found) => some (c :: run, found)
      | none => (next rest).map fun found => ([c], found)

/-- The rest behind `keyword`. -/
def after? : List Char → List Char → Option (List Char)
  | [], s => some s
  | k :: keyword, c :: s => if k = c then after? keyword s else none
  | _ :: _, [] => none

/-- The rest behind a keyword and a colon, with blanks around the colon. -/
def afterColon? (keyword s : List Char) : Option (List Char) :=
  match (after? keyword s).map trimStart with
  | some (':' :: rest) => some (trimStart rest)
  | _ => none

/-- The rest behind an arrow, `->` or `→`, with blanks around it. -/
def afterArrow? (s : List Char) : Option (List Char) :=
  match trimStart s with
  | '→' :: rest => some (trimStart rest)
  | '-' :: '>' :: rest => some (trimStart rest)
  | _ => none

/-- The digits behind an equals sign, with blanks around it, up to the end. -/
def digitsAfterEquals? (s : List Char) : Option (List Char) :=
  match trimStart s with
  | '=' :: rest =>
    let digits := trimStart rest
    if digits.isEmpty then none else if digits.all isDecimalDigit then some digits else none
  | _ => none

/-- The start symbol of a start line: a run without blanks up to the end. -/
def startSymbol? (s : List Char) : Option (List Char) :=
  match afterColon? "start".toList s with
  | some name => if name.isEmpty || name.any isBlank then none else some name
  | none => none

/-- Nonterminal, alternative and digits of a weight line. -/
def weightParts? (s : List Char) : Option (List Char × List Char × List Char) :=
  match after? "weight".toList s with
  | some (c :: rest) =>
    if isBlank c then
      splitRun (fun r => (afterArrow? r).bind (splitRun digitsAfterEquals?)) (trimStart rest)
    else none
  | _ => none

/-- The nonterminal of a rule and the text behind its arrow. -/
def ruleParts? (s : List Char) : Option (List Char × List Char) := splitRun afterArrow? s

/-! ### Forms -/

/-- The form of a line. -/
inductive Form
  /-- A blank line or a comment. -/
  | silent
  | nonterminals (names : List (List Char))
  | terminals (tokens : List (List Char))
  | start (name : List Char)
  | weight (left alternative digits : List Char)
  | production (left : List Char) (alternatives : List (List Char))
  /-- Neither of these. -/
  | unknown (line : List Char)
deriving Repr, DecidableEq

/-- The form of a trimmed line: the first that fits. -/
def Form.ofLine (s : List Char) : Form :=
  if s.isEmpty || s.head? == some '#' then .silent
  else
    match afterColon? "nonterminals".toList s with
    | some names => .nonterminals (words names)
    | none =>
      match afterColon? "terminals".toList s with
      | some tokens => .terminals (words tokens)
      | none =>
        match startSymbol? s with
        | some name => .start name
        | none =>
          match weightParts? s with
          | some (left, alternative, digits) => .weight left alternative digits
          | none =>
            match ruleParts? s with
            | some (left, alternatives) => .production left ((fields '|' alternatives).map trim)
            | none => .unknown s

end RightLinear.Lines
