import RightLinear.Automaton.Membership
import RightLinear.Automaton.Render
import RightLinear.Command.Arguments
import RightLinear.Definition.File
import RightLinear.Definition.Steps
import RightLinear.Grammar.Automaton
import RightLinear.Grammar.Render

/-! # Carrying out commands

A command is carried out on the contents of its grammar file and a random source, which is that of its
seed or, if it names none, of a seed from the system (`report`).  It yields what it prints and, if it
breaks off, the error; what has been printed before stays. -/

namespace RightLinear.Command

open RightLinear.Random (Source)
open Text

/-- What a command prints, and the error that ended it, if one did. -/
structure Report where
  output : List Char
  error : Option Error
deriving Repr, DecidableEq

/-- The exit code of a finished command. -/
def Report.code (r : Report) : UInt8 := if r.error.isSome then 1 else 0

/-- The exit code of a run without a command. -/
def Stop.code : Stop → UInt8
  | .refused => 2
  | .help => 0
  | .version => 0

/-- What is printed in a run without a command. -/
def Stop.output : Stop → String
  | .refused => ""
  | .help =>
    "Usage: regular-grammar [-v]... demo | generate FILE | check FILE WORD... | table FILE\n"
  | .version => "regular-grammar 0.1.0\n"

/-- A verdict in words. -/
def verdict (b : Bool) : List Char := if b then "true".toList else "false".toList

/-! ### Generated words -/

/-- The line of the `i`-th generated word, with the verdict of the automaton. -/
def entry (m : Automaton) (i : Nat) (word : List Char) : List Char :=
  line (Nat.toDigits 10 i ++ ['.', ' '] ++ word ++ "  -> ".toList ++ verdict (m.accepts word))

/-- The lines of `count` random words, numbered from `i` on, within the limits of the grammar. -/
def listWords (g : Grammar) (m : Automaton) : Nat → Nat → Source → Report
  | 0, _, _ => ⟨[], none⟩
  | count + 1, i, source =>
    match g.generate g.limits.maxSteps source with
    | (.error e, _) => ⟨[], some (.exhausted e)⟩
    | (.ok word, source) =>
      let rest := listWords g m count (i + 1) source
      ⟨entry m i word ++ rest.output, rest.error⟩

/-- The grammar with the limits that are given in place of its own. -/
def limited (g : Grammar) (maxSteps attempts : Option UInt64) : Grammar :=
  g.withLimits ⟨maxSteps.getD g.limits.maxSteps, attempts.getD g.limits.maxAttempts⟩

/-! ### Membership -/

/-- A word in a column of the given width, with the verdict of the automaton. -/
def checkLine (m : Automaton) (width : Nat) (word : List Char) : List Char :=
  line (word.rightpad width ' ' ++ " -> ".toList ++ verdict (m.accepts word))

/-! ### The demonstration -/

/-- The grammar of the demonstration. -/
def exampleDefinition : Definition := .ofSteps "S"
  [.nonterminal "S", .nonterminal "B", .nonterminal "C", .terminals "abc",
    .production "S" "aB", .productions "B" ["aC", "bB"], .productions "C" ["bB", "c", "aS"],
    .weight "C" "c" 3]

/-- The words of the demonstration. -/
def exampleWords : List String := ["c", "aac", "abac", "aa", "aba", "ababc"]

/-- Shows the grammar, five words of it, and which of some words belong to it. -/
def demonstrate (g : Grammar) (source : Source) : Report :=
  let m := g.toAutomaton
  let words := listWords g m 5 1 source
  let shown := line g.render ++ line "Generated strings and automaton check:".toList ++ words.output
  if words.error.isSome then ⟨shown, words.error⟩
  else
    ⟨shown ++ line "\nMembership tests:".toList ++
      exampleWords.flatMap fun w => [' ', ' '] ++ checkLine m 8 w.toList, none⟩

/-- Shows the grammar and its automaton. -/
def describe (g : Grammar) : List Char :=
  let m := g.toAutomaton
  line g.render ++ line m.render ++ line m.table ++
    line ("deterministic: ".toList ++ verdict m.isDeterministic)

/-! ### Commands -/

/-- The grammar file of a command. -/
def file? : Command → Option String
  | .demo _ => none
  | .generate file _ _ _ _ => some file
  | .check file _ => some file
  | .table file => some file

/-- The seed that a command asks for. -/
def seed? : Command → Option UInt64
  | .demo seed => seed
  | .generate _ _ _ _ seed => seed
  | _ => none

/-- Carries on with a grammar, if there is one. -/
def onGrammar (g : Except Error Grammar) (next : Grammar → Report) : Report :=
  match g with
  | .error e => ⟨[], some e⟩
  | .ok g => next g

/-- Carries out a command on the contents of its file. -/
def run (contents : Storage.Contents) (source : Source) : Command → Report
  | .demo _ =>
    onGrammar (exampleDefinition.toGrammar.mapError .grammar) fun g => demonstrate g source
  | .generate file count maxSteps attempts _ =>
    onGrammar (Grammar.ofFile file contents) fun g =>
      let g := limited g maxSteps attempts
      listWords g g.toAutomaton count.toNat 1 source
  | .check file words =>
    onGrammar (Grammar.ofFile file contents) fun g =>
      let m := g.toAutomaton
      ⟨words.flatMap fun w => checkLine m 10 w.toList, none⟩
  | .table file => onGrammar (Grammar.ofFile file contents) fun g => ⟨describe g, none⟩

/-- The source of a command: the keystream of its seed, or of a seed from the system if it has none. -/
def source (systemSeed : UInt64) (command : Command) : Source :=
  .ofSeed (command.seed?.getD systemSeed)

/-- What comes of a command, with a seed from the system at hand. -/
def report (contents : Storage.Contents) (systemSeed : UInt64) (command : Command) : Report :=
  command.run contents (command.source systemSeed)

end RightLinear.Command
