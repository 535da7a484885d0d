/-! # Command line arguments

A command is named by a verb, in front of which only flags may stand; behind it numeric options,
flags and operands may be mixed.  Options take their number from the next argument or attached to
their name; each may be given once.  Everything behind a bare `--` is an operand.  Arguments are
read from left to right, so that the first one that is refused, or asks for help, decides. -/

namespace RightLinear

/-- What the program is asked to do. -/
inductive Command
  | demo (seed : Option UInt64)
  | generate (file : String) (count : UInt64) (maxSteps attempts seed : Option UInt64)
  | check (file : String) (words : List String)
  | table (file : String)
deriving Repr, DecidableEq

namespace Command

/-- Why there is no command to carry out. -/
inductive Stop
  | refused
  | help
  | version
deriving Repr, DecidableEq

/-! ### The vocabulary -/

/-- The name of a command. -/
inductive Verb
  | demo
  | generate
  | check
  | table
deriving Repr, DecidableEq

/-- An option that takes a number. -/
inductive Setting
  | seed
  | count
  | maxSteps
  | attempts
deriving Repr, DecidableEq

/-- The verb of the given name. -/
def Verb.ofName? : String → Option Verb
  | "demo" => some .demo
  | "generate" => some .generate
  | "check" => some .check
  | "table" => some .table
  | _ => none

/-- The options of a command. -/
def Verb.settings : Verb → List Setting
  | .demo => [.seed]
  | .generate => [.count, .maxSteps, .attempts, .seed]
  | .check => []
  | .table => []

/-- The greatest number of operands of a command, if there is one. -/
def Verb.mostOperands? : Verb → Option Nat
  | .demo => some 0
  | .generate => some 1
  | .check => none
  | .table => some 1

/-- The long name of an option. -/
def Setting.long : Setting → String
  | .seed => "seed"
  | .count => "count"
  | .maxSteps => "max-steps"
  | .attempts => "attempts"

/-- The one-letter name of an option, if it has one. -/
def Setting.short? : Setting → Option Char
  | .count => some 'c'
  | _ => none

/-! ### Single arguments -/

/-- An argument by its shape. -/
inductive Token
  /-- The bare `--`. -/
  | separator
  /-- A long name, with what stands behind its first equals sign. -/
  | long (name : String) (attached : Option String)
  /-- What stands behind a single dash. -/
  | letters (letters : List Char)
  | operand (text : String)
deriving Repr, DecidableEq

/-- The shape of an argument.  A dash alone is an operand. -/
def Token.ofString (text : String) : Token :=
  match text.toList with
  | '-' :: '-' :: [] => .separator
  | '-' :: '-' :: rest =>
    let name := String.ofList (rest.takeWhile (· != '='))
    match rest.dropWhile (· != '=') with
    | _ :: value => .long name (some (String.ofList value))
    | [] => .long name none
  | '-' :: c :: rest => .letters (c :: rest)
  | _ => .operand text

/-- A number of 64 bits in decimal digits, perhaps behind a plus sign. -/
def number? (text : String) : Option UInt64 :=
  let digits := match text.toList with
    | '+' :: rest => rest
    | s => s
  if digits.isEmpty || !digits.all Char.isDigit then none
  else
    let n : Nat := digits.foldl (fun n d => 10 * n + (d.toNat - '0'.toNat)) 0
    if n < UInt64.size then some n.toUInt64 else none

/-! ### Arguments behind a verb -/

/-- What has been read behind a verb. -/
structure Reading where
  settings : List (Setting × UInt64) := []
  operands : List String := []

namespace Reading

/-- The number of an option. -/
def get? (r : Reading) (s : Setting) : Option UInt64 := r.settings.lookup s

/-- Gives an option its number, once. -/
def set (r : Reading) (s : Setting) (text : String) : Except Stop Reading :=
  match number? text, r.get? s with
  | some n, none => .ok { r with settings := (s, n) :: r.settings }
  | _, _ => .error .refused

/-- Adds an operand.  The first one is a file name, which is not empty. -/
def addOperand (verb : Verb) (r : Reading) (text : String) : Except Stop Reading :=
  if verb.mostOperands?.any (· ≤ r.operands.length) then .error .refused
  else if r.operands.isEmpty && text.isEmpty then .error .refused
  else .ok { r with operands := r.operands ++ [text] }

/-- Reads letters behind a dash: flags, then perhaps an option with the rest as its number.  The
option comes back if it has no number yet. -/
def addLetters (verb : Verb) (r : Reading) : List Char → Except Stop (Option Setting × Reading)
  | [] => .ok (none, r)
  | c :: rest =>
    if c = 'v' then addLetters verb r rest
    else if c = 'h' then .error .help
    else
      match verb.settings.find? fun s => s.short? == some c with
      | none => .error .refused
      | some s =>
        match rest with
        | [] => .ok (some s, r)
        | '=' :: value => (r.set s (String.ofList value)).map fun r => (none, r)
        | value => (r.set s (String.ofList value)).map fun r => (none, r)

/-- Reads a long name: a flag, or an option with its number attached or still to come. -/
def addLong (verb : Verb) (r : Reading) (name : String) (attached : Option String) :
    Except Stop (Option Setting × Reading) :=
  match verb.settings.find? fun s => s.long == name, attached with
  | some s, some value => (r.set s value).map fun r => (none, r)
  | some s, none => .ok (some s, r)
  | none, some _ => .error .refused
  | none, none =>
    if name = "verbose" then .ok (none, r)
    else if name = "help" then .error .help
    else .error .refused

/-- Reads the arguments behind a verb; `pending` is an option that still needs its number. -/
def addAll (verb : Verb) (pending : Option Setting) (r : Reading) :
    List String → Except Stop Reading
  | [] => if pending.isSome then .error .refused else .ok r
  | text :: rest =>
    match pending, Token.ofString text with
    | some s, .operand text => do addAll verb none (← r.set s text) rest
    | some _, _ => .error .refused
    | none, .operand text => do addAll verb none (← r.addOperand verb text) rest
    | none, .letters letters => do
      let (pending, r) ← r.addLetters verb letters
      addAll verb pending r rest
    | none, .long name attached => do
      let (pending, r) ← r.addLong verb name attached
      addAll verb pending r rest
    | none, .separator => rest.foldlM (addOperand verb) r

/-- The command of what has been read, if no operand is missing. -/
def command (r : Reading) : Verb → Except Stop Command
  | .demo => .ok (.demo (r.get? .seed))
  | .generate =>
    match r.operands with
    | file :: _ =>
      .ok (.generate file ((r.get? .count).getD 5) (r.get? .maxSteps) (r.get? .attempts)
        (r.get? .seed))
    | [] => .error .refused
  | .check =>
    match r.operands with
    | file :: word :: words => .ok (.check file (word :: words))
    | _ => .error .refused
  | .table =>
    match r.operands with
    | file :: _ => .ok (.table file)
    | [] => .error .refused

end Reading

/-! ### All arguments -/

/-- Reads letters behind a dash in front of the verb. -/
def leadingLetters : List Char → Except Stop Unit
  | [] => .ok ()
  | c :: rest =>
    if c = 'v' then leadingLetters rest
    else if c = 'h' then .error .help
    else if c = 'V' then .error .version
    else .error .refused

/-- Help is asked for nothing in particular, or for one verb. -/
def helpOn : List String → Stop
  | [] => .help
  | [name] => if name = "help" ∨ (Verb.ofName? name).isSome then .help else .refused
  | _ => .refused

/-- The command that the arguments ask for. -/
def ofArguments : List String → Except Stop Command
  | [] => .error .refused
  | text :: rest =>
    match Token.ofString text with
    | .operand name =>
      match Verb.ofName? name with
      | some verb => do (← Reading.addAll verb none {} rest).command verb
      | none => .error (if name = "help" then helpOn rest else .refused)
    | .letters letters => do
      leadingLetters letters
      ofArguments rest
    | .long "verbose" none => ofArguments rest
    | .long "version" none => .error .version
    | .long "help" none => .error .help
    | _ => .error .refused

end Command
end RightLinear
