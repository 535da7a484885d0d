import RightLinear.Json.Number
import RightLinear.Json.Skip
import RightLinear.Ordered.Map

/-! # Reading values of a known type

Each reader looks at the first character of the coming value.  If it cannot start what is expected,
the value is read as far as needed to name it in the mismatch; a list or an object is named after
its bracket, and a value that is itself broken is reported as broken. -/

namespace RightLinear.Json

open Reader

variable {α : Type}

/-- Gives up on a value of a wrong type. -/
def wrongType (found : Found) (expected : String) : Reader α :=
  fail (.mismatch (.wrongType found expected))

/-- Gives up on a value out of range. -/
def wrongValue (found : Found) (expected : String) : Reader α :=
  fail (.mismatch (.wrongValue found expected))

/-- Names the value that starts with `c` instead of what is expected. -/
def unexpected (c : Char) (expected : String) : Reader α := do
  match c with
  | '[' => wrongType .sequence expected
  | '\x7b' => wrongType .map expected
  | '"' =>
    drop
    wrongType (.text (← decode)) expected
  | 'n' =>
    drop
    Skip.word ['u', 'l', 'l']
    wrongType .null expected
  | 't' =>
    drop
    Skip.word ['r', 'u', 'e']
    wrongType (.boolean true) expected
  | 'f' =>
    drop
    Skip.word ['a', 'l', 's', 'e']
    wrongType (.boolean false) expected
  | _ =>
    if c = '-' ∨ c.isDigit then wrongType (← numeral).found expected else fail .malformed

/-! ### Strings -/

/-- Reads a string of characters. -/
def characters (expected : String) : Reader (List Char) := do
  let c ← upcoming
  if c = '"' then
    drop
    decode
  else unexpected c expected

/-- Reads a string. -/
def string : Reader String := return String.ofList (← characters "a string")

/-- Reads a string of exactly one character. -/
def character : Reader Char := do
  match ← characters "a character" with
  | [c] => return c
  | s => wrongValue (.text s) "a character"

/-! ### Numbers -/

/-- Reads an integer from zero up to, and without, `bound`. -/
def naturalBelow (bound : Nat) (expected : String) : Reader Nat := do
  let c ← upcoming
  if c = '-' ∨ c.isDigit then
    match ← numeral with
    | .natural n => if n < bound then return n else wrongValue (.integer n) expected
    | .negative n => wrongValue (.integer (-(n : Int))) expected
    | .float bits => wrongType (.float bits) expected
  else unexpected c expected

/-- Reads a number of 32 bits. -/
def word32 : Reader UInt32 := return (← naturalBelow UInt32.size "u32").toUInt32

/-- Reads a number of 64 bits. -/
def word64 : Reader UInt64 := return (← naturalBelow UInt64.size "usize").toUInt64

/-! ### Lists and tables -/

/-- Reads a list. -/
def list (item : Reader α) : Reader (List α) := do
  let c ← upcoming
  if c = '[' then
    drop
    let l ← elements item
    symbol ']'
    return l
  else unexpected c "a sequence"

/-- Reads an object as a table.  A repeated key takes its last value and keeps its first place. -/
def table (item : Reader α) : Reader (OrdMap String α) := do
  let c ← upcoming
  if c = '\x7b' then
    drop
    let m ← entries (fun m => do
      let k ← key
      symbol ':'
      return m.insert k (← item)) ∅
    symbol '\x7d'
    return m
  else unexpected c "a map"

/-! ### Records -/

/-- Reads a record written as an object of its fields, or as a list of them in order. -/
def record (expected : String) (ofFields ofElements : Reader α) : Reader α := do
  let c ← upcoming
  if c = '\x7b' then
    drop
    let a ← ofFields
    symbol '\x7d'
    return a
  else if c = '[' then
    drop
    let a ← ofElements
    symbol ']'
    return a
  else unexpected c expected

/-- Reads the value of the field `name` behind its key; the field must not have one yet. -/
def field (name : String) (known : Option α) (item : Reader α) : Reader (Option α) := do
  if known.isSome then fail (.mismatch (.duplicateField name))
  else
    symbol ':'
    return some (← item)

/-- Passes over the value of an unknown field behind its key. -/
def skipField : Reader Unit := do
  symbol ':'
  Skip.value

/-- The value of a field that has to be there. -/
def present (name : String) : Option α → Reader α
  | some a => return a
  | none => fail (.mismatch (.missingField name))

end RightLinear.Json
