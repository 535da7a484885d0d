import RightLinear.Json.Text

/-! # Passing over values

The value of an unknown field is passed over whatever it is.  The brackets that are still open are
kept in a list, so the depth of a value is not limited.  Less is asked of such a value than of one
that is used: a number may be of any size and an escape by number may name half of a pair. -/

namespace RightLinear.Json.Skip

open Reader

/-- Takes off the rest of a word whose first character is taken. -/
def word : List Char → Reader Unit
  | [] => pure ()
  | c :: rest => fun s =>
    match s with
    | [] => .error .truncated
    | d :: s => if d = c then word rest s else .error .malformed

/-! ### Strings and numbers -/

/-- Takes off a string behind its opening quotation mark, after `skip` characters that an escape
has already taken. -/
def textFrom : Nat → List Char → Except Fault (Unit × List Char)
  | _, [] => .error .truncated
  | skip + 1, _ :: rest => textFrom skip rest
  | 0, c :: rest =>
    if c = '"' then .ok ((), rest)
    else if c = '\\' then
      match rest with
      | [] => .error .truncated
      | 'u' :: digits =>
        match fourDigits digits with
        | .error fault => .error fault
        | .ok _ => textFrom 5 rest
      | e :: _ => if e ∈ ['"', '\\', '/', 'b', 'f', 'n', 'r', 't'] then textFrom 1 rest
        else .error .malformed
    else if c.toNat < 32 then .error .malformed
    else textFrom 0 rest

/-- Takes off a string behind its opening quotation mark. -/
def text : Reader Unit := fun s => textFrom 0 s

/-- Takes off digits, of which there has to be one. -/
def digits (s : List Char) : Except Fault (List Char) :=
  if (s.head?.any Char.isDigit) then .ok (s.dropWhile Char.isDigit) else .error .malformed

/-- Takes off an exponent, if there is one. -/
def exponent (s : List Char) : Except Fault (List Char) :=
  match s with
  | c :: rest =>
    if c = 'e' ∨ c = 'E' then
      match rest with
      | '+' :: r => digits r
      | '-' :: r => digits r
      | r => digits r
    else .ok s
  | [] => .ok s

/-- Takes off the digits of an integer, which do not begin with a superfluous zero. -/
def whole (s : List Char) : Except Fault (List Char) :=
  match s with
  | '0' :: rest => if rest.head?.any Char.isDigit then .error .malformed else .ok rest
  | _ => digits s

/-- Takes off a number behind its sign: an integer, then perhaps a fraction and an exponent. -/
def number : Reader Unit := fun s => do
  match ← whole s with
  | '.' :: rest => return ((), ← exponent (← digits rest))
  | rest => return ((), ← exponent rest)

/-! ### Nested values -/

/-- An open bracket. -/
inductive Frame
  | list
  | object
deriving Repr, DecidableEq

/-- The bracket that closes a frame. -/
def Frame.close : Frame → Char
  | .list => ']'
  | .object => '\x7d'

/-- What comes next, inside the open brackets. -/
inductive Phase
  | value
  /-- After an opening bracket. -/
  | opened
  /-- After a value. -/
  | closed
deriving Repr, DecidableEq

/-- Goes on to the value of the next element of a frame, past its key if it has one. -/
def enter (f : Frame) : Reader Phase := do
  match f with
  | .list => return .value
  | .object =>
    symbol '"'
    text
    symbol ':'
    return .value

/-- One step: a value or its opening bracket, or what stands between values. -/
def step : Phase → List Frame → Reader (Option (Phase × List Frame))
  | .value, frames => do
    let c ← upcoming
    if c = '[' then
      drop
      return some (.opened, .list :: frames)
    else if c = '\x7b' then
      drop
      return some (.opened, .object :: frames)
    else
      if c.isDigit then number
      else
        drop
        match c with
        | '"' => text
        | '-' => number
        | 'n' => word ['u', 'l', 'l']
        | 't' => word ['r', 'u', 'e']
        | 'f' => word ['a', 'l', 's', 'e']
        | _ => fail .malformed
      return some (.closed, frames)
  | _, [] => return none
  | phase, f :: frames => do
    let c ← upcoming
    if c = f.close then
      drop
      return some (.closed, frames)
    else if phase = .opened then return some (← enter f, f :: frames)
    else if c = ',' then
      drop
      return some (← enter f, f :: frames)
    else fail .malformed

/-- Steps until nothing is open, at most `fuel` of them. -/
def steps : Nat → Phase → List Frame → Reader Unit
  | 0, _, _ => fail .truncated
  | fuel + 1, phase, frames => do
    match ← step phase frames with
    | none => return ()
    | some (phase, frames) => steps fuel phase frames

/-- Passes over a value.  Two steps take one character at least. -/
def value : Reader Unit := fun s => steps (2 * s.length + 3) .value [] s

end RightLinear.Json.Skip
