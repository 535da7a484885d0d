import RightLinear.Json.Fault

/-! # Reading JSON from the front

A reader takes a value off the front of a text and leaves the rest.  Here stand the readers for
what holds values together: blanks, brackets, commas and colons.  What follows a bracket is asked
for one element at a time (`moreElements`, `moreEntries`), so the first thing that is wrong in the
order of the text is the one reported. -/

namespace RightLinear.Json

/-- Takes a value off the front of a text. -/
abbrev Reader (α : Type) := StateT (List Char) (Except Fault) α

/-- White space of the format: space, tab, line feed and carriage return. -/
def isSpace (c : Char) : Bool := c == ' ' || c == '\n' || c == '\t' || c == '\r'

namespace Reader

variable {α σ : Type}

/-- Gives up. -/
def fail (fault : Fault) : Reader α := fun _ => .error fault

/-- The next character that is not a blank, which stays in front. -/
def upcoming : Reader Char := fun s =>
  match s.dropWhile isSpace with
  | [] => .error .truncated
  | c :: rest => .ok (c, c :: rest)

/-- Takes one character off. -/
def drop : Reader Unit := fun s => .ok ((), s.drop 1)

/-- Takes off the character `c` behind blanks. -/
def symbol (c : Char) : Reader Unit := do
  if (← upcoming) = c then drop else fail .malformed

/-! ### Lists -/

/-- Whether an element follows in a list; takes off the comma in front of it. -/
def moreElements (first : Bool) : Reader Bool := do
  let c ← upcoming
  if c = ']' then return false
  else if first then return true
  else if c = ',' then
    drop
    if (← upcoming) = ']' then fail .malformed else return true
  else fail .malformed

/-- The next element of a list, if there is one. -/
def element? (first : Bool) (item : Reader α) : Reader (Option α) := do
  if ← moreElements first then return some (← item) else return none

/-- The elements of a list up to its closing bracket, of which there are at most `fuel - 1`. -/
def elementsFrom (item : Reader α) : Nat → Bool → Reader (List α)
  | 0, _ => fail .truncated
  | fuel + 1, first => do
    match ← element? first item with
    | none => return []
    | some a => return a :: (← elementsFrom item fuel false)

/-- The elements of a list up to its closing bracket.  Every element takes a character at least. -/
def elements (item : Reader α) : Reader (List α) := fun s => elementsFrom item (s.length + 1) true s

/-! ### Objects -/

/-- Whether an entry follows in an object; takes off the comma in front of it. -/
def moreEntries (first : Bool) : Reader Bool := do
  let c ← upcoming
  if c = '\x7d' then return false
  else if first then
    if c = '"' then return true else fail .malformed
  else if c = ',' then
    drop
    if (← upcoming) = '"' then return true else fail .malformed
  else fail .malformed

/-- Reads entries up to the closing brace, of which there are at most `fuel - 1`. -/
def entriesFrom (entry : σ → Reader σ) : Nat → Bool → σ → Reader σ
  | 0, _, _ => fail .truncated
  | fuel + 1, first, a => do
    if ← moreEntries first then entriesFrom entry fuel false (← entry a) else return a

/-- Reads the entries of an object up to its closing brace, each with what is known from those
before it.  An entry begins at the quotation mark of its key. -/
def entries (entry : σ → Reader σ) (a : σ) : Reader σ := fun s =>
  entriesFrom entry (s.length + 1) true a s

/-! ### Whole texts -/

/-- Reads a whole text: nothing but blanks may follow the value. -/
def run (r : Reader α) (s : List Char) : Except Fault α :=
  match r s with
  | .error fault => .error fault
  | .ok (a, rest) => if rest.all isSpace then .ok a else .error .malformed

end Reader
end RightLinear.Json
