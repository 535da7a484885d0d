import RightLinear.Json.Reader

/-! # Strings in JSON

A string stands between quotation marks.  `encode` escapes the quotation mark, the backslash and
the controls and nothing else; `decode` reads every escape of the format, also the pairs of
surrogates that stand for one character. -/

namespace RightLinear.Json

/-! ### Writing -/

/-- A hexadecimal digit. -/
def hexDigit (n : Nat) : Char := Nat.digitChar (n % 16)

/-- How one character stands in a string. -/
def encodeChar (c : Char) : List Char :=
  if c = '"' ∨ c = '\\' then ['\\', c]
  else if c = '\x08' then ['\\', 'b']
  else if c = '\x0c' then ['\\', 'f']
  else if c = '\n' then ['\\', 'n']
  else if c = '\r' then ['\\', 'r']
  else if c = '\t' then ['\\', 't']
  else if c.toNat < 32 then ['\\', 'u', '0', '0', hexDigit (c.toNat / 16), hexDigit c.toNat]
  else [c]

/-- The string with its quotation marks. -/
def encode (s : List Char) : List Char := '"' :: s.flatMap encodeChar ++ ['"']

/-! ### Reading -/

/-- The value of a hexadecimal digit of either case. -/
def hexValue? (c : Char) : Option Nat :=
  if '0' ≤ c ∧ c ≤ '9' then some (c.toNat - '0'.toNat)
  else if 'a' ≤ c ∧ c ≤ 'f' then some (c.toNat - 'a'.toNat + 10)
  else if 'A' ≤ c ∧ c ≤ 'F' then some (c.toNat - 'A'.toNat + 10)
  else none

/-- Whether at least four bytes are left. -/
def hasFourBytes (s : List Char) : Bool := 4 ≤ (String.ofList (s.take 4)).utf8ByteSize

/-- The value of the four hexadecimal digits in front. -/
def fourDigits (s : List Char) : Except Fault Nat :=
  match (s.take 4).mapM hexValue? with
  | some [a, b, c, d] => .ok (((a * 16 + b) * 16 + c) * 16 + d)
  | _ => .error (if hasFourBytes s then .malformed else .truncated)

/-- Whether `n` starts a pair of surrogates. -/
def isLeading (n : Nat) : Bool := 0xD800 ≤ n && n < 0xDC00

/-- Whether `n` ends a pair of surrogates. -/
def isTrailing (n : Nat) : Bool := 0xDC00 ≤ n && n < 0xE000

/-- The character of an escape by number, and the number of characters that the escape takes
behind its `u`. -/
def numberedEscape (s : List Char) : Except Fault (Char × Nat) := do
  let n ← fourDigits s
  if isTrailing n then .error .malformed
  else if isLeading n then
    match s.drop 4 with
    | [] => .error .truncated
    | '\\' :: [] => .error .truncated
    | '\\' :: 'u' :: rest =>
      let m ← fourDigits rest
      if isTrailing m then
        .ok (Char.ofNat (0x10000 + (n - 0xD800) * 0x400 + (m - 0xDC00)), 10)
      else .error .malformed
    | _ => .error .malformed
  else .ok (Char.ofNat n, 4)

/-- The character of an escape, and the number of characters that it takes behind its backslash. -/
def escape : List Char → Except Fault (Char × Nat)
  | [] => .error .truncated
  | '"' :: _ => .ok ('"', 1)
  | '\\' :: _ => .ok ('\\', 1)
  | '/' :: _ => .ok ('/', 1)
  | 'b' :: _ => .ok ('\x08', 1)
  | 'f' :: _ => .ok ('\x0c', 1)
  | 'n' :: _ => .ok ('\n', 1)
  | 'r' :: _ => .ok ('\r', 1)
  | 't' :: _ => .ok ('\t', 1)
  | 'u' :: rest => (numberedEscape rest).map fun (c, n) => (c, n + 1)
  | _ => .error .malformed

/-- Reads up to the closing quotation mark, after `skip` characters that an escape has already
taken; `before` holds the characters read, the last one first. -/
def decodeFrom (before : List Char) : Nat → List Char → Except Fault (List Char × List Char)
  | _, [] => .error .truncated
  | skip + 1, _ :: rest => decodeFrom before skip rest
  | 0, c :: rest =>
    if c = '"' then .ok (before.reverse, rest)
    else if c = '\\' then
      match escape rest with
      | .error fault => .error fault
      | .ok (e, n) => decodeFrom (e :: before) n rest
    else if c.toNat < 32 then .error .malformed
    else decodeFrom (c :: before) 0 rest

/-- Reads a string behind its opening quotation mark. -/
def decode : Reader (List Char) := fun s => decodeFrom [] 0 s

/-- Reads an entry's key, whose quotation mark is in front. -/
def key : Reader String := do
  Reader.drop
  return String.ofList (← decode)

end RightLinear.Json
