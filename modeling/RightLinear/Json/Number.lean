import RightLinear.Json.Reader

/-! # Numbers in JSON

Integers that fit 64 bits are read exactly.  Other numbers are approximated: as many leading digits
as fit 64 bits form a significand, digits beyond them only count for the exponent, and the
significand is scaled by a power of ten in binary floating point.  A number too great for that is
not accepted. -/

namespace RightLinear.Json

/-- A number as read. -/
inductive Numeral
  | natural (n : Nat)
  /-- The negative of a positive number. -/
  | negative (n : Nat)
  | float (bits : UInt64)
deriving Repr, DecidableEq

/-- What kind of thing a number is. -/
def Numeral.found : Numeral → Found
  | .natural n => .integer n
  | .negative n => .integer (-(n : Int))
  | .float bits => .float bits

/-- The value of an ASCII digit. -/
def digitValue (c : Char) : Nat := c.toNat - '0'.toNat

/-- The digits in front. -/
def digitRun (s : List Char) : List Char := s.takeWhile Char.isDigit

/-- Appends digits to the significand `v` as long as it stays below `UInt64.size`; also the number
of digits left over. -/
def significand : Nat → List Char → Nat × Nat
  | v, [] => (v, 0)
  | v, d :: ds =>
    if 10 * v + digitValue d < UInt64.size then significand (10 * v + digitValue d) ds
    else (v, ds.length + 1)

/-! ### Scaling -/

/-- The floating point number nearest to `10 ^ k`. -/
def powerOfTen (k : Nat) : Float := Float.ofScientific 1 false k

/-- Scales by `10 ^ e` in steps of at most 308 places; `none` if the result is too great.  Two full
steps down make every significand zero. -/
def scaleFrom : Nat → Float → Int → Option Float
  | 0, f, _ => some f
  | fuel + 1, f, e =>
    if e.natAbs ≤ 308 then
      if 0 ≤ e then
        let g := f * powerOfTen e.natAbs
        if g.isInf then none else some g
      else some (f / powerOfTen e.natAbs)
    else if f == 0 then some f
    else if 0 ≤ e then none
    else scaleFrom fuel (f / powerOfTen 308) (e + 308)

/-- The bits of a number with the given sign. -/
def signedBits (negative : Bool) (f : Float) : UInt64 := if negative then (-f).toBits else f.toBits

/-- The number `v * 10 ^ e`. -/
def scaled (negative : Bool) (v : Nat) (e : Int) : Except Fault Numeral :=
  match scaleFrom 3 v.toUInt64.toFloat e with
  | some f => .ok (.float (signedBits negative f))
  | none => .error .malformed

/-! ### Reading -/

/-- The digits in front, of which there has to be one, and what is behind them. -/
def someDigits (s : List Char) : Except Fault (List Char × List Char) :=
  match s with
  | [] => .error .truncated
  | c :: _ =>
    if c.isDigit then .ok (digitRun s, s.dropWhile Char.isDigit) else .error .malformed

/-- Drops a sign in front; also whether it is a minus. -/
def exponentSign : List Char → Bool × List Char
  | '+' :: rest => (false, rest)
  | '-' :: rest => (true, rest)
  | s => (false, s)

/-- Exponents from here on make a number zero or too great, whatever its digits. -/
def exponentBound : Nat := 0x80000000

/-- Reads an exponent behind its `e`. -/
def readExponent (negative : Bool) (v : Nat) (e : Int) (s : List Char) :
    Except Fault (Numeral × List Char) := do
  let (down, s) := exponentSign s
  let (digits, rest) ← someDigits s
  let n := digits.foldl (fun n d => 10 * n + digitValue d) 0
  if n < exponentBound then
    let x ← scaled negative v (if down then e - n else e + n)
    return (x, rest)
  else if v ≠ 0 ∧ !down then .error .malformed
  else return (.float (signedBits negative 0), rest)

/-- Reads what may follow the digits of a number that is not an integer. -/
def readScale (negative : Bool) (v : Nat) (e : Int) (s : List Char) :
    Except Fault (Numeral × List Char) :=
  match s with
  | 'e' :: rest => readExponent negative v e rest
  | 'E' :: rest => readExponent negative v e rest
  | _ => (scaled negative v e).map fun x => (x, s)

/-- Reads the digits behind a point. -/
def readFraction (negative : Bool) (v : Nat) (e : Int) (s : List Char) :
    Except Fault (Numeral × List Char) := do
  let (digits, rest) ← someDigits s
  let (v, left) := significand v digits
  readScale negative v (e - (digits.length - left : Nat)) rest

/-- The integer with the given sign; the negative of zero, and a negative number below the signed
integers of 64 bits, are no integers. -/
def integer (negative : Bool) (v : Nat) : Numeral :=
  if !negative then .natural v
  else if v = 0 ∨ 0x8000000000000000 < v then .float (signedBits true v.toUInt64.toFloat)
  else .negative v

/-- Reads a number behind its sign. -/
def readUnsigned (negative : Bool) (s : List Char) : Except Fault (Numeral × List Char) := do
  let (digits, rest) ← someDigits s
  if digits.head? = some '0' ∧ digits.length ≠ 1 then .error .malformed
  let (v, left) := significand 0 digits
  match rest with
  | '.' :: fraction => readFraction negative v left fraction
  | 'e' :: exponent => readExponent negative v left exponent
  | 'E' :: exponent => readExponent negative v left exponent
  | _ =>
    if left = 0 then return (integer negative v, rest)
    else (scaled negative v left).map fun x => (x, rest)

/-- Reads a number whose sign or first digit is in front. -/
def numeral : Reader Numeral := fun s =>
  match s with
  | '-' :: rest => readUnsigned true rest
  | _ => readUnsigned false s

end RightLinear.Json
