/-! # The shortest decimal that reads back

A finite binary number is `m * 2 ^ q`; the reals that round to it fill an interval around it, whose
ends belong to it exactly when `m` is even.  `Binary.shortest` looks for the decimal with the fewest
significant digits inside that interval and, among those, for the nearest one.  On the grid of
decimals with `n` digits only the two neighbours of the number need a test, since the interval
contains the number itself.  How the digits are then laid out is the business of a `Layout`. -/

namespace RightLinear.Decimal

/-- A positive number `m * 2 ^ q` with the gap to the next smaller number of its format. -/
structure Binary where
  m : Nat
  q : Int
  /-- The next smaller number is only half a unit of `m` away. -/
  narrowBelow : Bool
deriving Repr, DecidableEq

/-- Significant digits, read as an integer, and the decimal exponent of the first of them. -/
structure Scientific where
  digits : Nat
  exponent : Int
deriving Repr, DecidableEq

namespace Binary

/-- The finite number with the given bits, without its sign; `none` for zero. -/
def ofBits? (bits : UInt64) : Option Binary :=
  let e := ((bits >>> 52) &&& 0x7FF).toNat
  let f := (bits &&& 0xFFFFFFFFFFFFF).toNat
  if e = 0 then
    if f = 0 then none else some ⟨f, -1074, false⟩
  else some ⟨0x10000000000000 + f, (e : Int) - 1075, f == 0 && e != 1⟩

variable (b : Binary)

/-- Numerator of `x * 2 ^ (q - 2) / 10 ^ k`; the denominator is `denominator`. -/
def numerator (k : Int) (x : Nat) : Nat := (x <<< (b.q - 2).toNat) * Nat.pow 10 (-k).toNat

/-- Denominator of `x * 2 ^ (q - 2) / 10 ^ k`. -/
def denominator (k : Int) : Nat := (1 <<< (2 - b.q).toNat) * Nat.pow 10 k.toNat

/-- The ends of the interval that rounds to the number, in quarters of a unit of `m`. -/
def lowerEnd : Nat := 4 * b.m - (if b.narrowBelow then 1 else 2)

/-- The upper end of the interval that rounds to the number, in quarters of a unit of `m`. -/
def upperEnd : Nat := 4 * b.m + 2

/-- Whether `c * 10 ^ k` rounds to the number. -/
def roundsTo (k : Int) (c : Nat) : Bool :=
  let x := c * b.denominator k
  let lo := b.numerator k b.lowerEnd
  let hi := b.numerator k b.upperEnd
  if b.m % 2 = 0 then lo ≤ x && x ≤ hi else lo < x && x < hi

/-- The exponent of the first digit: shifting by 400 places makes every number at least one. -/
def leadingExponent : Int :=
  let shifted := b.numerator (-400) (4 * b.m) / b.denominator (-400)
  ((Nat.toDigits 10 shifted).length : Int) - 401

/-- The best of the two neighbours on the grid of multiples of `10 ^ k`, if one rounds back.
Of two at the same distance the even one is taken. -/
def onGrid? (k : Int) : Option Nat :=
  let v := b.numerator k (4 * b.m)
  let d := b.denominator k
  let below := v / d
  let above := below + 1
  let down := 2 * (v % d)
  if b.roundsTo k below && (!b.roundsTo k above || down < d || (down == d && below % 2 == 0)) then
    some below
  else if b.roundsTo k above then some above
  else none

/-- The first grid with a hit, from `n` digits on. -/
def search (e : Int) : Nat → Nat → Nat × Int
  | 0, n => ((b.numerator (e - n) (4 * b.m)) / b.denominator (e - n), e - n)
  | fuel + 1, n =>
    match b.onGrid? (e - n) with
    | some c => (c, e - n)
    | none => search e fuel (n + 1)

/-- Drops final zeros, each of which raises the exponent of the unit by one. -/
def dropZeros : Nat → Nat → Nat
  | 0, c => c
  | fuel + 1, c => if c ≠ 0 ∧ c % 10 = 0 then dropZeros fuel (c / 10) else c

/-- The shortest decimal that rounds to the number; seventeen digits always suffice. -/
def shortest : Scientific :=
  let (c, k) := b.search b.leadingExponent 17 0
  ⟨dropZeros 20 c, k + (Nat.toDigits 10 c).length - 1⟩

end Binary

/-! ### Layout -/

/-- How a decimal is written down. -/
structure Layout where
  /-- The least exponent of the first digit that is written without an exponent. -/
  leastPlain : Int
  /-- The greatest exponent of the first digit that is written without an exponent. -/
  greatestPlain : Int

namespace Layout

/-- The decimal without an exponent, always with a point and a digit on either side of it. -/
def plain (digits : List Char) (e : Int) : List Char :=
  if e < 0 then '0' :: '.' :: List.replicate (-e - 1).toNat '0' ++ digits
  else
    let whole := (digits.take (e.toNat + 1)).rightpad (e.toNat + 1) '0'
    let rest := digits.drop (e.toNat + 1)
    whole ++ '.' :: (if rest.isEmpty then ['0'] else rest)

/-- The decimal with one digit before the point, the point only if digits follow, and an exponent
that always has a sign but no leading zeros. -/
def scientific (digits : List Char) (e : Int) : List Char :=
  let rest := digits.drop 1
  let point := if rest.isEmpty then [] else '.' :: rest
  let sign := if e < 0 then '-' else '+'
  digits.take 1 ++ point ++ 'e' :: sign :: Nat.toDigits 10 e.natAbs

/-- The shortest text of the finite number with the given bits. -/
def render (l : Layout) (bits : UInt64) : List Char :=
  let sign := if bits >>> 63 = 0 then [] else ['-']
  match Binary.ofBits? bits with
  | none => sign ++ ['0', '.', '0']
  | some b =>
    let s := b.shortest
    let digits := Nat.toDigits 10 s.digits
    if l.leastPlain ≤ s.exponent ∧ s.exponent ≤ l.greatestPlain then sign ++ plain digits s.exponent
    else sign ++ scientific digits s.exponent

end Layout
end RightLinear.Decimal
