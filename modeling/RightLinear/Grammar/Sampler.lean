import RightLinear.Random.Choice

/-! # Choices by weight

A sampler holds the weights of the alternatives of a nonterminal, as words of 32 bits, and picks an
alternative for a unit of weight.  The sums that it works with are words of 32 bits as well.
`checkedSum` adds a row up word by word and gives up as soon as a sum is no word; `runningSums` forms
the sums that a unit of weight is looked up among, which needs a row that has a weight, has one that
is not zero, and does not overflow. -/

namespace RightLinear

/-- The weights of the alternatives of a nonterminal, in their order. -/
structure Sampler where
  row : List UInt32
deriving Repr, DecidableEq

namespace Sampler

variable (s : Sampler)

/-- The weights as numbers. -/
def weights : List Nat := s.row.map UInt32.toNat

/-- The sum of the weights. -/
def total : Nat := s.weights.foldr (· + ·) 0

/-- The index of the alternative that a unit of weight belongs to, counted from zero. -/
def pick (source : Random.Source) : Nat × Random.Source :=
  let (unit, source) := source.pick (.weighted s.total)
  (Random.locate unit s.weights, source)

/-! ### Sums in words of 32 bits -/

/-- The sum of two words, if it is one. -/
def checkedAdd (a b : UInt32) : Option UInt32 :=
  if a.toNat + b.toNat < UInt32.size then some (a + b) else none

/-- The sum of a row, added up word by word. -/
def checkedSum (row : List UInt32) : Option UInt32 := row.foldlM checkedAdd 0

/-- Why a row has no running sums. -/
inductive Trouble
  | noWeight
  | allZero
  | overflow
deriving Repr, DecidableEq

/-- The running sums of a row behind the words that come to `sum`, and the sum of all. -/
def sumsFrom (sum : UInt32) : List UInt32 → Except Trouble (List UInt32 × UInt32)
  | [] => if sum = 0 then .error .allZero else .ok ([], sum)
  | w :: rest =>
    match checkedAdd sum w with
    | none => .error .overflow
    | some next => (sumsFrom next rest).map fun (sums, total) => (sum :: sums, total)

/-- The running sums of a row but for the last, and the last, which is the sum of all. -/
def runningSums : List UInt32 → Except Trouble (List UInt32 × UInt32)
  | [] => .error .noWeight
  | w :: rest => sumsFrom w rest

end Sampler
end RightLinear
