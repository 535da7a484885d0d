import RightLinear.Random.Source

/-! # Fair choices from random words

A draw `v` out of `r` different words is turned into a number below `count` by the product
`v * count`: its high part `v * count / r` is the answer, its low part `v * count % r` decides
whether the draw counts at all.  A draw whose low part lies above the `zone` is turned down and
another one made, so that all answers are left with the same number of draws (`Scale.admit?`).  A
uniform choice takes the answer for an index; a weighted choice looks the answer up among the
running sums of the weights (`locate`). -/

namespace RightLinear.Random

/-- How draws become numbers below `count`. -/
structure Scale where
  width : Width
  count : Nat
  /-- The greatest low part of a product that is let through. -/
  zone : Nat
deriving Repr, DecidableEq

namespace Scale

/-- The scale of a choice among `count` equal alternatives: the zone keeps as many low parts as the
greatest product of `count` and a power of two that fits 64 bits. -/
def uniform (count : Nat) : Scale := ⟨.full, count, (count <<< (63 - count.log2)) - 1⟩

/-- The scale of a choice among `total` units of weight: the zone leaves out as many low parts as
remain when the number of words is divided by `total`. -/
def weighted (total : Nat) : Scale :=
  ⟨.half, total, UInt32.size - 1 - (UInt32.size - total) % total⟩

/-- The answer of the draw `v`, regardless of the zone. -/
def answer (s : Scale) (v : Nat) : Nat := v * s.count / s.width.range

/-- The answer of a draw is below the count. -/
theorem answer_lt {s : Scale} {v : Nat} (hv : v < s.width.range) (hc : 0 < s.count) :
    s.answer v < s.count :=
  Nat.div_lt_of_lt_mul (Nat.mul_lt_mul_of_pos_right hv hc)

/-- The answer of the draw `v`, unless the draw is turned down. -/
def admit? (s : Scale) (v : Nat) : Option Nat :=
  if v * s.count % s.width.range ≤ s.zone then some (s.answer v) else none

end Scale

namespace Source

/-- Draws until a draw is let through; after `patience` refusals the next draw counts as it is. -/
def roll (scale : Scale) : Nat → Source → Nat × Source
  | 0, s =>
    let (v, s) := s.next scale.width
    (scale.answer v, s)
  | patience + 1, s =>
    let (v, s) := s.next scale.width
    match scale.admit? v with
    | some n => (n, s)
    | none => roll scale patience s

/-- A number below the scale's count. -/
def pick (scale : Scale) (s : Source) : Nat × Source := s.roll scale s.supply.patience

end Source

/-- The first index whose running sum of weights exceeds `unit`. -/
def locate (unit : Nat) : List Nat → Nat
  | [] => 0
  | w :: rest => if unit < w then 0 else locate (unit - w) rest + 1

end RightLinear.Random
