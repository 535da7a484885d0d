import RightLinear.Random.ChaCha

/-! # Sources of random words

A source is a tape of given words, followed by zeros without end, or a keystream.  A draw asks for
a `half` word (32 bits) or a `full` word (64 bits); a tape spends one of its words on either, a
keystream spends one or two of its own words.  A source counts the draws made on it. -/

namespace RightLinear.Random

/-- How many bits a draw asks for. -/
inductive Width
  | half
  | full
deriving Repr, DecidableEq

/-- The number of different words of a width. -/
def Width.range : Width → Nat
  | half => UInt32.size
  | full => UInt64.size

/-- Where the words come from. -/
inductive Supply
  /-- The given words, then zeros. -/
  | tape (words : List UInt64)
  | keystream (stream : Keystream)
deriving Repr, DecidableEq

namespace Supply

/-- The next draw of the given width. -/
def next : Width → Supply → Nat × Supply
  | _, tape [] => (0, tape [])
  | .half, tape (w :: rest) => (w.toUInt32.toNat, tape rest)
  | .full, tape (w :: rest) => (w.toNat, tape rest)
  | .half, keystream s =>
    let (w, s) := s.next
    (w.toNat, keystream s)
  | .full, keystream s =>
    let (low, s) := s.next
    let (high, s) := s.next
    (low.toNat + high.toNat * UInt32.size, keystream s)

/-- A bound on the draws that can be turned down in a row: the words left on a tape, since the
zeros behind them are never turned down, and beyond all practice for a keystream. -/
def patience : Supply → Nat
  | tape words => words.length
  | keystream _ => UInt32.size

end Supply

/-- A supply of random words and the number of draws made on it. -/
structure Source where
  supply : Supply
  drawn : Nat
deriving Repr, DecidableEq

namespace Source

/-- A fresh source that gives out `words` and then zeros. -/
def ofWords (words : List UInt64) : Source := ⟨.tape words, 0⟩

/-- A fresh source that gives out the keystream of a seed. -/
def ofSeed (seed : UInt64) : Source := ⟨.keystream (.ofSeed seed), 0⟩

/-- Draws a word of the given width. -/
def next (width : Width) (s : Source) : Nat × Source :=
  let (v, supply) := s.supply.next width
  (v, ⟨supply, s.drawn + 1⟩)

end Source
end RightLinear.Random
