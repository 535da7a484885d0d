/-! # The ChaCha keystream with twelve rounds

The state is a square of sixteen 32-bit words, kept as four rows of four lanes.  A round works on
all columns at once, so it is the quarter round on whole rows (`Square.mix`); a round on the
diagonals is the same after shifting the lanes of the lower rows.  `Keystream.next` hands out the
words of block 0, then of block 1, and so on. -/

namespace RightLinear.Random

/-- Four words, one per column. -/
structure Row where
  w0 : UInt32
  w1 : UInt32
  w2 : UInt32
  w3 : UInt32
deriving Repr, DecidableEq

namespace Row

/-- Combines two rows lane by lane. -/
def zipWith (f : UInt32 → UInt32 → UInt32) (r s : Row) : Row :=
  ⟨f r.w0 s.w0, f r.w1 s.w1, f r.w2 s.w2, f r.w3 s.w3⟩

/-- Rotates every word `n` bits to the left, for `0 < n < 32`. -/
def rotateBits (n : UInt32) (r : Row) : Row :=
  let rot w := (w <<< n) ||| (w >>> (32 - n))
  ⟨rot r.w0, rot r.w1, rot r.w2, rot r.w3⟩

/-- Moves every word one lane towards the first. -/
def shiftLanes (r : Row) : Row := ⟨r.w1, r.w2, r.w3, r.w0⟩

/-- The words from the first lane to the last. -/
def toList (r : Row) : List UInt32 := [r.w0, r.w1, r.w2, r.w3]

end Row

/-- Sixteen words in four rows. -/
structure Square where
  a : Row
  b : Row
  c : Row
  d : Row
deriving Repr, DecidableEq

namespace Square

/-- The quarter round, on all four columns at once. -/
def mix (s : Square) : Square :=
  let a := s.a.zipWith (· + ·) s.b
  let d := (s.d.zipWith (· ^^^ ·) a).rotateBits 16
  let c := s.c.zipWith (· + ·) d
  let b := (s.b.zipWith (· ^^^ ·) c).rotateBits 12
  let a := a.zipWith (· + ·) b
  let d := (d.zipWith (· ^^^ ·) a).rotateBits 8
  let c := c.zipWith (· + ·) d
  let b := (b.zipWith (· ^^^ ·) c).rotateBits 7
  ⟨a, b, c, d⟩

/-- Brings the diagonals into the columns. -/
def toDiagonals (s : Square) : Square :=
  ⟨s.a, s.b.shiftLanes, s.c.shiftLanes.shiftLanes, s.d.shiftLanes.shiftLanes.shiftLanes⟩

/-- Brings the columns back onto the diagonals. -/
def ofDiagonals (s : Square) : Square :=
  ⟨s.a, s.b.shiftLanes.shiftLanes.shiftLanes, s.c.shiftLanes.shiftLanes, s.d.shiftLanes⟩

/-- A round on the columns and a round on the diagonals. -/
def doubleRound (s : Square) : Square := s.mix.toDiagonals.mix.ofDiagonals

/-- Word by word addition. -/
def add (s t : Square) : Square :=
  ⟨s.a.zipWith (· + ·) t.a, s.b.zipWith (· + ·) t.b, s.c.zipWith (· + ·) t.c,
    s.d.zipWith (· + ·) t.d⟩

/-- The words row by row. -/
def toList (s : Square) : List UInt32 := s.a.toList ++ s.b.toList ++ s.c.toList ++ s.d.toList

/-- Twelve rounds, then the start added again. -/
def scramble (s : Square) : Square :=
  s.doubleRound.doubleRound.doubleRound.doubleRound.doubleRound.doubleRound.add s

end Square

/-- Eight words of key. -/
structure Key where
  low : Row
  high : Row
deriving Repr, DecidableEq

namespace Key

/-- One step of the generator that spreads a seed over a key. -/
def advance (state : UInt64) : UInt64 := state * 6364136223846793005 + 11634580027462260723

/-- The word that a state of that generator yields: mixed, cut to 32 bits and rotated to the right
by the five highest bits of the state. -/
def output (state : UInt64) : UInt32 :=
  let x := (((state >>> 18) ^^^ state) >>> 27).toUInt32
  let r := (state >>> 59).toUInt32
  (x >>> r) ||| (x <<< ((32 - r) % 32))

/-- The key that belongs to a 64-bit seed. -/
def ofSeed (seed : UInt64) : Key :=
  let s1 := advance seed
  let s2 := advance s1
  let s3 := advance s2
  let s4 := advance s3
  let s5 := advance s4
  let s6 := advance s5
  let s7 := advance s6
  let s8 := advance s7
  ⟨⟨output s1, output s2, output s3, output s4⟩, ⟨output s5, output s6, output s7, output s8⟩⟩

end Key

/-- The words of the blocks from `counter` on, after the words still `pending`. -/
structure Keystream where
  key : Key
  counter : UInt64
  pending : List UInt32
deriving Repr, DecidableEq

namespace Keystream

/-- The words of the constant text that starts every block. -/
def constants : Row := ⟨0x61707865, 0x3320646e, 0x79622d32, 0x6b206574⟩

/-- The stream of a seed, from its beginning. -/
def ofSeed (seed : UInt64) : Keystream := ⟨Key.ofSeed seed, 0, []⟩

/-- The words of one block. -/
def block (key : Key) (counter : UInt64) : Square :=
  Square.scramble
    ⟨constants, key.low, key.high, ⟨counter.toUInt32, (counter >>> 32).toUInt32, 0, 0⟩⟩

/-- The next word and the stream after it. -/
def next (s : Keystream) : UInt32 × Keystream :=
  match s.pending with
  | w :: rest => (w, { s with pending := rest })
  | [] =>
    let b := block s.key s.counter
    (b.a.w0, { s with counter := s.counter + 1, pending := b.toList.drop 1 })

end Keystream
end RightLinear.Random
