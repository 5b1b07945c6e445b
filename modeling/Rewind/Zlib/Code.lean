import Rewind.Text.Bytes

/-! What the two directions of deflate share: prefix codes, the alphabets of lengths
and distances, and the checksum.

A prefix code is given by the length of each symbol's word alone: words of one
length are consecutive numbers in the order of the symbols, and shorter words come
first. -/

namespace Rewind.Zlib

/-! ### Prefix codes -/

/-- A prefix code: how many words there are of each length from one up, and the
symbols in the order of their words. -/
structure PrefixCode where
  counts : List Nat
  symbols : Array Nat

namespace PrefixCode

def longest : Nat := 15

/-- The code in which symbol `i` has a word of `lengths[i]` bits, or none if that is
zero. -/
def ofLengths (lengths : List Nat) : PrefixCode :=
  let numbered := lengths.zipIdx
  let ofLength (n : Nat) : List Nat := (numbered.filter (·.1 == n)).map Prod.snd
  let sizes := (List.range longest).map (· + 1)
  { counts := sizes.map fun n => (ofLength n).length
    symbols := (sizes.flatMap ofLength).toArray }

/-- The share of all words that the code uses, in units of the longest word. -/
def usedFrom : Nat → List Nat → Nat
  | _, [] => 0
  | n, c :: cs => c * Nat.pow 2 (longest - n) + usedFrom (n + 1) cs

/-- Every sequence of bits starts with exactly one word. -/
def isComplete (c : PrefixCode) : Bool := usedFrom 1 c.counts == Nat.pow 2 longest

/-- The words of all symbols, in the order of `symbols`: value and length. -/
def wordsFrom (next n : Nat) : List Nat → List (Nat × Nat)
  | [] => []
  | c :: cs => (List.range c).map (fun i => (next + i, n)) ++ wordsFrom (2 * (next + c)) (n + 1) cs

/-- The word of a symbol. -/
def word? (c : PrefixCode) (symbol : Nat) : Option (Nat × Nat) :=
  ((c.symbols.toList.zip (wordsFrom 0 1 c.counts)).find? (·.1 == symbol)).map Prod.snd

end PrefixCode

/-- The literal and length code of blocks that bring no code of their own. -/
def fixedLiteralLengths : List Nat :=
  List.replicate 144 8 ++ List.replicate 112 9 ++ List.replicate 24 7 ++ List.replicate 8 8

/-- The distance code of such blocks. -/
def fixedDistanceLengths : List Nat := List.replicate 32 5

/-! ### Alphabets -/

/-- Copy lengths: for each symbol from 257 up the least length and how many more bits
say the rest. -/
def copyLengths : List (Nat × Nat) :=
  [(3, 0), (4, 0), (5, 0), (6, 0), (7, 0), (8, 0), (9, 0), (10, 0), (11, 1), (13, 1), (15, 1),
    (17, 1), (19, 2), (23, 2), (27, 2), (31, 2), (35, 3), (43, 3), (51, 3), (59, 3), (67, 4),
    (83, 4), (99, 4), (115, 4), (131, 5), (163, 5), (195, 5), (227, 5), (258, 0)]

/-- Distances, likewise from symbol 0 up. -/
def copyDistances : List (Nat × Nat) :=
  [(1, 0), (2, 0), (3, 0), (4, 0), (5, 1), (7, 1), (9, 2), (13, 2), (17, 3), (25, 3), (33, 4),
    (49, 4), (65, 5), (97, 5), (129, 6), (193, 6), (257, 7), (385, 7), (513, 8), (769, 8),
    (1025, 9), (1537, 9), (2049, 10), (3073, 10), (4097, 11), (6145, 11), (8193, 12),
    (12289, 12), (16385, 13), (24577, 13)]

/-- The symbol that ends a block. -/
def endOfBlock : Nat := 256

/-! ### Checksum -/

/-- Two running sums modulo the largest prime below `2 ^ 16`. -/
def adlerFrom : Nat → Nat → Bytes → Nat
  | a, b, [] => b * 65536 + a
  | a, b, x :: xs =>
    let a := (a + x.toNat) % 65521
    adlerFrom a ((b + a) % 65521) xs

def adler (bs : Bytes) : Nat := adlerFrom 1 0 bs

/-- Four bytes, the highest first. -/
def bigEndian4 (n : Nat) : Bytes :=
  [(n / 16777216).toUInt8, (n / 65536).toUInt8, (n / 256).toUInt8, n.toUInt8]

end Rewind.Zlib
