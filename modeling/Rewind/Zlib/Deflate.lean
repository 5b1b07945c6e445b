import Rewind.Zlib.Huffman
import Rewind.Zlib.Inflate
import Rewind.Zlib.Repeats

/-! Writing zlib streams.

Bytes are packed as one block of literals and copies, in codes of its own unless the
data are so short that the fixed ones do. What was packed is trusted only if it is
shorter than the bytes stored as they are and reads back as them; if not, and always
at level zero, the bytes are stored. -/

namespace Rewind.Zlib

/-! ### Bits -/

/-- A number in `n` bits, lowest first. -/
def lowFirst (value n : Nat) : List Bool := (List.range n).map value.testBit

/-- A word of a code goes out highest bit first. -/
def wordBits (w : Nat × Nat) : List Bool := (lowFirst w.1 w.2).reverse

/-- The words of a code by symbol. -/
def wordTable (lengths : List Nat) : Array (List Bool) :=
  let code := PrefixCode.ofLengths lengths
  ((List.range lengths.length).map fun i => ((code.word? i).map wordBits).getD []).toArray

def byteOf (bits : List Bool) : UInt8 :=
  (bits.foldr (fun b n => 2 * n + (if b then 1 else 0)) 0 : Nat).toUInt8

/-- Bits put into bytes, lowest first, the last byte filled up with zeros; backwards
onto `done`. -/
def packOnto (done : Bytes) : List Bool → Bytes
  | [] => done
  | a :: b :: c :: d :: e :: f :: g :: h :: bits =>
    packOnto (byteOf [a, b, c, d, e, f, g, h] :: done) bits
  | bits => byteOf bits :: done

def pack (bits : List Bool) : Bytes := (packOnto [] bits).reverse

/-! ### Elements -/

/-- The symbol of an alphabet in whose range a value lies, and the bits for the rest. -/
def inAlphabet (alphabet : List (Nat × Nat)) (value : Nat) : Nat × List Bool :=
  let index := (alphabet.takeWhile (·.1 ≤ value)).length - 1
  let (least, extra) := alphabet.getD index (0, 0)
  (index, lowFirst (value - least) extra)

/-- The symbol of an element in the literal code, and that of a distance. -/
def Element.symbols : Element → Nat × Option Nat
  | .literal b => (b.toNat, none)
  | .copy length distance =>
    (257 + (inAlphabet copyLengths length).1, some (inAlphabet copyDistances distance).1)

def Element.bits (literals distances : Array (List Bool)) : Element → List Bool
  | .literal b => literals.getD b.toNat []
  | .copy length distance =>
    let (l, more) := inAlphabet copyLengths length
    let (d, further) := inAlphabet copyDistances distance
    literals.getD (257 + l) [] ++ more ++ distances.getD d [] ++ further

/-- Elements and the end of the block. -/
def elementsBits (literals distances : List Nat) (es : List Element) : List Bool :=
  let literals := wordTable literals
  let distances := wordTable distances
  es.flatMap (Element.bits literals distances) ++ literals.getD endOfBlock []

/-- The last block, in the fixed codes. -/
def fixedBlock (es : List Element) : List Bool :=
  [true, true, false] ++ elementsBits fixedLiteralLengths fixedDistanceLengths es

/-! ### Codes of its own -/

/-- How often each of so many symbols occurs. -/
def occurrences (count : Nat) (symbols : List Nat) : List Nat :=
  (symbols.foldl (fun (table : Array Nat) s => table.modify s (· + 1))
    (Array.replicate count 0)).toList

/-- Lengths without the zeros at the end, but at least so many. -/
def trim (least : Nat) (lengths : List Nat) : List Nat :=
  let used := (lengths.reverse.dropWhile (· == 0)).length
  lengths.take (max least used)

/-- How a run of one length is written: a symbol, and a number in so many bits. -/
abbrev Run := Nat × Nat × Nat

/-- So many times the same length: in one symbol if there is one for that many, or
else one by one. -/
def runsOf (value : Nat) : Nat → Nat → List Run
  | 0, _ => []
  | fuel + 1, n =>
    if n = 0 then []
    else if value = 0 ∧ 11 ≤ n then
      let here := min n 138
      (18, here - 11, 7) :: runsOf value fuel (n - here)
    else if value = 0 ∧ 3 ≤ n then [(17, n - 3, 3)]
    else (value, 0, 0) :: runsOf value fuel (n - 1)

/-- Further repetitions of a length that is not zero. -/
def againsOf (value : Nat) : Nat → Nat → List Run
  | 0, _ => []
  | fuel + 1, n =>
    if 3 ≤ n then
      let here := min n 6
      (16, here - 3, 2) :: againsOf value fuel (n - here)
    else List.replicate n (value, 0, 0)

def lengthRuns (lengths : List Nat) : List Run :=
  (lengths.splitBy (· == ·)).flatMap fun group =>
    match group with
    | [] => []
    | value :: rest =>
      if value = 0 then runsOf 0 group.length group.length
      else (value, 0, 0) :: againsOf value rest.length rest.length

/-- The codes of a block in front of it: how many lengths there are, the code in which
they are written, and the lengths. -/
def codesBits (literals distances : List Nat) : List Bool :=
  let runs := lengthRuns (literals ++ distances)
  let sizes := Huffman.lengths 7 (occurrences 19 (runs.map Prod.fst))
  let placed := trim 4 (lengthOrder.map fun i => sizes.getD i 0)
  let words := wordTable sizes
  lowFirst (literals.length - 257) 5 ++ lowFirst (distances.length - 1) 5 ++
    lowFirst (placed.length - 4) 4 ++ placed.flatMap (lowFirst · 3) ++
    runs.flatMap fun (symbol, more, width) => words.getD symbol [] ++ lowFirst more width

/-- The last block, in codes made for it. -/
def ownBlock (es : List Element) : List Bool :=
  let symbols := es.map Element.symbols
  let literals :=
    trim 257 (Huffman.lengths PrefixCode.longest
      (occurrences 286 (endOfBlock :: symbols.map Prod.fst)))
  let distances :=
    trim 1 (Huffman.lengths PrefixCode.longest (occurrences 30 (symbols.filterMap Prod.snd)))
  [true, false, true] ++ codesBits literals distances ++ elementsBits literals distances es

/-! ### Streams -/

/-- Fewer bytes than that are not worth a code of their own. -/
def ownCodeFrom : Nat := 48

/-- The bytes as one packed block. -/
def packed (level : Nat) (bs : Bytes) : Bytes :=
  let es := elements level bs.toArray
  pack (if bs.length < ownCodeFrom then fixedBlock es else ownBlock es)

/-- Stored blocks of at most 65535 bytes each, the last one marked. -/
def storedBlocks : Nat → Bytes → Bytes
  | 0, _ => []
  | fuel + 1, bs =>
    let here := bs.take 65535
    let rest := bs.drop 65535
    let n := here.length
    let mark : UInt8 := if rest.isEmpty then 1 else 0
    mark :: n.toUInt8 :: (n / 256).toUInt8 :: (65535 - n).toUInt8 :: ((65535 - n) / 256).toUInt8 ::
      here ++ (if rest.isEmpty then [] else storedBlocks fuel rest)

/-- The second header byte says roughly how hard the writer tried. -/
def flagsOf (level : Nat) : UInt8 :=
  if level < 2 then 0x01 else if level < 6 then 0x5E else if level = 6 then 0x9C else 0xDA

/-- Blocks that hold the bytes, with a header and their checksum. -/
def stream (level : Nat) (blocks bs : Bytes) : Bytes :=
  0x78 :: flagsOf level :: blocks ++ bigEndian4 (adler bs)

/-- A stream that holds the bytes. Levels above nine count as nine. -/
def zip (level : Nat) (bs : Bytes) : Bytes :=
  let level := min level 9
  let stored := stream level (storedBlocks (bs.length + 1) bs) bs
  if level = 0 then stored
  else
    let small := stream level (packed level bs) bs
    if small.length < stored.length ∧ unzip? small = some bs then small else stored

end Rewind.Zlib
