import Rewind.Zlib.Code

/-! Reading zlib streams.

A stream is a header, blocks of bits, and the checksum of what they say. A block is
stored bytes, or literals and copies in prefix codes which are either fixed or come
with the block. A copy repeats what stands a distance back; before the first byte
everything counts as zero. What follows the checksum is not looked at. -/

namespace Rewind.Zlib

/-- Bits still to be read: those left of the byte begun, lowest first, and the bytes
behind it. -/
structure BitSource where
  bits : List Bool
  bytes : Bytes

namespace BitSource

def ofBytes (bs : Bytes) : BitSource := ⟨[], bs⟩

/-- The bits of a byte, lowest first. -/
def bitsOf (b : UInt8) : List Bool := (List.range 8).map fun i => b.toNat.testBit i

def next? (s : BitSource) : Option (Bool × BitSource) :=
  match s.bits with
  | b :: bs => some (b, { s with bits := bs })
  | [] =>
    match s.bytes with
    | byte :: rest => some (byte.toNat.testBit 0, ⟨(bitsOf byte).tail, rest⟩)
    | [] => none

/-- A number of `n` bits, lowest first; the next bit counts `weight`. -/
def numberFrom? (value weight : Nat) : Nat → BitSource → Option (Nat × BitSource)
  | 0, s => some (value, s)
  | n + 1, s =>
    match s.next? with
    | some (b, s) => numberFrom? (if b then value + weight else value) (2 * weight) n s
    | none => none

def number? (n : Nat) (s : BitSource) : Option (Nat × BitSource) := numberFrom? 0 1 n s

/-- Goes on at the next whole byte. -/
def align (s : BitSource) : BitSource := { s with bits := [] }

/-- An upper bound of the bits left. -/
def size (s : BitSource) : Nat := s.bits.length + 8 * s.bytes.length

end BitSource

namespace PrefixCode

/-- Walks down the code, one bit for one length. `first` is the first word of that
length and `index` the place of its symbol. -/
def symbolFrom? (symbols : Array Nat) (word first index : Nat) :
    List Nat → BitSource → Option (Nat × BitSource)
  | [], _ => none
  | c :: cs, s =>
    match s.next? with
    | none => none
    | some (b, s) =>
      let word := if b then word + 1 else word
      if word < first + c then (symbols[index + (word - first)]?).map fun n => (n, s)
      else symbolFrom? symbols (2 * word) (2 * (first + c)) (index + c) cs s

def symbol? (c : PrefixCode) (s : BitSource) : Option (Nat × BitSource) :=
  symbolFrom? c.symbols 0 0 0 c.counts s

end PrefixCode

/-! ### Blocks -/

/-- Repeats `n` bytes from `distance` back. -/
def repeatBack (distance : Nat) (out : Array UInt8) : Nat → Array UInt8
  | 0 => out
  | n + 1 =>
    let b := if distance ≤ out.size then out.getD (out.size - distance) 0 else 0
    repeatBack distance (out.push b) n

/-- Literals and copies up to the end of the block. Every symbol takes a bit, so the
size of the source is enough fuel. -/
def inflateSymbols (literals distances : PrefixCode) :
    Nat → BitSource → Array UInt8 → Option (BitSource × Array UInt8)
  | 0, _, _ => none
  | fuel + 1, s, out =>
    match literals.symbol? s with
    | none => none
    | some (symbol, s) =>
      if symbol < endOfBlock then inflateSymbols literals distances fuel s (out.push symbol.toUInt8)
      else if symbol = endOfBlock then some (s, out)
      else
        let copy : Option (Nat × Nat × BitSource) := do
          let (least, extra) ← copyLengths[symbol - 257]?
          let (more, s) ← s.number? extra
          let (symbol, s) ← distances.symbol? s
          let (nearest, extra) ← copyDistances[symbol]?
          let (further, s) ← s.number? extra
          some (least + more, nearest + further, s)
        match copy with
        | none => none
        | some (length, distance, s) =>
          inflateSymbols literals distances fuel s (repeatBack distance out length)

/-- So many bytes straight from the source. -/
def takeStored : Nat → Bytes → Array UInt8 → Option (Bytes × Array UInt8)
  | 0, bs, out => some (bs, out)
  | n + 1, b :: bs, out => takeStored n bs (out.push b)
  | _ + 1, [], _ => none

/-- A stored block: its length twice, the second time complemented, and the bytes. -/
def inflateStored (s : BitSource) (out : Array UInt8) : Option (BitSource × Array UInt8) := do
  let (length, s) ← s.align.number? 16
  let (complement, s) ← s.number? 16
  if length + complement = 65535 then
    let (bytes, out) ← takeStored length s.bytes out
    some (⟨[], bytes⟩, out)
  else none

/-- The order in which the word lengths of the code for word lengths come. -/
def lengthOrder : List Nat := [16, 17, 18, 0, 8, 7, 9, 6, 10, 5, 11, 4, 12, 3, 13, 2, 14, 1, 15]

def readNumbers? (width : Nat) : Nat → BitSource → Option (List Nat × BitSource)
  | 0, s => some ([], s)
  | n + 1, s => do
    let (value, s) ← s.number? width
    let (rest, s) ← readNumbers? width n s
    some (value :: rest, s)

/-- Word lengths of a block's codes, backwards, until there are `wanted`. -/
def readLengths? (code : PrefixCode) (wanted : Nat) :
    Nat → BitSource → List Nat → Option (List Nat × BitSource)
  | 0, _, _ => none
  | fuel + 1, s, known =>
    if wanted ≤ known.length then (if known.length = wanted then some (known.reverse, s) else none)
    else
      match code.symbol? s with
      | none => none
      | some (symbol, s) =>
        if symbol < 16 then readLengths? code wanted fuel s (symbol :: known)
        else
          let run : Option (Nat × Nat × BitSource) := do
            let (value, least, width) ← match symbol with
              | 16 => known.head?.map fun last => (last, 3, 2)
              | 17 => some (0, 3, 3)
              | _ => some (0, 11, 7)
            let (more, s) ← s.number? width
            some (value, least + more, s)
          match run with
          | none => none
          | some (value, times, s) =>
            readLengths? code wanted fuel s (List.replicate times value ++ known)

/-- A code that may be used: complete, or without words, or with a single word of one
bit. -/
def usable (lengths : List Nat) : Option PrefixCode :=
  let code := PrefixCode.ofLengths lengths
  let isBare := code.symbols.isEmpty || (code.symbols.size == 1 && code.counts.head? == some 1)
  if code.isComplete || isBare then some code else none

/-- The literal and distance codes that a block brings. -/
def readCodes? (s : BitSource) : Option (PrefixCode × PrefixCode × BitSource) := do
  let (literalCount, s) ← s.number? 5
  let (distanceCount, s) ← s.number? 5
  let (lengthCount, s) ← s.number? 4
  let literalCount := literalCount + 257
  let distanceCount := distanceCount + 1
  if 286 < literalCount ∨ 30 < distanceCount then none
  else
    let (sizes, s) ← readNumbers? 3 (lengthCount + 4) s
    let placed := lengthOrder.zip sizes
    let lengths := (List.range 19).map fun i => ((placed.find? (·.1 == i)).map Prod.snd).getD 0
    let code := PrefixCode.ofLengths lengths
    if code.isComplete then
      let wanted := literalCount + distanceCount
      let (all, s) ← readLengths? code wanted (wanted + 1) s []
      let literals ← usable (all.take literalCount)
      let distances ← usable (all.drop literalCount)
      some (literals, distances, s)
    else none

/-- Block after block up to the one marked last; every block takes three bits. -/
def inflateBlocks : Nat → BitSource → Array UInt8 → Option (BitSource × Array UInt8)
  | 0, _, _ => none
  | fuel + 1, s, out =>
    let block : Option (Nat × BitSource × Array UInt8) := do
      let (last, s) ← s.number? 1
      let (kind, s) ← s.number? 2
      let (s, out) ← match kind with
        | 0 => inflateStored s out
        | 1 =>
          inflateSymbols (.ofLengths fixedLiteralLengths) (.ofLengths fixedDistanceLengths)
            (s.size + 1) s out
        | 2 => do
          let (literals, distances, s) ← readCodes? s
          inflateSymbols literals distances (s.size + 1) s out
        | _ => none
      some (last, s, out)
    match block with
    | none => none
    | some (last, s, out) => if last = 1 then some (s, out) else inflateBlocks fuel s out

/-! ### Streams -/

/-- The first two bytes: deflate with a window of at most 32 KiB, no preset
dictionary, and divisible by 31 when read as one number. -/
def headerOk (method flags : UInt8) : Bool :=
  method.toNat % 16 == 8 && method.toNat / 16 ≤ 7 && (method.toNat * 256 + flags.toNat) % 31 == 0 &&
    !flags.toNat.testBit 5

/-- The bytes that a stream holds, unless it is broken. -/
def unzip? : Bytes → Option Bytes
  | method :: flags :: rest =>
    if headerOk method flags then do
      let s := BitSource.ofBytes rest
      let (s, out) ← inflateBlocks (s.size + 1) s #[]
      let bytes := out.toList
      if s.align.bytes.take 4 = bigEndian4 (adler bytes) then some bytes else none
    else none
  | _ => none

end Rewind.Zlib
