/-! Floating-point numbers, carried as their 64 bits.

A snapshot must bring a number back exactly as it was, so a number is its bit
pattern and `=` compares patterns. Models compare numbers in another way
(`agrees`): a NaN agrees with nothing, not even itself, and the two zeros agree.

A finite number is `± significand · 2 ^ scale`; rounding to the nearest number
(`Binary64/Nearest.lean`) and printing the shortest digits
(`Binary64/Shortest.lean`) are stated on that pair alone. -/

namespace Rewind

structure Binary64 where
  bits : UInt64
deriving DecidableEq, Inhabited

namespace Binary64

/-- The sign bit. -/
def negative (x : Binary64) : Bool := x.bits.toNat / 0x8000000000000000 == 1

/-- The pattern without its sign. -/
def magnitude (x : Binary64) : Nat := x.bits.toNat % 0x8000000000000000

/-- The eleven exponent bits. -/
def exponent (x : Binary64) : Nat := x.magnitude / 0x10000000000000

/-- The fifty-two fraction bits. -/
def fraction (x : Binary64) : Nat := x.magnitude % 0x10000000000000

def isFinite (x : Binary64) : Bool := x.exponent != 2047

def isNaN (x : Binary64) : Bool := x.exponent == 2047 && x.fraction != 0

def isZero (x : Binary64) : Bool := x.magnitude == 0

/-- The fraction with its leading bit, which subnormal numbers lack. -/
def significand (x : Binary64) : Nat :=
  if x.exponent = 0 then x.fraction else x.fraction + 0x10000000000000

/-- The power of two that the significand counts. -/
def scale (x : Binary64) : Int := max x.exponent 1 - 1075

/-- Comparison between model values: numerical, so a NaN agrees with nothing and
the two zeros agree. -/
def agrees (x y : Binary64) : Bool :=
  !x.isNaN && !y.isNaN && (x.bits == y.bits || (x.isZero && y.isZero))

/-- A sign and a pattern below `2 ^ 63` put together. -/
def ofSign (negative : Bool) (magnitude : Nat) : Binary64 :=
  ⟨UInt64.ofNat (if negative then magnitude + 0x8000000000000000 else magnitude)⟩

/-- The pattern of infinity, the least that is not finite. -/
def infinityBits : Nat := 2047 * 0x10000000000000

/-- What a message shows for a number that has no decimal form. -/
def nonFiniteText (x : Binary64) : String :=
  if x.isNaN then "NaN" else if x.negative then "-inf" else "inf"

end Binary64
end Rewind
