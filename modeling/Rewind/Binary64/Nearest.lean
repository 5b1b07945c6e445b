import Rewind.Binary64

/-! The number nearest to a ratio or to a decimal.

Patterns of positive finite numbers count upward with the value, one by one, so
rounding is: pick the scale, divide, round the quotient to the nearest integer
with ties to even, and add the quotient to the pattern where that scale starts.
A quotient that rounds up to the next power of two lands on the next pattern by
itself, and so does a value that overflows: its pattern is infinity's or above. -/

namespace Rewind.Binary64

/-- The integer nearest to `num / den`, ties to even. -/
def nearestQuotient (num den : Nat) : Nat :=
  let q := num / den
  let twice := 2 * (num % den)
  if twice < den then q
  else if den < twice then q + 1
  else q + q % 2

/-- `2 ^ e` as a pair of factors of a numerator and a denominator. -/
def powerOfTwo (e : Int) : Nat × Nat := (Nat.pow 2 e.toNat, Nat.pow 2 (-e).toNat)

/-- The scale of the number nearest to a positive ratio: at least the least one,
and such that the quotient has at most fifty-three bits. -/
def nearestScale (num den : Nat) : Int :=
  let low : Int := max ((num.log2 : Int) - den.log2 - 53) (-1074)
  let (up, down) := powerOfTwo (-low)
  if num * up < den * down * 0x20000000000000 then low else low + 1

/-- The pattern nearest to a positive ratio, infinity's or more on overflow. -/
def nearestMagnitude (num den : Nat) : Nat :=
  let s := nearestScale num den
  let (up, down) := powerOfTwo (-s)
  (s + 1074).toNat * 0x10000000000000 + nearestQuotient (num * up) (den * down)

/-- The number nearest to `± num / den`, or `none` where that overflows. -/
def ofRatio? (negative : Bool) (num den : Nat) : Option Binary64 :=
  if num = 0 then some (ofSign negative 0)
  else
    let m := nearestMagnitude num den
    if m < infinityBits then some (ofSign negative m) else none

/-- The number nearest to `± coefficient · 10 ^ exponent`, or `none` on overflow.

The exponent of the leading digit decides the hopeless cases, so that no huge
power is built for them: every number lies between `10 ^ -324` and `10 ^ 309`. -/
def ofDecimal? (negative : Bool) (digits : List Nat) (exponent : Int) : Option Binary64 :=
  let significant := digits.dropWhile (· == 0)
  let coefficient := significant.foldl (fun n d => 10 * n + d) 0
  let leading := exponent + significant.length
  if coefficient = 0 then some (ofSign negative 0)
  else if 310 < leading then none
  else if leading < -330 then some (ofSign negative 0)
  else if 0 ≤ exponent then ofRatio? negative (coefficient * Nat.pow 10 exponent.toNat) 1
  else ofRatio? negative coefficient (Nat.pow 10 (-exponent).toNat)

/-- The number nearest to an integer. -/
def ofNat (n : Nat) : Binary64 := (ofRatio? false n 1).getD (ofSign false infinityBits)

end Rewind.Binary64
