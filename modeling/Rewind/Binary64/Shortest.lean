import Rewind.Binary64.Nearest

/-! The shortest decimal that reads back as a given number.

The reals that round to a number form an interval around it, whose ends belong to
it when the significand is even. A decimal with `n` digits is a point of a grid;
if the interval holds a point of the grid, it holds one of the two around the
number. So the grids are tried from one digit to seventeen, the first with a point
inside wins, and of two points inside the nearer one is taken (the even one when
they are equally near). -/

namespace Rewind.Binary64

/-- A positive number and the ends of its rounding interval, all counted in
quarters of its last place. -/
structure Interval where
  value : Nat
  low : Nat
  high : Nat
  closed : Bool
  /-- The power of two that is the unit of the three fields above. -/
  unit : Int

/-- Below a power of two the neighbours stand twice as close. -/
def interval (x : Binary64) : Interval :=
  let m := x.significand
  { value := 4 * m
    low := if m = 0x10000000000000 ∧ 1 < x.exponent then 4 * m - 1 else 4 * m - 2
    high := 4 * m + 2
    closed := m % 2 == 0
    unit := x.scale - 2 }

/-- A decimal: `coefficient · 10 ^ exponent`. -/
structure Decimal where
  coefficient : Nat
  exponent : Int
deriving DecidableEq, Inhabited

/-- The interval and a power of ten over one denominator: `(value, low, high, step)`
as integers, where `step` stands for `10 ^ exponent`. -/
def Interval.scaled (i : Interval) (exponent : Int) : Nat × Nat × Nat × Nat :=
  let (up, down) := powerOfTwo i.unit
  let tenUp := Nat.pow 10 exponent.toNat
  let tenDown := Nat.pow 10 (-exponent).toNat
  let f := up * tenDown
  (i.value * f, i.low * f, i.high * f, tenUp * down)

/-- The point of the grid of multiples of `10 ^ exponent` that lies inside the
interval and nearest to the number. -/
def Interval.gridPoint? (i : Interval) (exponent : Int) : Option Decimal :=
  let (value, low, high, step) := i.scaled exponent
  let below := value / step
  let inside (c : Nat) : Bool :=
    if i.closed then decide (low ≤ c * step ∧ c * step ≤ high)
    else decide (low < c * step ∧ c * step < high)
  let nearest := nearestQuotient value step
  let other := if nearest = below then below + 1 else below
  if inside nearest then some ⟨nearest, exponent⟩
  else if inside other then some ⟨other, exponent⟩
  else none

/-- The exponent of the leading decimal digit of `num / den`, by descent from an
upper bound that is one too high at most twice. -/
def leadingExponent (num den : Nat) : Int :=
  let guess : Int := ((num.log2 : Int) + 1 - den.log2) * 30103 / 100000 + 1
  let reaches (e : Int) : Bool := decide (den * Nat.pow 10 e.toNat ≤ num * Nat.pow 10 (-e).toNat)
  if reaches guess then guess
  else if reaches (guess - 1) then guess - 1
  else if reaches (guess - 2) then guess - 2
  else guess - 3

/-- Tries the grids from the widest to the narrowest. -/
def firstHit (i : Interval) (leading : Int) (tried : Nat) : Nat → Decimal
  | 0 => ⟨0, 0⟩
  | left + 1 =>
    match i.gridPoint? (leading - tried) with
    | some d => d
    | none => firstHit i leading (tried + 1) left

/-- The shortest decimal of a positive finite number; its coefficient may end in a
zero when rounding carried into a new leading digit. -/
def shortest (x : Binary64) : Decimal :=
  let (up, down) := powerOfTwo x.scale
  firstHit x.interval (leadingExponent (x.significand * up) down) 0 18

end Rewind.Binary64
