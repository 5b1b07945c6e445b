/-! Text as bytes.

Payloads are lists of bytes. The formats that are text are ASCII in their grammar,
so they are read and written byte by byte, and only the strings inside them have to
be decoded. -/

namespace Rewind

abbrev Bytes := List UInt8

/-- The UTF-8 bytes of a string. -/
def utf8 (s : String) : Bytes := s.toUTF8.toList

/-- The string that some bytes are the UTF-8 of. -/
def ofUtf8? (bs : Bytes) : Option String := String.fromUTF8? ⟨bs.toArray⟩

/-- The byte of an ASCII character. -/
def ascii (c : Char) : UInt8 := c.toNat.toUInt8

def isDigitByte (b : UInt8) : Bool := ascii '0' ≤ b && b ≤ ascii '9'

/-- The value of a decimal digit. -/
def digitOf (b : UInt8) : Nat := b.toNat - 48

/-- The decimal digit of a value below ten. -/
def digitByte (d : Nat) : UInt8 := (48 + d).toUInt8

/-- The value of a hexadecimal digit of either case. -/
def hexDigit? (b : UInt8) : Option Nat :=
  if isDigitByte b then some (digitOf b)
  else if ascii 'a' ≤ b && b ≤ ascii 'f' then some (b.toNat - 87)
  else if ascii 'A' ≤ b && b ≤ ascii 'F' then some (b.toNat - 55)
  else none

/-- The lower-case hexadecimal digit of a value below sixteen. -/
def hexByte (d : Nat) : UInt8 := if d < 10 then digitByte d else (87 + d).toUInt8

/-! ### Decimal digits -/

/-- The digits of a number in front of those already known. -/
def digitsOnto (known : List Nat) : Nat → Nat → List Nat
  | 0, _ => known
  | fuel + 1, n =>
    if n < 10 then n :: known else digitsOnto (n % 10 :: known) fuel (n / 10)

/-- The decimal digits of a number, the leading one first. -/
def decimalDigits (n : Nat) : List Nat := digitsOnto [] (n + 1) n

/-- The number with the given decimal digits. -/
def ofDecimalDigits (ds : List Nat) : Nat := ds.foldl (fun n d => 10 * n + d) 0

end Rewind
