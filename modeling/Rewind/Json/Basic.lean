import Rewind.Text.Bytes
import Rewind.Binary64.Shortest

/-! JSON, before anything is read out of it.

A tree keeps numbers and strings as they were written. What a number is worth
depends on who asks: a field for integers takes an integer literal and nothing
else, a field for floats takes any literal and rounds it. And a string that nobody
asks for may hold escapes that no string could decode. -/

namespace Rewind.Json

/-! ### Numbers as written -/

inductive ExponentSign where
  | unsigned
  | plus
  | minus
deriving DecidableEq, Inhabited

/-- A number literal in decimal digits. -/
structure Numeral where
  negative : Bool
  whole : List Nat
  /-- Empty when there is no point. -/
  fraction : List Nat
  exponent : Option (ExponentSign × List Nat)
deriving DecidableEq, Inhabited

namespace Numeral

/-- The literal of an integer. -/
def ofInt (i : Int) : Numeral :=
  { negative := decide (i < 0), whole := decimalDigits i.natAbs, fraction := [], exponent := none }

/-- The literal of a natural number. -/
def ofNat (n : Nat) : Numeral := ofInt n

/-- The integer an integer literal stands for. A minus in front of zero makes a
literal a float. -/
def toInt? (n : Numeral) : Option Int :=
  let magnitude := ofDecimalDigits n.whole
  if n.fraction ≠ [] ∨ n.exponent ≠ none then none
  else if n.negative then (if magnitude = 0 then none else some (-magnitude))
  else some magnitude

def exponentValue (n : Numeral) : Int :=
  match n.exponent with
  | none => 0
  | some (.minus, ds) => -ofDecimalDigits ds
  | some (_, ds) => ofDecimalDigits ds

/-- The nearest float, unless it overflows. -/
def toFloat? (n : Numeral) : Option Binary64 :=
  Binary64.ofDecimal? n.negative (n.whole ++ n.fraction) (n.exponentValue - n.fraction.length)

/-- The digits of a decimal without zeros at the end, and how many digits stand
before the point. -/
def significantDigits (d : Binary64.Decimal) : List Nat × Int :=
  let ds := decimalDigits d.coefficient
  ((ds.reverse.dropWhile (· == 0)).reverse, ds.length + d.exponent)

/-- The literal of a positive decimal: positional with at least one digit after the
point from `1e-5` up to below `1e16`, scientific with a signed exponent outside. -/
def ofDigits (negative : Bool) (ds : List Nat) (point : Int) : Numeral :=
  let exponent : ExponentSign × List Nat :=
    if point - 1 < 0 then (.minus, decimalDigits (1 - point).toNat)
    else (.plus, decimalDigits (point - 1).toNat)
  if 0 < point ∧ point ≤ 16 then
    let whole := ds.take point.toNat
    let rest := ds.drop point.toNat
    { negative
      whole := whole ++ List.replicate (point.toNat - whole.length) 0
      fraction := if rest.isEmpty then [0] else rest
      exponent := none }
  else if -5 < point ∧ point ≤ 0 then
    { negative
      whole := [0]
      fraction := List.replicate (-point).toNat 0 ++ ds
      exponent := none }
  else { negative, whole := ds.take 1, fraction := ds.drop 1, exponent := some exponent }

/-- The literal of a finite float: the fewest digits that read back. -/
def ofFloat (x : Binary64) : Numeral :=
  if x.isZero then { negative := x.negative, whole := [0], fraction := [0], exponent := none }
  else
    let (ds, point) := significantDigits x.shortest
    ofDigits x.negative ds point

end Numeral

/-! ### Strings as written -/

/-- A byte of a string, or a code unit written as `\u` and four digits. -/
inductive Piece where
  | byte (b : UInt8)
  | unit (u : Nat)
deriving DecidableEq, Inhabited

/-- The letter that escapes a byte, for the bytes that have one. -/
def escapeLetter? (b : UInt8) : Option UInt8 :=
  if b = 34 ∨ b = 92 then some b
  else if b = 8 then some (ascii 'b')
  else if b = 9 then some (ascii 't')
  else if b = 10 then some (ascii 'n')
  else if b = 12 then some (ascii 'f')
  else if b = 13 then some (ascii 'r')
  else none

/-- The byte that a letter after a backslash stands for. -/
def escapedByte? (letter : UInt8) : Option UInt8 :=
  if letter = 34 ∨ letter = 92 ∨ letter = ascii '/' then some letter
  else if letter = ascii 'b' then some 8
  else if letter = ascii 't' then some 9
  else if letter = ascii 'n' then some 10
  else if letter = ascii 'f' then some 12
  else if letter = ascii 'r' then some 13
  else none

/-- How a byte of a string is written: control bytes without a letter of their own
as code units. -/
def Piece.ofByte (b : UInt8) : Piece :=
  if b < 32 ∧ escapeLetter? b = none then .unit b.toNat else .byte b

abbrev Text := List Piece

namespace Text

def ofString (s : String) : Text := (utf8 s).map Piece.ofByte

/-- The UTF-8 bytes of a scalar value, in front of which `known` stands backwards. -/
def pushScalar (n : Nat) (known : Bytes) : Bytes :=
  (String.utf8EncodeChar (Char.ofNat n)).reverse ++ known

/-- The bytes a string stands for, backwards. Code units of the surrogate range
count only as pairs. -/
def bytesOnto (known : Bytes) : Text → Option Bytes
  | [] => some known
  | .byte b :: ps => bytesOnto (b :: known) ps
  | .unit u :: ps =>
    if u < 0xD800 ∨ 0xE000 ≤ u then bytesOnto (pushScalar u known) ps
    else if 0xDC00 ≤ u then none
    else
      match ps with
      | .unit v :: rest =>
        if 0xDC00 ≤ v ∧ v < 0xE000 then
          bytesOnto (pushScalar (0x10000 + (u - 0xD800) * 0x400 + (v - 0xDC00)) known) rest
        else none
      | _ => none

/-- The string, if the escapes make sense and the bytes are UTF-8. -/
def toString? (t : Text) : Option String := do ofUtf8? (← bytesOnto [] t).reverse

end Text
end Json

/-! ### Trees -/

inductive Json where
  | null
  | bool (b : Bool)
  | number (n : Json.Numeral)
  | text (t : Json.Text)
  | array (items : List Json)
  | object (fields : List (Json.Text × Json))
deriving Inhabited

namespace Json

def str (s : String) : Json := .text (Text.ofString s)

def int (i : Int) : Json := .number (.ofInt i)

def nat (n : Nat) : Json := .number (.ofNat n)

def float (x : Binary64) : Json := .number (.ofFloat x)

/-- An object with the given fields in the given order. -/
def record (fields : List (String × Json)) : Json :=
  .object (fields.map fun f => (Text.ofString f.1, f.2))

/-- A case of a choice, with what belongs to it. -/
def variant (name : String) (payload : Json) : Json := record [(name, payload)]

mutual

/-- How many arrays and objects are open at once at most. -/
def nesting : Json → Nat
  | .null | .bool _ | .number _ | .text _ => 0
  | .array items => 1 + itemsNesting items
  | .object fields => 1 + fieldsNesting fields
termination_by structural j => j

def itemsNesting : List Json → Nat
  | [] => 0
  | j :: js => max j.nesting (itemsNesting js)
termination_by structural js => js

def fieldsNesting : List (Text × Json) → Nat
  | [] => 0
  | (_, j) :: fs => max j.nesting (fieldsNesting fs)
termination_by structural fs => fs

end

end Json
end Rewind
