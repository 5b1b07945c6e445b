import Rewind.Document.Json
import Rewind.Proofs.Json.Parser

/-! Strings and integers come back from JSON.

A string is written byte by byte, with the control bytes as escapes, and decoded to
the same bytes. An integer is read by the field that asks for its type, whose bounds
it keeps. -/

namespace Rewind.Json

/-! ### Strings -/

theorem Piece.wellformed_ofByte (b : UInt8) : (Piece.ofByte b).Wellformed := by
  have hb : b.toNat < 256 := b.toNat_lt
  unfold Piece.ofByte
  split
  · show b.toNat < 65536
    omega
  · next h =>
    by_cases hlow : b < 32
    · exact .inr fun hl => h ⟨hlow, hl⟩
    · exact .inl (UInt8.not_lt.mp hlow)

theorem utf8EncodeChar_of_lt {b : UInt8} (h : b < 32) :
    String.utf8EncodeChar (Char.ofNat b.toNat) = [b] := by
  have hall : ∀ n < 32, String.utf8EncodeChar (Char.ofNat n) = [UInt8.ofNat n] := by decide
  rw [hall b.toNat (UInt8.lt_iff_toNat_lt.mp h), UInt8.ofNat_toNat]

namespace Text

theorem wellformed_ofString (s : String) : ∀ p ∈ ofString s, p.Wellformed := by
  intro p hp
  obtain ⟨b, -, rfl⟩ := List.mem_map.mp hp
  exact Piece.wellformed_ofByte b

theorem bytesOnto_unit {known : Bytes} {u : Nat} {t : Text} (h : u < 0xD800) :
    bytesOnto known (.unit u :: t) = bytesOnto (pushScalar u known) t := by
  rw [bytesOnto.eq_def]
  exact if_pos (.inl h)

theorem bytesOnto_map_ofByte (known bs : Bytes) :
    bytesOnto known (bs.map Piece.ofByte) = some (bs.reverse ++ known) := by
  induction bs generalizing known with
  | nil => rfl
  | cons b bs ih =>
    have hstep : bytesOnto known (Piece.ofByte b :: bs.map Piece.ofByte) =
        bytesOnto (b :: known) (bs.map Piece.ofByte) := by
      unfold Piece.ofByte
      split
      · next h =>
        have hlow : b.toNat < 32 := UInt8.lt_iff_toNat_lt.mp h.1
        rw [bytesOnto_unit (by omega), pushScalar, utf8EncodeChar_of_lt h.1]
        rfl
      · rfl
    rw [List.map_cons, hstep, ih]
    simp

/-- **A string is what its text decodes to.** -/
@[simp]
theorem toString?_ofString (s : String) : (ofString s).toString? = some s := by
  simp [toString?, ofString, bytesOnto_map_ofByte, ofUtf8?_utf8]

end Text

/-! ### Integers -/

theorem Numeral.wellformed_ofInt (i : Int) : (Numeral.ofInt i).Wellformed :=
  ⟨written_decimalDigits _, (fun _ h => nomatch h), fun _ h => nomatch h⟩

theorem Numeral.toInt?_ofInt (i : Int) : (Numeral.ofInt i).toInt? = some i := by
  simp only [toInt?, ofInt, ofDecimalDigits_decimalDigits]
  split
  · next h => simp at h
  · split
    · next h =>
      have hneg : i < 0 := of_decide_eq_true h
      rw [if_neg (by omega), show -(i.natAbs : Int) = i by omega]
    · next h =>
      have hpos : ¬ i < 0 := fun hi => h (decide_eq_true hi)
      rw [show (i.natAbs : Int) = i by omega]

theorem toBounded?_int {low high i : Int} (hl : low ≤ i) (hh : i < high) :
    (Json.int i).toBounded? low high = some i := by
  simp [toBounded?, int, toInt?, Numeral.toInt?_ofInt, hl, hh]

theorem toNat?_nat {bound n : Nat} (h : n < bound) : (Json.nat n).toNat? bound = some n := by
  have hbound : (Json.nat n).toBounded? 0 bound = some (n : Int) :=
    toBounded?_int (Int.natCast_nonneg n) (Int.ofNat_lt.mpr h)
  rw [toNat?, hbound]
  rfl

@[simp]
theorem toUInt8?_nat (n : UInt8) : (Json.nat n.toNat).toUInt8? = some n := by
  rw [toUInt8?, toNat?_nat n.toNat_lt, Option.map_some, UInt8.ofNat_toNat]

@[simp]
theorem toUInt32?_nat (n : UInt32) : (Json.nat n.toNat).toUInt32? = some n := by
  rw [toUInt32?, toNat?_nat n.toNat_lt, Option.map_some, UInt32.ofNat_toNat]

@[simp]
theorem toUInt64?_nat (n : UInt64) : (Json.nat n.toNat).toUInt64? = some n := by
  rw [toUInt64?, toNat?_nat n.toNat_lt, Option.map_some, UInt64.ofNat_toNat]

@[simp]
theorem toInt64?_int (i : Int64) : (Json.int i.toInt).toInt64? = some i := by
  have h : (Json.int i.toInt).toBounded? (-0x8000000000000000) 0x8000000000000000 = some i.toInt :=
    toBounded?_int i.le_toInt i.toInt_lt
  rw [toInt64?, h, Option.map_some, Int64.ofInt_toInt]

end Rewind.Json
