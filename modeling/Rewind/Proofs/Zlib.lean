import Mathlib.Algebra.Group.Nat.Defs
import Rewind.Zlib.Deflate

/-! Compressed bytes come back at every level.

A packed stream is only used after it was read back, so what is left to show is that
stored blocks always are: the fields of a block are whole bytes, and a block ends
where the next one starts (`inflateBlocks_storedBlocks`). -/

namespace Rewind.Zlib

/-! ### Bits -/

/-- The number that some bits make, lowest first. -/
def bitsValue (bits : List Bool) : Nat := bits.foldr (fun b n => (if b then 1 else 0) + 2 * n) 0

namespace BitSource

theorem bitsValue_testBit (n k : Nat) :
    bitsValue ((List.range k).map fun i => n.testBit i) = n % 2 ^ k := by
  induction k generalizing n with
  | zero => rw [Nat.pow_zero, Nat.mod_one]; rfl
  | succ k ih =>
    have htail : (fun i => n.testBit i) ∘ Nat.succ = fun i => (n / 2).testBit i := by
      funext i
      rw [Nat.testBit_div_two]
      rfl
    rw [List.range_succ_eq_map, List.map_cons, List.map_map, htail, Nat.pow_succ, Nat.mul_comm,
      Nat.mod_mul, ← ih]
    show (if n.testBit 0 then 1 else 0) + 2 * _ = _
    congr 1
    rw [Nat.testBit_zero]
    rcases Nat.mod_two_eq_zero_or_one n with h | h <;> simp [h]

theorem bitsValue_bitsOf (b : UInt8) : bitsValue (bitsOf b) = b.toNat := by
  rw [bitsOf, bitsValue_testBit]
  exact Nat.mod_eq_of_lt b.toNat_lt

/-- The bits at hand make up the low end of a number. -/
theorem numberFrom?_append (bits : List Bool) (bytes : Bytes) (value weight n : Nat) :
    numberFrom? value weight (n + bits.length) ⟨bits, bytes⟩ =
      numberFrom? (value + weight * bitsValue bits) (weight * 2 ^ bits.length) n ⟨[], bytes⟩ := by
  induction bits generalizing value weight with
  | nil => simp [bitsValue]
  | cons b bits ih =>
    have hweight : 2 * weight * 2 ^ bits.length = weight * 2 ^ (bits.length + 1) := by
      rw [Nat.pow_succ]
      ac_rfl
    have hvalue : (if b then value + weight else value) + 2 * weight * bitsValue bits =
        value + weight * bitsValue (b :: bits) := by
      have : weight * bitsValue (b :: bits) =
          weight * (if b then 1 else 0) + 2 * weight * bitsValue bits := by
        show weight * ((if b then 1 else 0) + 2 * bitsValue bits) = _
        rw [Nat.mul_add]
        ac_rfl
      cases b <;> simp at this ⊢ <;> omega
    show numberFrom? (if b then value + weight else value) (2 * weight) (n + bits.length)
      ⟨bits, bytes⟩ = _
    rw [ih, hweight, hvalue]
    rfl

theorem numberFrom?_byte (b : UInt8) (bytes : Bytes) (value weight n : Nat) :
    numberFrom? value weight (n + 8) ⟨[], b :: bytes⟩ =
      numberFrom? (value + weight * b.toNat) (weight * 256) n ⟨[], bytes⟩ := by
  have hfirst : next? ⟨[], b :: bytes⟩ = next? ⟨bitsOf b, bytes⟩ := rfl
  have hload : numberFrom? value weight (n + 7 + 1) ⟨[], b :: bytes⟩ =
      numberFrom? value weight (n + 7 + 1) ⟨bitsOf b, bytes⟩ := by
    rw [numberFrom?, numberFrom?, hfirst]
  have h := numberFrom?_append (bitsOf b) bytes value weight n
  have hlength : (bitsOf b).length = 8 := by simp [bitsOf]
  rw [bitsValue_bitsOf, hlength] at h
  exact hload.trans h

/-- Two bytes make a number of sixteen bits. -/
theorem number?_word {n : Nat} (h : n < 65536) (bytes : Bytes) :
    number? 16 ⟨[], n.toUInt8 :: (n / 256).toUInt8 :: bytes⟩ = some (n, ⟨[], bytes⟩) := by
  have hlow : n.toUInt8.toNat = n % 256 := rfl
  have hhigh : (n / 256).toUInt8.toNat = n / 256 % 256 := rfl
  have hvalue : 0 + 1 * (n % 256) + 1 * 256 * (n / 256 % 256) = n := by omega
  have hfirst := numberFrom?_byte n.toUInt8 ((n / 256).toUInt8 :: bytes) 0 1 8
  have hsecond := numberFrom?_byte (n / 256).toUInt8 bytes (0 + 1 * (n % 256)) (1 * 256) 0
  rw [hlow] at hfirst
  rw [hhigh, numberFrom?, hvalue] at hsecond
  exact hfirst.trans hsecond

end BitSource

/-! ### Stored blocks -/

theorem takeStored_append (bs rest : Bytes) (out : Array UInt8) :
    takeStored bs.length (bs ++ rest) out = some (rest, out ++ bs.toArray) := by
  induction bs generalizing out with
  | nil => simp [takeStored]
  | cons b bs ih =>
    rw [List.length_cons, List.cons_append, takeStored, ih]
    simp

theorem inflateStored_block (bits : List Bool) {here : Bytes} (rest : Bytes) (out : Array UInt8)
    (h : here.length < 65536) :
    inflateStored ⟨bits, here.length.toUInt8 :: (here.length / 256).toUInt8 ::
        (65535 - here.length).toUInt8 :: ((65535 - here.length) / 256).toUInt8 ::
        (here ++ rest)⟩ out =
      some (⟨[], rest⟩, out ++ here.toArray) := by
  have hlength := BitSource.number?_word h ((65535 - here.length).toUInt8 ::
    ((65535 - here.length) / 256).toUInt8 :: (here ++ rest))
  have hcomplement := BitSource.number?_word (show 65535 - here.length < 65536 by omega)
    (here ++ rest)
  unfold inflateStored BitSource.align
  rw [hlength, Option.bind_eq_bind, Option.bind_some]
  dsimp only
  rw [hcomplement, Option.bind_eq_bind, Option.bind_some]
  dsimp only
  rw [if_pos (by omega), takeStored_append]
  rfl

/-- A stored block with all its fields, the first byte of which is only a mark. -/
def storedBlock (last : Bool) (here : Bytes) : Bytes :=
  (if last then 1 else 0) :: here.length.toUInt8 :: (here.length / 256).toUInt8 ::
    (65535 - here.length).toUInt8 :: ((65535 - here.length) / 256).toUInt8 :: here

theorem inflateBlocks_storedBlock {last : Bool} {here rest : Bytes} {out : Array UInt8} {fuel : Nat}
    (h : here.length < 65536) :
    inflateBlocks (fuel + 1) ⟨[], storedBlock last here ++ rest⟩ out =
      if last then some (⟨[], rest⟩, out ++ here.toArray)
      else inflateBlocks fuel ⟨[], rest⟩ (out ++ here.toArray) := by
  have hmark (fields : Bytes) : BitSource.number? 1 ⟨[], (if last then 1 else 0) :: fields⟩ =
      some (if last then 1 else 0, ⟨List.replicate 7 false, fields⟩) := by
    cases last <;> rfl
  have hkind (fields : Bytes) : BitSource.number? 2 ⟨List.replicate 7 false, fields⟩ =
      some (0, ⟨List.replicate 5 false, fields⟩) := rfl
  have hblock := inflateStored_block (List.replicate 5 false) rest out h
  show inflateBlocks (fuel + 1)
    ⟨[], (if last then 1 else 0) :: (_ :: _ :: _ :: _ :: here) ++ rest⟩ _ = _
  rw [inflateBlocks, List.cons_append, hmark, Option.bind_eq_bind, Option.bind_some]
  dsimp only
  rw [hkind, Option.bind_eq_bind, Option.bind_some]
  dsimp only [List.cons_append]
  rw [hblock]
  cases last <;> rfl

theorem storedBlocks_succ (fuel : Nat) (bs : Bytes) : storedBlocks (fuel + 1) bs =
    storedBlock (bs.drop 65535).isEmpty (bs.take 65535) ++
      if (bs.drop 65535).isEmpty then [] else storedBlocks fuel (bs.drop 65535) :=
  rfl

theorem length_storedBlocks {fuel : Nat} {bs : Bytes} (h : bs.length < fuel) :
    bs.length < (storedBlocks fuel bs).length := by
  induction fuel generalizing bs with
  | zero => cases h
  | succ fuel ih =>
    have hblock : (storedBlock (bs.drop 65535).isEmpty (bs.take 65535)).length =
        (bs.take 65535).length + 5 := rfl
    rw [storedBlocks_succ, List.length_append, hblock, List.length_take]
    split
    · next hr =>
      have : (bs.drop 65535).length = 0 := by rw [List.isEmpty_iff.mp hr]; rfl
      rw [List.length_drop] at this
      omega
    · next hr =>
      have hne : bs.drop 65535 ≠ [] := fun hnil => hr (by rw [hnil]; rfl)
      have hpos := List.length_pos_iff.mpr hne
      have hrest : (bs.drop 65535).length < fuel := by
        rw [List.length_drop] at hpos ⊢
        omega
      have := ih hrest
      rw [List.length_drop] at this hpos
      omega

/-- **Stored blocks hold their bytes.** -/
theorem inflateBlocks_storedBlocks {fuel left : Nat} {bs rest : Bytes} {out : Array UInt8}
    (h : bs.length < fuel) (hleft : fuel ≤ left) :
    inflateBlocks left ⟨[], storedBlocks fuel bs ++ rest⟩ out =
      some (⟨[], rest⟩, out ++ bs.toArray) := by
  induction fuel generalizing bs left out with
  | zero => cases h
  | succ fuel ih =>
    obtain ⟨left, rfl⟩ := Nat.exists_eq_succ_of_ne_zero (show left ≠ 0 by omega)
    have hhere : (bs.take 65535).length < 65536 := by
      rw [List.length_take]
      omega
    rw [storedBlocks_succ, List.append_assoc, inflateBlocks_storedBlock hhere]
    by_cases hr : (bs.drop 65535).isEmpty = true
    · have hall : bs.take 65535 = bs := by
        have h := List.take_append_drop 65535 bs
        rwa [List.isEmpty_iff.mp hr, List.append_nil] at h
      rw [hr, hall]
      rfl
    · have hne : bs.drop 65535 ≠ [] := fun hnil => hr (by rw [hnil]; rfl)
      have hpos := List.length_pos_iff.mpr hne
      rw [List.length_drop] at hpos
      rw [if_neg hr, if_neg hr, ih (by rw [List.length_drop]; omega) (by omega), Array.append_assoc]
      simp

/-! ### Streams -/

theorem headerOk_flagsOf (level : Nat) : headerOk 0x78 (flagsOf level) = true := by
  unfold flagsOf
  split
  · decide
  · split
    · decide
    · split <;> decide

theorem unzip?_stored (level : Nat) (bs : Bytes) :
    unzip? (stream level (storedBlocks (bs.length + 1) bs) bs) = some bs := by
  let s := BitSource.ofBytes (storedBlocks (bs.length + 1) bs ++ bigEndian4 (adler bs))
  have hfuel : bs.length + 1 ≤ s.size + 1 := by
    have := length_storedBlocks (Nat.lt_add_one bs.length)
    simp only [s, BitSource.ofBytes, BitSource.size, List.length_append, List.length_nil]
    omega
  have hblocks : inflateBlocks (s.size + 1) s #[] =
      some (⟨[], bigEndian4 (adler bs)⟩, bs.toArray) := by
    rw [show s = ⟨[], storedBlocks (bs.length + 1) bs ++ bigEndian4 (adler bs)⟩ from rfl] at hfuel ⊢
    rw [inflateBlocks_storedBlocks (Nat.lt_add_one bs.length) hfuel, Array.empty_append]
  show (if headerOk 0x78 (flagsOf level) then (inflateBlocks (s.size + 1) s #[]).bind _
    else none) = _
  rw [if_pos (headerOk_flagsOf level), hblocks, Option.bind_some]
  exact if_pos rfl

/-- **What was compressed comes back**, at every level. -/
theorem unzip?_zip (level : Nat) (bs : Bytes) : unzip? (zip level bs) = some bs := by
  unfold zip
  dsimp only
  split
  · exact unzip?_stored _ bs
  · split
    · next h => exact h.2
    · exact unzip?_stored _ bs

end Rewind.Zlib
