import Rewind.Proofs.Binary64.Shortest
import Rewind.Proofs.Json.Scalar

/-! Floats come back from JSON, bit for bit.

The literal of a float has the value of its shortest decimal, wherever the point was
put (`Numeral.value_ofDigits`), and every literal whose value lies in the rounding
interval of a number reads as that number (`Binary64.ofDecimal?_eq`). -/

namespace Rewind

/-! ### Reading decimals -/

namespace Binary64

theorem ofSign_magnitude (x : Binary64) : ofSign x.negative x.magnitude = x := by
  obtain ⟨bits⟩ := x
  have hlt : bits.toNat < 2 ^ 64 := bits.toNat_lt
  have hm : magnitude ⟨bits⟩ = bits.toNat % 2 ^ 63 := rfl
  have hnat : (if negative ⟨bits⟩ then magnitude ⟨bits⟩ + 0x8000000000000000
      else magnitude ⟨bits⟩) =
      bits.toNat := by
    by_cases h : bits.toNat / 2 ^ 63 = 1
    · rw [if_pos (by simpa [negative] using h), hm]
      omega
    · rw [if_neg (by simpa [negative] using h), hm]
      omega
  rw [ofSign, hnat, UInt64.ofNat_toNat]

theorem magnitude_lt {x : Binary64} (h : x.isFinite = true) : x.magnitude < infinityBits := by
  have hlt : x.magnitude < 2 ^ 63 := Nat.mod_lt _ (by decide)
  have hne : x.exponent ≠ 2047 := by simpa [isFinite] using h
  have : x.exponent = x.magnitude / 2 ^ 52 := rfl
  have : infinityBits = 2047 * 2 ^ 52 := rfl
  omega

theorem significand_pos {x : Binary64} (h : x.isZero = false) : 0 < x.significand := by
  obtain ⟨-, -, hnormal, hmag, -⟩ := x.parts
  have hne : x.magnitude ≠ 0 := by simpa [isZero] using h
  rcases Nat.eq_zero_or_pos x.significand with hz | hpos
  · have hs : x.scale = -1074 := hnormal.resolve_right (by omega)
    rw [hz, hs] at hmag
    exact absurd hmag hne
  · exact hpos

theorem two_pow_1025_lt : (2 : ℚ) ^ 1025 < 10 ^ 310 := by
  calc (2 : ℚ) ^ 1025 = (2 ^ 205) ^ 5 := by rw [← pow_mul]
    _ < (10 ^ 62) ^ 5 := pow_lt_pow_left₀ (by norm_num) (by norm_num) (by norm_num)
    _ = 10 ^ 310 := by rw [← pow_mul]

theorem two_pow_1075_lt : (2 : ℚ) ^ 1075 < 10 ^ 330 := by
  calc (2 : ℚ) ^ 1075 = (2 ^ 215) ^ 5 := by rw [← pow_mul]
    _ < (10 ^ 66) ^ 5 := pow_lt_pow_left₀ (by norm_num) (by norm_num) (by norm_num)
    _ = 10 ^ 330 := by rw [← pow_mul]

theorem scale_le {x : Binary64} (h : x.isFinite = true) : x.scale ≤ 971 := by
  have hlt := magnitude_lt h
  have : x.exponent = x.magnitude / 2 ^ 52 := rfl
  have : infinityBits = 2047 * 2 ^ 52 := rfl
  unfold scale
  omega

/-- The interval of a finite number that is not zero keeps clear of the powers of ten
beyond which no literal is looked at. -/
theorem interval_range {x : Binary64} {v : ℚ} (hfin : x.isFinite = true) (hpos : 0 < x.significand)
    (h : x.interval.Contains v) : (10 : ℚ) ^ (-330 : Int) < v ∧ v < 10 ^ (310 : Int) := by
  obtain ⟨hlow, hhigh, -⟩ := h.bounds hpos
  have hu : (0 : ℚ) < 2 ^ x.scale := by positivity
  have hone : (1 : ℚ) ≤ x.significand := by exact_mod_cast hpos
  have hm : (x.significand : ℚ) + 1 ≤ 2 ^ 53 := by exact_mod_cast x.parts.significand_lt
  constructor
  · have hleast : (2 : ℚ) ^ (-1074 : Int) ≤ 2 ^ x.scale :=
      zpow_le_zpow_right₀ (by norm_num) x.parts.scale_ge
    have hv : (2 : ℚ) ^ x.scale ≤ 2 * v := by
      have : (1 : ℚ) ≤ 2 * (v / 2 ^ x.scale) := by linarith
      rwa [← mul_div_assoc, le_div_iff₀ hu, one_mul] at this
    have hsmall : (10 : ℚ) ^ (-330 : Int) < 2 ^ (-1075 : Int) := by
      rw [zpow_neg, zpow_neg]
      exact inv_strictAnti₀ (by positivity) two_pow_1075_lt
    have hhalf : (2 : ℚ) * 2 ^ (-1075 : Int) = 2 ^ (-1074 : Int) := by
      rw [← zpow_one_add₀ (by norm_num)]
      rfl
    linarith
  · have hmost : (2 : ℚ) ^ x.scale ≤ 2 ^ (971 : Int) :=
      zpow_le_zpow_right₀ (by norm_num) (scale_le hfin)
    have hv : v / 2 ^ x.scale ≤ 2 ^ 53 := by linarith
    rw [div_le_iff₀ hu] at hv
    have hbound : (2 : ℚ) ^ 53 * 2 ^ x.scale ≤ 2 ^ 1025 := by
      calc (2 : ℚ) ^ 53 * 2 ^ x.scale ≤ 2 ^ 53 * 2 ^ (971 : Int) := by gcongr
        _ = 2 ^ (53 + 971) := by rw [pow_add]; rfl
        _ ≤ 2 ^ 1025 := pow_le_pow_right₀ (by norm_num) (by norm_num)
    exact lt_of_le_of_lt (le_trans hv hbound) two_pow_1025_lt

theorem ofRatio?_eq {x : Binary64} {num den : Nat} (hfin : x.isFinite = true)
    (hpos : 0 < x.significand) (hnum : 0 < num) (hden : 0 < den)
    (h : x.interval.Contains (num / den)) : ofRatio? x.negative num den = some x := by
  rw [ofRatio?, if_neg hnum.ne', nearestMagnitude_eq hpos hnum hden h]
  simp only [magnitude_lt hfin, if_true, ofSign_magnitude]

/-- Digits without a leading zero are as large as there are many of them. -/
theorem add_length_le {d : Nat} {ds : List Nat} {e m : Int} (hd : d ≠ 0)
    (h : (ofDecimalDigits (d :: ds) : ℚ) * 10 ^ e < 10 ^ m) : e + (d :: ds).length ≤ m := by
  have hten : (0 : ℚ) < 10 ^ e := by positivity
  have hlead : (10 : ℚ) ^ ds.length ≤ ofDecimalDigits (d :: ds) := by
    exact_mod_cast le_ofDecimalDigits ds hd
  have hpow : (10 : ℚ) ^ (ds.length + e) < 10 ^ m := by
    rw [zpow_add₀ (by norm_num), zpow_natCast]
    exact lt_of_le_of_lt (mul_le_mul_of_nonneg_right hlead hten.le) h
  have := (zpow_lt_zpow_iff_right₀ (by norm_num)).mp hpow
  rw [List.length_cons]
  omega

theorem le_add_length {ds : List Nat} {e m : Int} (hd : ∀ d ∈ ds, d < 10)
    (h : (10 : ℚ) ^ m < ofDecimalDigits ds * 10 ^ e) : m ≤ e + ds.length := by
  have hten : (0 : ℚ) < 10 ^ e := by positivity
  have hsmall : (ofDecimalDigits ds : ℚ) < 10 ^ ds.length := by
    exact_mod_cast ofDecimalDigits_lt hd
  have hpow : (10 : ℚ) ^ m < 10 ^ (ds.length + e) := by
    rw [zpow_add₀ (by norm_num), zpow_natCast]
    exact lt_trans h (mul_lt_mul_of_pos_right hsmall hten)
  have := (zpow_lt_zpow_iff_right₀ (by norm_num)).mp hpow
  omega

/-- Decimals in the interval of a number are not cut off as too large or too small. -/
theorem ofDecimal?_eq {x : Binary64} {ds : List Nat} {e : Int} (hfin : x.isFinite = true)
    (hpos : 0 < x.significand) (hd : ∀ d ∈ ds, d < 10)
    (h : x.interval.Contains (ofDecimalDigits ds * 10 ^ e)) :
    ofDecimal? x.negative ds e = some x := by
  obtain ⟨hlow, hhigh⟩ := interval_range hfin hpos h
  unfold ofDecimal?
  dsimp only
  rw [← ofDecimalDigits, ofDecimalDigits_dropWhile]
  have hsmall : ∀ d ∈ ds.dropWhile (· == 0), d < 10 := fun d h =>
    hd d ((List.dropWhile_sublist _).subset h)
  have hlead := List.head?_dropWhile_not (· == 0) ds
  have hvalue := ofDecimalDigits_dropWhile ds
  have hnpos : 0 < ofDecimalDigits ds := by
    rcases Nat.eq_zero_or_pos (ofDecimalDigits ds) with hzero | hpos
    · rw [hzero, Nat.cast_zero, zero_mul] at hlow
      exact absurd hlow (not_lt.mpr (by positivity))
    · exact hpos
  generalize ds.dropWhile (· == 0) = significant at hsmall hlead hvalue ⊢
  rw [← hvalue] at h hlow hhigh hnpos ⊢
  have hle : e + significant.length ≤ 310 := by
    cases significant with
    | nil => cases hnpos
    | cons d rest => exact add_length_le (by simpa using hlead) hhigh
  have hge : -330 ≤ e + significant.length := le_add_length hsmall hlow
  have hpow := pow_toNat_div (b := 10) (by decide) e
  rw [Nat.cast_ofNat] at hpow
  rw [if_neg hnpos.ne', if_neg (by omega), if_neg (by omega)]
  split
  · next he =>
    refine ofRatio?_eq hfin hpos (Nat.mul_pos hnpos (Nat.pow_pos (by decide))) (by decide) ?_
    rw [show (-e).toNat = 0 by omega] at hpow
    rw [Nat.cast_mul, mul_div_assoc]
    exact hpow ▸ h
  · next he =>
    refine ofRatio?_eq hfin hpos hnpos (Nat.pow_pos (by decide)) ?_
    rw [show e.toNat = 0 by omega, pow_zero, Nat.cast_one, one_div] at hpow
    rw [div_eq_mul_inv]
    exact hpow ▸ h

end Binary64

/-! ### Writing decimals -/

namespace Json.Numeral

/-- Digits of which so many stand before the point. -/
def pointed (ds : List Nat) (point : Int) : ℚ := ofDecimalDigits ds * 10 ^ (point - ds.length)

/-- Every list of digits is one that does not end in a zero, and zeros. -/
theorem exists_replicate_zero (ds : List Nat) :
    ∃ k, ds = (ds.reverse.dropWhile (· == 0)).reverse ++ List.replicate k 0 := by
  refine ⟨(ds.reverse.takeWhile (· == 0)).length, ?_⟩
  have hzeros : ds.reverse.takeWhile (· == 0) =
      List.replicate (ds.reverse.takeWhile (· == 0)).length 0 := by
    refine List.eq_replicate_iff.mpr ⟨rfl, fun d hd => ?_⟩
    simpa using List.all_eq_true.mp List.all_takeWhile d hd
  have h := congrArg List.reverse
    (List.takeWhile_append_dropWhile (p := (· == 0)) (l := ds.reverse))
  rw [List.reverse_append, List.reverse_reverse, hzeros, List.reverse_replicate] at h
  exact h.symm

theorem pointed_append_replicate (ds : List Nat) (point : Int) (k : Nat) :
    pointed (ds ++ List.replicate k 0) point = pointed ds point := by
  unfold pointed
  rw [ofDecimalDigits_append, ofDecimalDigits_replicate_zero, List.length_append,
    List.length_replicate, Nat.add_zero, Nat.cast_mul, Nat.cast_pow, mul_assoc, Nat.cast_ofNat,
    ← zpow_natCast, ← zpow_add₀ (by norm_num)]
  congr 2
  push_cast
  ring

theorem pointed_significantDigits (d : Binary64.Decimal) :
    pointed (significantDigits d).1 (significantDigits d).2 = d.value := by
  obtain ⟨k, hk⟩ := exists_replicate_zero (decimalDigits d.coefficient)
  have h := pointed_append_replicate (significantDigits d).1 (significantDigits d).2 k
  rw [← h]
  show pointed ((List.dropWhile _ _).reverse ++ List.replicate k 0) _ = _
  rw [← hk]
  show (ofDecimalDigits (decimalDigits d.coefficient) : ℚ) * 10 ^
    ((decimalDigits d.coefficient).length + d.exponent -
      (decimalDigits d.coefficient).length) = _
  rw [ofDecimalDigits_decimalDigits, add_sub_cancel_left]
  rfl

/-- **The literal of some digits has their value**, wherever the point was put. -/
theorem value_ofDigits {ds : List Nat} {point : Int} (negative : Bool) (hne : ds ≠ []) :
    (ofDecimalDigits
        ((ofDigits negative ds point).whole ++ (ofDigits negative ds point).fraction) : ℚ) *
      10 ^ ((ofDigits negative ds point).exponentValue -
        (ofDigits negative ds point).fraction.length) =
      pointed ds point := by
  have hlen : 0 < ds.length := List.length_pos_iff.mpr hne
  unfold ofDigits
  dsimp only
  split
  · next hp =>
    by_cases hle : ds.length ≤ point.toNat
    · -- all digits stand before the point, and zeros behind them
      rw [List.drop_eq_nil_of_le hle, List.take_of_length_le hle]
      have hzeros : List.replicate (point.toNat - ds.length) 0 ++ [0] =
          List.replicate (point.toNat - ds.length + 1) 0 := List.replicate_succ'.symm
      simp only [List.isEmpty_nil, if_true]
      rw [List.append_assoc, hzeros,
        ← pointed_append_replicate ds point (point.toNat - ds.length + 1), pointed]
      congr 2
      simp [exponentValue]
      omega
    · have htake : (ds.take point.toNat).length = point.toNat := by
        rw [List.length_take]
        omega
      have hrest : (ds.drop point.toNat).isEmpty = false := by
        simp
        omega
      simp only [htake, hrest, Nat.sub_self, List.replicate_zero, List.append_nil,
        Bool.false_eq_true, if_false, List.take_append_drop]
      rw [pointed]
      congr 2
      simp [exponentValue]
      omega
  · split
    · next hp =>
      -- zeros stand before the digits
      have hzeros : [0] ++ (List.replicate (-point).toNat 0 ++ ds) =
          List.replicate ((-point).toNat + 1) 0 ++ ds := by
        rw [List.replicate_succ]
        rfl
      rw [hzeros, ofDecimalDigits_append, ofDecimalDigits_replicate_zero, Nat.zero_mul,
        Nat.zero_add, pointed]
      congr 2
      simp [exponentValue]
      omega
    · rw [List.take_append_drop, pointed]
      congr 2
      by_cases hsign : point - 1 < 0
      · simp only [hsign, if_true, exponentValue, ofDecimalDigits_decimalDigits, List.length_drop]
        omega
      · simp only [hsign, if_false, exponentValue, ofDecimalDigits_decimalDigits, List.length_drop]
        omega

theorem wellformed_ofDigits {ds : List Nat} (negative : Bool) (point : Int) (h : Written ds)
    (hz : ds ≠ [0]) : (ofDigits negative ds point).Wellformed := by
  obtain ⟨d, rest, rfl⟩ := List.exists_cons_of_ne_nil h.ne_nil
  have hd : d ≠ 0 := by
    have := h.lead.resolve_left hz
    simpa using this
  have hzeros (k : Nat) : ∀ i ∈ List.replicate k 0, i < 10 := fun i hi => by
    rw [(List.mem_replicate.mp hi).2]
    decide
  unfold ofDigits
  dsimp only
  split
  · next hp =>
    have htake : (d :: rest).take point.toNat = d :: rest.take (point.toNat - 1) := by
      rw [show point.toNat = point.toNat - 1 + 1 by omega]
      rfl
    refine ⟨⟨by simp [htake], ?_, .inr (by simp [htake, hd])⟩, ?_, fun e he => nomatch he⟩
    · intro i hi
      rcases List.mem_append.mp hi with hi | hi
      · exact h.small i (List.mem_of_mem_take hi)
      · exact hzeros _ i hi
    · intro i hi
      dsimp only at hi
      split at hi
      · rw [List.mem_singleton.mp hi]
        decide
      · exact h.small i (List.mem_of_mem_drop hi)
  · split
    · refine ⟨⟨by simp, by simp, .inl rfl⟩, ?_, fun e he => nomatch he⟩
      intro i hi
      rcases List.mem_append.mp hi with hi | hi
      · exact hzeros _ i hi
      · exact h.small i hi
    · refine ⟨⟨by simp, fun i hi => h.small i (List.mem_of_mem_take hi), .inr (by simpa using hd)⟩,
        fun i hi => h.small i (List.mem_of_mem_drop hi), fun e he => ?_⟩
      have hw (n : Nat) : decimalDigits n ≠ [] ∧ ∀ i ∈ decimalDigits n, i < 10 :=
        ⟨(written_decimalDigits n).ne_nil, (written_decimalDigits n).small⟩
      rw [← Option.some.inj he]
      split
      · exact hw _
      · exact hw _

theorem negative_ofDigits (negative : Bool) (ds : List Nat) (point : Int) :
    (ofDigits negative ds point).negative = negative := by
  unfold ofDigits
  dsimp only
  split
  · rfl
  · split <;> rfl

theorem written_significantDigits {d : Binary64.Decimal} (h : 0 < d.coefficient) :
    Written (significantDigits d).1 ∧ (significantDigits d).1 ≠ [0] := by
  have hw := written_decimalDigits d.coefficient
  have hval := ofDecimalDigits_decimalDigits d.coefficient
  obtain ⟨k, hk⟩ := exists_replicate_zero (decimalDigits d.coefficient)
  show Written (List.dropWhile _ _).reverse ∧ (List.dropWhile _ _).reverse ≠ [0]
  generalize ((decimalDigits d.coefficient).reverse.dropWhile (· == 0)).reverse = ds at hk ⊢
  rw [hk] at hw hval
  cases ds with
  | nil =>
    rw [List.nil_append, ofDecimalDigits_replicate_zero] at hval
    omega
  | cons i is =>
    have hi : i ≠ 0 := by
      rintro rfl
      rcases hw.lead with hz | hz
      · rw [hz] at hval
        have : ofDecimalDigits [0] = 0 := rfl
        omega
      · exact hz rfl
    refine ⟨⟨List.cons_ne_nil i is, fun j hj => hw.small j (List.mem_append_left _ hj), .inr ?_⟩,
      ?_⟩
    · simpa using hi
    · simp [hi]

/-! ### Floats -/

theorem ofFloat_of_isZero {x : Binary64} (h : x.isZero = true) : ofFloat x =
    { negative := x.negative, whole := [0], fraction := [0], exponent := none } := by
  rw [ofFloat, if_pos h]

theorem ofFloat_of_not_isZero {x : Binary64} (h : x.isZero = false) : ofFloat x =
    ofDigits x.negative (significantDigits x.shortest).1 (significantDigits x.shortest).2 := by
  rw [ofFloat, h]
  rfl

/-- The shortest decimal of a number that is not zero is not zero either. -/
theorem coefficient_shortest_pos {x : Binary64} (hpos : 0 < x.significand) :
    0 < x.shortest.coefficient := by
  obtain ⟨hlow, -⟩ := (Binary64.shortest_contains hpos).bounds hpos
  have hone : (1 : ℚ) ≤ x.significand := by exact_mod_cast hpos
  rcases Nat.eq_zero_or_pos x.shortest.coefficient with hz | hpos
  · rw [Binary64.Decimal.value, hz, Nat.cast_zero, zero_mul, zero_div] at hlow
    linarith
  · exact hpos

theorem wellformed_ofFloat (x : Binary64) : (ofFloat x).Wellformed := by
  cases hz : x.isZero with
  | true =>
    rw [ofFloat_of_isZero hz]
    exact ⟨⟨by simp, by simp, .inl rfl⟩, by simp, fun _ he => nomatch he⟩
  | false =>
    obtain ⟨hw, hne⟩ := written_significantDigits
      (coefficient_shortest_pos (Binary64.significand_pos hz))
    rw [ofFloat_of_not_isZero hz]
    exact wellformed_ofDigits x.negative _ hw hne

/-- The literal of some digits has a point or an exponent. -/
theorem toInt?_ofDigits {ds : List Nat} (negative : Bool) (point : Int) (h : ds ≠ []) :
    (ofDigits negative ds point).toInt? = none := by
  unfold ofDigits
  dsimp only
  split
  · have hfraction : (if (ds.drop point.toNat).isEmpty then [0] else ds.drop point.toNat) ≠ [] := by
      split
      · exact List.cons_ne_nil 0 []
      · next hrest => simpa using hrest
    rw [toInt?, if_pos (.inl hfraction)]
  · split
    · rw [toInt?, if_pos (.inl (by simp [h]))]
    · rw [toInt?, if_pos (.inr (by simp))]

/-- No float is written as an integer. -/
theorem toInt?_ofFloat (x : Binary64) : (ofFloat x).toInt? = none := by
  cases hz : x.isZero with
  | true =>
    rw [ofFloat_of_isZero hz]
    rfl
  | false =>
    obtain ⟨hw, -⟩ := written_significantDigits
      (coefficient_shortest_pos (Binary64.significand_pos hz))
    rw [ofFloat_of_not_isZero hz, toInt?_ofDigits x.negative _ hw.ne_nil]

/-- **A finite float is what its literal reads as**, with the sign of its zero. -/
theorem toFloat?_ofFloat {x : Binary64} (hfin : x.isFinite = true) :
    (ofFloat x).toFloat? = some x := by
  cases hz : x.isZero with
  | true =>
    have hmag : x.magnitude = 0 := by simpa [Binary64.isZero] using hz
    rw [ofFloat_of_isZero hz]
    show some (Binary64.ofSign x.negative 0) = some x
    rw [← hmag, Binary64.ofSign_magnitude]
  | false =>
    have hpos := Binary64.significand_pos hz
    have hc := coefficient_shortest_pos hpos
    obtain ⟨hw, hne⟩ := written_significantDigits hc
    have hwell := wellformed_ofDigits x.negative (significantDigits x.shortest).2 hw hne
    have hneg := negative_ofDigits x.negative (significantDigits x.shortest).1
      (significantDigits x.shortest).2
    rw [ofFloat_of_not_isZero hz, toFloat?, hneg]
    refine Binary64.ofDecimal?_eq hfin hpos ?_ ?_
    · intro d hd
      rcases List.mem_append.mp hd with hd | hd
      · exact hwell.whole.small d hd
      · exact hwell.fraction d hd
    · rw [value_ofDigits x.negative hw.ne_nil, pointed_significantDigits]
      exact Binary64.shortest_contains hpos

end Json.Numeral

@[simp]
theorem Json.toFloat?_float {x : Binary64} (hfin : x.isFinite = true) :
    (Json.float x).toFloat? = some x :=
  Numeral.toFloat?_ofFloat hfin

end Rewind
