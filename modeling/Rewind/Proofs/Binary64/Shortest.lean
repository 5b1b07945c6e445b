import Rewind.Proofs.Binary64.Rounding

/-! The shortest decimal of a number lies in its rounding interval.

Any grid point that is taken was tested for that. That one is found at all takes an
argument: with eighteen digits the grid is so fine that the point next to the number
is nearer to it than the ends of the interval (`isSome_gridPoint?`). This leaves room
for the estimate of the leading digit, which may be too high, but not by a whole
place (`pow_leadingExponent_le`). -/

namespace Rewind.Binary64

def Decimal.value (d : Decimal) : ℚ := d.coefficient * 10 ^ d.exponent

/-! ### Grid points -/

section
variable {i : Interval} {e : Int}

/-- Everything that is compared at a grid, in its true size but for a common factor. -/
theorem Interval.scaled_factor (i : Interval) (e : Int) : ∃ k : ℚ, 0 < k ∧
    (∀ n : Nat, ((n * ((powerOfTwo i.unit).1 * Nat.pow 10 (-e).toNat) : Nat) : ℚ) =
      n * 2 ^ i.unit * k) ∧
    ∀ c : Nat, ((c * (Nat.pow 10 e.toNat * (powerOfTwo i.unit).2) : Nat) : ℚ) =
      c * 10 ^ e * k := by
  have hdown : (0 : ℚ) < (powerOfTwo i.unit).2 := by exact_mod_cast (powerOfTwo_pos _).2
  have hten : (0 : ℚ) < (10 ^ (-e).toNat : Nat) := by exact_mod_cast Nat.pow_pos (by decide)
  have hunit := powerOfTwo_ratio i.unit
  have hstep : ((10 ^ e.toNat : Nat) : ℚ) / (10 ^ (-e).toNat : Nat) = 10 ^ e :=
    pow_toNat_div (b := 10) (by decide) e
  rw [div_eq_iff hdown.ne'] at hunit
  rw [div_eq_iff hten.ne'] at hstep
  refine ⟨_, mul_pos hdown hten, fun n => ?_, fun c => ?_⟩
  · rw [Nat.cast_mul, Nat.cast_mul, hunit]
    show _ * (_ * ((10 ^ (-e).toNat : Nat) : ℚ)) = _
    ring
  · rw [Nat.cast_mul, Nat.cast_mul]
    show _ * (((10 ^ e.toNat : Nat) : ℚ) * _) = _
    rw [hstep]
    ring

/-- The test that a grid point has to pass. -/
def Interval.inside (i : Interval) (e : Int) (c : Nat) : Bool :=
  if i.closed then
    decide ((i.scaled e).2.1 ≤ c * (i.scaled e).2.2.2 ∧ c * (i.scaled e).2.2.2 ≤ (i.scaled e).2.2.1)
  else
    decide ((i.scaled e).2.1 < c * (i.scaled e).2.2.2 ∧ c * (i.scaled e).2.2.2 < (i.scaled e).2.2.1)

/-- The grid point next to the number. -/
def Interval.closest (i : Interval) (e : Int) : Nat :=
  nearestQuotient (i.scaled e).1 (i.scaled e).2.2.2

theorem Interval.inside_iff {c : Nat} : i.inside e c = true ↔ i.Contains (c * 10 ^ e) := by
  obtain ⟨k, hk, hnum, hgrid⟩ := i.scaled_factor e
  have hle (n c : Nat) : n * ((powerOfTwo i.unit).1 * Nat.pow 10 (-e).toNat) ≤
      c * (Nat.pow 10 e.toNat * (powerOfTwo i.unit).2) ↔ (n : ℚ) * 2 ^ i.unit ≤ c * 10 ^ e := by
    rw [← Nat.cast_le (α := ℚ), hnum, hgrid, mul_le_mul_iff_left₀ hk]
  have hge (n c : Nat) : c * (Nat.pow 10 e.toNat * (powerOfTwo i.unit).2) ≤
      n * ((powerOfTwo i.unit).1 * Nat.pow 10 (-e).toNat) ↔ (c : ℚ) * 10 ^ e ≤ n * 2 ^ i.unit := by
    rw [← Nat.cast_le (α := ℚ), hnum, hgrid, mul_le_mul_iff_left₀ hk]
  unfold Interval.Contains inside
  split
  · rw [decide_eq_true_iff]
    exact and_congr (hle _ _) (hge _ _)
  · rw [decide_eq_true_iff, ← not_le, ← not_le, ← not_le, ← not_le]
    exact and_congr (not_congr (hge _ _)) (not_congr (hle _ _))

theorem Interval.gridPoint?_eq (i : Interval) (e : Int) :
    ∃ other, i.gridPoint? e =
      if i.inside e (i.closest e) then some ⟨i.closest e, e⟩
      else if i.inside e other then some ⟨other, e⟩
      else none :=
  ⟨_, rfl⟩

theorem Interval.contains_of_gridPoint? {d : Decimal} (h : i.gridPoint? e = some d) :
    i.Contains d.value := by
  obtain ⟨other, heq⟩ := i.gridPoint?_eq e
  rw [heq] at h
  split at h
  · next hin =>
    rw [← Option.some.inj h]
    exact inside_iff.mp hin
  · split at h
    · next hin =>
      rw [← Option.some.inj h]
      exact inside_iff.mp hin
    · cases h

theorem Interval.isSome_gridPoint? (h : i.Contains (i.closest e * 10 ^ e)) :
    (i.gridPoint? e).isSome := by
  obtain ⟨other, heq⟩ := i.gridPoint?_eq e
  rw [heq, if_pos (inside_iff.mpr h)]
  rfl

theorem firstHit_contains {leading : Int} {left tried : Nat}
    (h : ∃ t : Nat, tried ≤ t ∧ t < tried + left ∧ (i.gridPoint? (leading - t)).isSome) :
    i.Contains (firstHit i leading tried left).value := by
  induction left generalizing tried with
  | zero =>
    obtain ⟨t, hge, hlt, -⟩ := h
    omega
  | succ left ih =>
    rw [firstHit]
    cases hd : i.gridPoint? (leading - tried) with
    | some d => exact Interval.contains_of_gridPoint? hd
    | none =>
      obtain ⟨t, hge, hlt, hsome⟩ := h
      have hne : t ≠ tried := by
        rintro rfl
        rw [hd] at hsome
        cases hsome
      exact ih ⟨t, by omega, by omega, hsome⟩

end

/-! ### The finest grid -/

/-- The quotient is half a step or less away. -/
theorem nearestQuotient_error (num : Nat) {den : Nat} (hden : 0 < den) :
    2 * num ≤ 2 * (nearestQuotient num den * den) + den ∧
      2 * (nearestQuotient num den * den) ≤ 2 * num + den := by
  have hnum := Nat.div_add_mod num den
  have hmod := Nat.mod_lt num hden
  unfold nearestQuotient
  generalize num / den = k at hnum ⊢
  generalize num % den = r at hnum hmod ⊢
  have h (q : Nat) : q * den = den * q := Nat.mul_comm q den
  have hone : (k + 1) * den = den * k + den := by ring
  dsimp only
  split
  · rw [h]
    omega
  · split
    · rw [hone]
      omega
    · rcases Nat.mod_two_eq_zero_or_one k with hk | hk
      · rw [hk, Nat.add_zero, h]
        omega
      · rw [hk, hone]
        omega

/-- The point next to the number is half a step or less away. -/
theorem Interval.closest_error (i : Interval) (e : Int) :
    2 * (i.value * 2 ^ i.unit : ℚ) ≤ 2 * (i.closest e * 10 ^ e) + 10 ^ e ∧
      2 * (i.closest e * 10 ^ e : ℚ) ≤ 2 * (i.value * 2 ^ i.unit) + 10 ^ e := by
  obtain ⟨k, hk, hnum, hgrid⟩ := i.scaled_factor e
  have hstep : 0 < Nat.pow 10 e.toNat * (powerOfTwo i.unit).2 :=
    Nat.mul_pos (Nat.pow_pos (by decide)) (powerOfTwo_pos _).2
  obtain ⟨hlow, hhigh⟩ := nearestQuotient_error
    (i.value * ((powerOfTwo i.unit).1 * Nat.pow 10 (-e).toNat)) hstep
  have hone := hgrid 1
  rw [Nat.one_mul, Nat.cast_one, one_mul] at hone
  have hclosest : nearestQuotient (i.value * ((powerOfTwo i.unit).1 * Nat.pow 10 (-e).toNat))
      (Nat.pow 10 e.toNat * (powerOfTwo i.unit).2) = i.closest e := rfl
  rw [hclosest, ← Nat.cast_le (α := ℚ), Nat.cast_add, Nat.cast_mul 2, Nat.cast_mul 2, hnum, hone,
    hgrid] at hlow hhigh
  constructor <;> refine le_of_mul_le_mul_right ?_ hk <;> push_cast at hlow hhigh <;> linarith

theorem Interval.contains_of_lt {i : Interval} {v : ℚ} (hlow : i.low * 2 ^ i.unit < v)
    (hhigh : v < i.high * 2 ^ i.unit) : i.Contains v := by
  unfold Interval.Contains
  split
  · exact ⟨hlow.le, hhigh.le⟩
  · exact ⟨hlow, hhigh⟩

/-- A grid on which the number has at least eighteen digits holds a point inside. -/
theorem isSome_gridPoint? {x : Binary64} {e : Int} (hpos : 0 < x.significand)
    (h : (10 : ℚ) ^ (e + 17) ≤ 5 * (x.significand * 2 ^ x.scale)) :
    (x.interval.gridPoint? e).isSome := by
  have hu : (0 : ℚ) < 2 ^ x.scale := by positivity
  have hm : (x.significand : ℚ) < 2 ^ 53 := by exact_mod_cast x.parts.significand_lt
  have hunit : (2 : ℚ) ^ x.interval.unit = 2 ^ x.scale / 4 := by
    show (2 : ℚ) ^ (x.scale - 2) = _
    rw [zpow_sub₀ (by norm_num)]
    norm_num
  have hstep : 2 * (10 : ℚ) ^ e < 2 ^ x.scale := by
    rw [zpow_add₀ (by norm_num)] at h
    have := mul_lt_mul_of_pos_right hm hu
    norm_num at h this
    linarith
  have hlow : (x.interval.low : ℚ) ≤ 4 * x.significand - 1 := by
    have : (x.interval.low : ℚ) + 1 ≤ 4 * x.significand := by
      exact_mod_cast (interval_low hpos).1
    linarith
  have hhigh : (x.interval.high : ℚ) = 4 * x.significand + 2 := by
    show ((4 * x.significand + 2 : Nat) : ℚ) = _
    push_cast
    ring
  have hvalue : (x.interval.value : ℚ) = 4 * x.significand := by
    show ((4 * x.significand : Nat) : ℚ) = _
    push_cast
    ring
  obtain ⟨hbelow, habove⟩ := x.interval.closest_error e
  rw [hunit, hvalue] at hbelow habove
  refine Interval.isSome_gridPoint? (Interval.contains_of_lt ?_ ?_)
  · have := mul_le_mul_of_nonneg_right hlow hu.le
    rw [hunit]
    linarith
  · rw [hunit, hhigh]
    linarith

/-! ### The leading digit -/

/-- An estimate of the powers of ten below a power of two, with two places to spare. -/
theorem pow_ten_le {k l : Int} (h : 100000 * k ≤ 30103 * l) (hl : -1500 ≤ l) (hl' : l ≤ 1500) :
    (10 : ℚ) ^ k ≤ 100 * 2 ^ l := by
  rcases Int.le_total 0 l with hsign | hsign
  · obtain ⟨n, rfl⟩ := Int.eq_ofNat_of_zero_le hsign
    have hone : (1 : ℚ) ≤ 2 ^ n := one_le_pow₀ (by norm_num)
    rcases Int.le_total k 0 with hk | hk
    · have : (10 : ℚ) ^ k ≤ 1 := zpow_le_one_of_nonpos₀ (by norm_num) hk
      rw [zpow_natCast]
      linarith
    · obtain ⟨j, rfl⟩ := Int.eq_ofNat_of_zero_le hk
      -- three digits take less than ten bits
      have hcubes : (10 ^ j) ^ 3 ≤ (2 ^ (n + 6)) ^ 3 := by
        calc (10 ^ j) ^ 3 = (10 ^ 3) ^ j := by rw [← pow_mul, ← pow_mul, Nat.mul_comm]
          _ ≤ (2 ^ 10) ^ j := Nat.pow_le_pow_left (by norm_num) j
          _ = 2 ^ (10 * j) := by rw [← pow_mul]
          _ ≤ 2 ^ ((n + 6) * 3) := Nat.pow_le_pow_right (by norm_num) (by omega)
          _ = (2 ^ (n + 6)) ^ 3 := by rw [← pow_mul]
      have hle : 10 ^ j ≤ 2 ^ (n + 6) := (Nat.pow_le_pow_iff_left (by norm_num)).mp hcubes
      have hle' : (10 : ℚ) ^ j ≤ 2 ^ (n + 6) := by exact_mod_cast hle
      rw [pow_add] at hle'
      rw [zpow_natCast, zpow_natCast]
      linarith
  · obtain ⟨n, hn⟩ := Int.eq_ofNat_of_zero_le (Int.neg_nonneg_of_nonpos hsign)
    obtain ⟨j, hj⟩ := Int.eq_ofNat_of_zero_le (show 0 ≤ -k by omega)
    obtain rfl : l = -n := by omega
    obtain rfl : k = -j := by omega
    -- sixty-three bits take less than nineteen digits
    have hpowers : (2 ^ n) ^ 63 ≤ (10 ^ (j + 2)) ^ 63 := by
      calc (2 ^ n) ^ 63 = (2 ^ 63) ^ n := by rw [← pow_mul, ← pow_mul, Nat.mul_comm]
        _ ≤ (10 ^ 19) ^ n := Nat.pow_le_pow_left (by norm_num) n
        _ = 10 ^ (19 * n) := by rw [← pow_mul]
        _ ≤ 10 ^ ((j + 2) * 63) := Nat.pow_le_pow_right (by norm_num) (by omega)
        _ = (10 ^ (j + 2)) ^ 63 := by rw [← pow_mul]
    have hle : 2 ^ n ≤ 10 ^ (j + 2) := (Nat.pow_le_pow_iff_left (by norm_num)).mp hpowers
    have hle' : (2 : ℚ) ^ n ≤ 10 ^ (j + 2) := by exact_mod_cast hle
    rw [pow_add] at hle'
    rw [zpow_neg, zpow_neg, zpow_natCast, zpow_natCast, ← one_div, ← div_eq_mul_inv,
      div_le_div_iff₀ (pow_pos (by norm_num) j) (pow_pos (by norm_num) n)]
    linarith

theorem pow_leadingExponent_le {num den : Nat} (hnum : 0 < num) (hden : 0 < den)
    (hl : num.log2 ≤ 1400) (hl' : den.log2 ≤ 1400) :
    (10 : ℚ) ^ leadingExponent num den ≤ 5 * (num / den) := by
  have hd : (0 : ℚ) < den := by exact_mod_cast hden
  have hv : (0 : ℚ) ≤ num / den := div_nonneg (Nat.cast_nonneg _) hd.le
  have hreach {e : Int} (h : den * Nat.pow 10 e.toNat ≤ num * Nat.pow 10 (-e).toNat) :
      (10 : ℚ) ^ e ≤ 5 * (num / den) := by
    have hten : (0 : ℚ) < (10 ^ (-e).toNat : Nat) := by exact_mod_cast Nat.pow_pos (by decide)
    have hcast : ((10 ^ e.toNat : Nat) : ℚ) / (10 ^ (-e).toNat : Nat) = 10 ^ e :=
      pow_toNat_div (b := 10) (by decide) e
    have hle : (den * (10 ^ e.toNat : Nat) : ℚ) ≤ num * (10 ^ (-e).toNat : Nat) := by
      exact_mod_cast h
    have : (10 : ℚ) ^ e ≤ num / den := by
      rw [← hcast, div_le_div_iff₀ hten hd]
      linarith
    linarith
  unfold leadingExponent
  dsimp only
  generalize hl : ((num.log2 : Int) + 1 - den.log2) = l
  split
  · next h => exact hreach (of_decide_eq_true h)
  · split
    · next h => exact hreach (of_decide_eq_true h)
    · split
      · next h => exact hreach (of_decide_eq_true h)
      · -- however far down that is, it is not too high
        have hten := pow_ten_le (k := l * 30103 / 100000) (l := l) (by omega) (by omega) (by omega)
        have hlog := (log2_bounds hnum hden).1
        rw [show (num.log2 : Int) - den.log2 - 1 = l - 2 by omega, zpow_sub₀ (by norm_num)] at hlog
        rw [show l * 30103 / 100000 + 1 - 3 = l * 30103 / 100000 - 2 by omega,
          zpow_sub₀ (by norm_num)]
        norm_num at hlog ⊢
        linarith

/-- **The shortest decimal of a number rounds to it.** The patterns that stand for no number are
taken for numbers beyond the largest here. -/
theorem shortest_contains {x : Binary64} (hpos : 0 < x.significand) :
    x.interval.Contains x.shortest.value := by
  obtain ⟨hup, hdown⟩ := powerOfTwo_pos x.scale
  have hexp : x.exponent ≤ 2047 := by
    have hlt : x.magnitude < 2 ^ 63 := Nat.mod_lt _ (by decide)
    have : x.exponent = x.magnitude / 2 ^ 52 := rfl
    omega
  have hscale : x.scale ≤ 972 := by
    unfold scale
    omega
  have hpow (n : Nat) : Nat.pow 2 n = 2 ^ n := rfl
  have hnum : (x.significand * (powerOfTwo x.scale).1).log2 < 1025 := by
    rw [Nat.log2_lt (Nat.mul_pos hpos hup).ne', powerOfTwo, hpow]
    calc x.significand * 2 ^ x.scale.toNat
        < 2 ^ 53 * 2 ^ x.scale.toNat :=
          Nat.mul_lt_mul_of_pos_right x.parts.significand_lt (Nat.pow_pos (by decide))
      _ = 2 ^ (53 + x.scale.toNat) := (Nat.pow_add 2 53 _).symm
      _ ≤ 2 ^ 1025 := Nat.pow_le_pow_right (by decide) (by omega)
  have hden : (powerOfTwo x.scale).2.log2 < 1075 := by
    show (2 ^ (-x.scale).toNat).log2 < 1075
    rw [Nat.log2_two_pow]
    have := x.parts.scale_ge
    omega
  have hlead := pow_leadingExponent_le (Nat.mul_pos hpos hup) hdown (by omega) (by omega)
  rw [Nat.cast_mul, mul_div_assoc, powerOfTwo_ratio] at hlead
  refine firstHit_contains ⟨17, by decide, by decide, isSome_gridPoint? hpos ?_⟩
  rw [show ((17 : Nat) : Int) = 17 from rfl, Int.sub_add_cancel]
  exact hlead

end Rewind.Binary64
