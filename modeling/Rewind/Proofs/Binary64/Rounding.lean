import Mathlib.Algebra.Order.Field.Power
import Mathlib.Algebra.Order.Ring.Rat
import Mathlib.Tactic.FieldSimp
import Mathlib.Tactic.Linarith
import Mathlib.Tactic.Ring
import Rewind.Binary64.Shortest

/-! Everything in the rounding interval of a number rounds to it.

A finite number is `m · 2 ^ e` with `m` below `2 ^ 53`, and unless `e` is the least
exponent `m` is at least `2 ^ 52` (`Binary64.Parts`). The scale that `nearestScale`
picks for a ratio is `e`, but for a ratio just below a power of two, where it is one
less and the quotient rounds up to `2 ^ 53`; the pattern is that of the number in
both cases (`nearestMagnitude_eq`). -/

namespace Rewind.Binary64

/-! ### Powers of two -/

theorem powerOfTwo_pos (e : Int) : 0 < (powerOfTwo e).1 ∧ 0 < (powerOfTwo e).2 :=
  ⟨Nat.pow_pos (by decide), Nat.pow_pos (by decide)⟩

/-- A power whose exponent may be negative, as a quotient of two that are whole. -/
theorem pow_toNat_div {b : Nat} (hb : 0 < b) (e : Int) :
    ((b ^ e.toNat : Nat) : ℚ) / (b ^ (-e).toNat : Nat) = (b : ℚ) ^ e := by
  have hb' : (b : ℚ) ≠ 0 := by exact_mod_cast hb.ne'
  rw [Nat.cast_pow, Nat.cast_pow, ← zpow_natCast, ← zpow_natCast, ← zpow_sub₀ hb']
  congr 1
  omega

theorem powerOfTwo_ratio (e : Int) : ((powerOfTwo e).1 : ℚ) / (powerOfTwo e).2 = 2 ^ e :=
  pow_toNat_div (b := 2) (by decide) e

/-- A ratio times a power of two. -/
theorem mul_powerOfTwo (num den : Nat) (e : Int) :
    ((num * (powerOfTwo e).1 : Nat) : ℚ) / (den * (powerOfTwo e).2 : Nat) = num / den * 2 ^ e := by
  rw [← powerOfTwo_ratio, Nat.cast_mul, Nat.cast_mul, mul_div_mul_comm]

/-! ### Quotients -/

theorem nearestQuotient_eq_of_nat (num : Nat) {den q : Nat} (hden : 0 < den)
    (hlow : 2 * (q * den) ≤ 2 * num + den) (hhigh : 2 * num ≤ 2 * (q * den) + den)
    (htie : 2 * (q * den) = 2 * num + den ∨ 2 * num = 2 * (q * den) + den → q % 2 = 0) :
    nearestQuotient num den = q := by
  have hnum := Nat.div_add_mod num den
  have hmod := Nat.mod_lt num hden
  unfold nearestQuotient
  generalize num / den = k at hnum ⊢
  generalize num % den = r at hnum hmod ⊢
  have hle : q ≤ k + 1 := by
    by_contra h
    have := Nat.mul_le_mul_right den (show k + 2 ≤ q by omega)
    have hk : (k + 2) * den = den * k + 2 * den := by ring
    omega
  have hge : k ≤ q := by
    by_contra h
    have := Nat.mul_le_mul_right den (show q + 1 ≤ k by omega)
    have hq : (q + 1) * den = q * den + den := by ring
    have hk : k * den = den * k := by ring
    omega
  -- `q` is the quotient rounded down, or one more
  rcases (show q = k ∨ q = k + 1 by omega) with rfl | rfl
  · have hq : q * den = den * q := by ring
    dsimp only
    split
    · rfl
    · rw [if_neg (by omega), htie (.inr (by omega))]
      rfl
  · have hq : (k + 1) * den = den * k + den := by ring
    dsimp only
    rw [if_neg (by omega)]
    split
    · rfl
    · have := htie (.inl (by omega))
      omega

/-- What is half a step or less away from an integer rounds to it, if it is even or the
distance is less. -/
theorem nearestQuotient_eq (num : Nat) {den q : Nat} (hden : 0 < den)
    (hlow : (2 * q - 1 : ℚ) ≤ 2 * (num / den)) (hhigh : 2 * (num / den : ℚ) ≤ 2 * q + 1)
    (htie : (2 * q - 1 : ℚ) = 2 * (num / den) ∨ 2 * (num / den : ℚ) = 2 * q + 1 → q % 2 = 0) :
    nearestQuotient num den = q := by
  have hd : (0 : ℚ) < den := by exact_mod_cast hden
  rw [← mul_div_assoc] at hlow hhigh htie
  rw [le_div_iff₀ hd] at hlow
  rw [div_le_iff₀ hd] at hhigh
  rw [eq_div_iff hd.ne', div_eq_iff hd.ne'] at htie
  refine nearestQuotient_eq_of_nat num hden ?_ ?_ fun h => htie (h.imp (fun h => ?_) fun h => ?_)
  · have : ((2 * (q * den) : Nat) : ℚ) ≤ (2 * num + den : Nat) := by push_cast; linarith
    exact_mod_cast this
  · have : ((2 * num : Nat) : ℚ) ≤ (2 * (q * den) + den : Nat) := by push_cast; linarith
    exact_mod_cast this
  · have : ((2 * (q * den) : Nat) : ℚ) = (2 * num + den : Nat) := by rw [h]
    push_cast at this
    linarith
  · have : ((2 * num : Nat) : ℚ) = (2 * (q * den) + den : Nat) := by rw [h]
    push_cast at this
    linarith

/-! ### Scales -/

/-- A ratio lies between powers of two as far apart as the logarithms say. -/
theorem log2_bounds {num den : Nat} (hnum : 0 < num) (hden : 0 < den) :
    (2 : ℚ) ^ ((num.log2 : Int) - den.log2 - 1) ≤ num / den ∧
      (num / den : ℚ) < 2 ^ ((num.log2 : Int) - den.log2 + 1) := by
  have hd : (0 : ℚ) < den := by exact_mod_cast hden
  have hn1 : (2 : ℚ) ^ num.log2 ≤ num := by exact_mod_cast Nat.log2_self_le hnum.ne'
  have hn2 : (num : ℚ) < 2 ^ (num.log2 + 1) := by exact_mod_cast Nat.lt_log2_self
  have hd1 : (2 : ℚ) ^ den.log2 ≤ den := by exact_mod_cast Nat.log2_self_le hden.ne'
  have hd2 : (den : ℚ) < 2 ^ (den.log2 + 1) := by exact_mod_cast Nat.lt_log2_self
  constructor
  · rw [le_div_iff₀ hd]
    calc (2 : ℚ) ^ ((num.log2 : Int) - den.log2 - 1) * den
        ≤ 2 ^ ((num.log2 : Int) - den.log2 - 1) * 2 ^ (den.log2 + 1) := by gcongr
      _ = 2 ^ num.log2 := by
        rw [← zpow_natCast, ← zpow_natCast, ← zpow_add₀ (by norm_num)]
        congr 1
        omega
      _ ≤ num := hn1
  · rw [div_lt_iff₀ hd]
    calc (num : ℚ) < 2 ^ (num.log2 + 1) := hn2
      _ = 2 ^ ((num.log2 : Int) - den.log2 + 1) * 2 ^ den.log2 := by
        rw [← zpow_natCast, ← zpow_natCast, ← zpow_add₀ (by norm_num)]
        congr 1
        omega
      _ ≤ 2 ^ ((num.log2 : Int) - den.log2 + 1) * den := by gcongr

/-- The scale of a ratio: the least there is, or the one that leaves fifty-three bits. -/
theorem nearestScale_spec {num den : Nat} (hnum : 0 < num) (hden : 0 < den) :
    -1074 ≤ nearestScale num den ∧ (num / den : ℚ) < 2 ^ (nearestScale num den + 53) ∧
      (nearestScale num den = -1074 ∨ 2 ^ (nearestScale num den + 52) ≤ (num / den : ℚ)) := by
  obtain ⟨hge, hlt⟩ := log2_bounds hnum hden
  have htwo : (1 : ℚ) ≤ 2 := by norm_num
  unfold nearestScale
  generalize hlow : max ((num.log2 : Int) - den.log2 - 53) (-1074) = low
  have htest : num * (powerOfTwo (-low)).1 < den * (powerOfTwo (-low)).2 * 0x20000000000000 ↔
      (num / den : ℚ) < 2 ^ (low + 53) := by
    have hpos : (0 : ℚ) < (den * (powerOfTwo (-low)).2 : Nat) := by
      exact_mod_cast Nat.mul_pos hden (powerOfTwo_pos _).2
    have hlow : (0 : ℚ) < 2 ^ low := by positivity
    rw [← Nat.cast_lt (α := ℚ), Nat.cast_mul _ 0x20000000000000, ← div_lt_iff₀' hpos,
      mul_powerOfTwo, zpow_neg, ← div_eq_mul_inv, div_lt_iff₀ hlow, zpow_add₀ (by norm_num),
      mul_comm]
    norm_num
  simp only [htest]
  split
  · next h =>
    refine ⟨by omega, h, ?_⟩
    rcases (show low = -1074 ∨ low = num.log2 - den.log2 - 53 by omega) with h | h
    · exact .inl h
    · refine .inr (le_trans (zpow_le_zpow_right₀ htwo ?_) hge)
      omega
  · next h =>
    refine ⟨by omega, lt_of_lt_of_le hlt (zpow_le_zpow_right₀ htwo (by omega)), .inr ?_⟩
    exact le_trans (zpow_le_zpow_right₀ htwo (by omega)) (not_lt.mp h)

/-! ### Patterns -/

/-- A number as significand and scale, and its pattern put together from them. -/
structure Parts (x : Binary64) : Prop where
  significand_lt : x.significand < 2 ^ 53
  scale_ge : -1074 ≤ x.scale
  normal : x.scale = -1074 ∨ 2 ^ 52 ≤ x.significand
  magnitude : x.magnitude = (x.scale + 1074).toNat * 2 ^ 52 + x.significand
  exponent : 1 < x.exponent ↔ -1074 < x.scale

theorem parts (x : Binary64) : x.Parts := by
  have hf : x.fraction < 2 ^ 52 := Nat.mod_lt _ (by decide)
  have hm : x.magnitude = x.exponent * 2 ^ 52 + x.fraction := by
    have := Nat.div_add_mod x.magnitude 0x10000000000000
    rw [exponent, fraction]
    omega
  by_cases h : x.exponent = 0
  · have hs : x.significand = x.fraction := if_pos h
    have hc : x.scale = -1074 := by
      rw [scale, h]
      rfl
    exact ⟨by omega, by omega, .inl hc, by rw [hm, hs, hc, h]; rfl, by omega⟩
  · have hs : x.significand = x.fraction + 2 ^ 52 := if_neg h
    have hc : x.scale = x.exponent - 1075 := by
      rw [scale]
      omega
    have he : (x.scale + 1074).toNat = x.exponent - 1 := by omega
    refine ⟨by omega, by omega, .inr (by omega), ?_, by omega⟩
    rw [hm, hs, he]
    omega

/-- The value lies where everything rounds to the number in the middle. -/
def Interval.Contains (i : Interval) (v : ℚ) : Prop :=
  if i.closed then i.low * 2 ^ i.unit ≤ v ∧ v ≤ i.high * 2 ^ i.unit
  else i.low * 2 ^ i.unit < v ∧ v < i.high * 2 ^ i.unit

theorem interval_low {x : Binary64} (hpos : 0 < x.significand) :
    x.interval.low + 1 ≤ 4 * x.significand ∧ 4 * x.significand ≤ x.interval.low + 2 := by
  unfold interval
  dsimp only
  split <;> omega

/-- The ends of a rounding interval, in steps of the last place. -/
theorem Interval.Contains.bounds {x : Binary64} {v : ℚ} (hpos : 0 < x.significand)
    (h : x.interval.Contains v) :
    (2 * x.significand - 1 : ℚ) ≤ 2 * (v / 2 ^ x.scale) ∧
      2 * (v / 2 ^ x.scale) ≤ 2 * x.significand + 1 ∧
      ((2 * x.significand - 1 : ℚ) = 2 * (v / 2 ^ x.scale) ∨
        2 * (v / 2 ^ x.scale) = 2 * x.significand + 1 → x.significand % 2 = 0) ∧
      (x.significand = 2 ^ 52 → -1074 < x.scale →
        (4 * 2 ^ 52 - 1 : ℚ) ≤ 4 * (v / 2 ^ x.scale)) := by
  have hu : (0 : ℚ) < 2 ^ x.scale := by positivity
  have hunit (n : Nat) : (n : ℚ) * 2 ^ x.interval.unit = n / 4 * 2 ^ x.scale := by
    show (n : ℚ) * 2 ^ (x.scale - 2) = _
    rw [zpow_sub₀ (by norm_num)]
    ring
  have hlow : (4 * x.significand - 2 : ℚ) ≤ x.interval.low := by
    have : (4 * x.significand : ℚ) ≤ x.interval.low + 2 := by
      exact_mod_cast (interval_low hpos).2
    linarith
  have hpower (hm : x.significand = 2 ^ 52) (hs : -1074 < x.scale) :
      (x.interval.low : ℚ) = 4 * 2 ^ 52 - 1 := by
    show (((if x.significand = 2 ^ 52 ∧ 1 < x.exponent then 4 * x.significand - 1
      else 4 * x.significand - 2 : Nat)) : ℚ) = _
    rw [if_pos ⟨hm, x.parts.exponent.mpr hs⟩, hm]
    norm_num
  have hhigh : (x.interval.high : ℚ) = 4 * x.significand + 2 := by
    show ((4 * x.significand + 2 : Nat) : ℚ) = _
    push_cast
    ring
  unfold Interval.Contains at h
  rw [hunit, hunit, ← le_div_iff₀ hu, ← div_le_iff₀ hu, ← lt_div_iff₀ hu, ← div_lt_iff₀ hu] at h
  generalize v / 2 ^ x.scale = w at h ⊢
  split at h
  · next hc =>
    have heven : x.significand % 2 = 0 := by simpa [interval] using hc
    refine ⟨by linarith [h.1], by linarith [h.2], fun _ => heven, fun hm hs => ?_⟩
    linarith [h.1, hpower hm hs]
  · refine ⟨by linarith [h.1], by linarith [h.2], fun ht => ?_, fun hm hs => ?_⟩
    · rcases ht with ht | ht
      · linarith [h.1]
      · linarith [h.2]
    · linarith [h.1, hpower hm hs]

/-- **What lies in the rounding interval of a number rounds to it.** -/
theorem nearestMagnitude_eq {x : Binary64} {num den : Nat} (hpos : 0 < x.significand)
    (hnum : 0 < num) (hden : 0 < den) (h : x.interval.Contains (num / den)) :
    nearestMagnitude num den = x.magnitude := by
  obtain ⟨hlow, hhigh, htie, hpower⟩ := h.bounds hpos
  obtain ⟨hm, hsc, hnormal, hmag, -⟩ := x.parts
  obtain ⟨hge, hlt, hleast⟩ := nearestScale_spec hnum hden
  have hu : (0 : ℚ) < 2 ^ x.scale := by positivity
  have hm' : (x.significand : ℚ) + 1 ≤ 2 ^ 53 := by exact_mod_cast hm
  have hshift (e n : Int) (h : e ≤ n + x.scale) : (2 : ℚ) ^ e / 2 ^ x.scale ≤ 2 ^ n := by
    rw [div_le_iff₀ hu, ← zpow_add₀ (by norm_num)]
    exact zpow_le_zpow_right₀ (by norm_num) h
  have quotient {q : Nat} (s : Int) := nearestQuotient_eq (q := q) (num * (powerOfTwo (-s)).1)
    (Nat.mul_pos hden (powerOfTwo_pos (-s)).2)
  simp only [mul_powerOfTwo, zpow_neg, ← div_eq_mul_inv] at quotient
  show (nearestScale num den + 1074).toNat * 2 ^ 52 +
    nearestQuotient (num * (powerOfTwo (-nearestScale num den)).1)
      (den * (powerOfTwo (-nearestScale num den)).2) = x.magnitude
  rcases lt_trichotomy (nearestScale num den) x.scale with hs | hs | hs
  · -- only just below a power of two, where the quotient rounds up to the next pattern
    have hw : (num / den : ℚ) / 2 ^ x.scale < 2 ^ (52 : Int) :=
      lt_of_lt_of_le (div_lt_div_of_pos_right hlt hu) (hshift _ _ (by omega))
    have hm52 : x.significand = 2 ^ 52 := by
      have hle : x.significand ≤ 2 ^ 52 := by
        norm_num at hw
        have : (x.significand : ℚ) < 4503599627370497 := by linarith
        have : x.significand < 4503599627370497 := by exact_mod_cast this
        omega
      omega
    have hquarter := hpower hm52 (by omega)
    have hs' : nearestScale num den = x.scale - 1 := by
      by_contra hne
      have hw' : (num / den : ℚ) / 2 ^ x.scale < 2 ^ (51 : Int) :=
        lt_of_lt_of_le (div_lt_div_of_pos_right hlt hu) (hshift _ _ (by omega))
      norm_num at hw' hquarter
      linarith
    have hdouble : (num / den : ℚ) / 2 ^ (x.scale - 1) = 2 * (num / den / 2 ^ x.scale) := by
      rw [zpow_sub₀ (by norm_num)]
      field_simp
    rw [hs', quotient (q := 2 ^ 53) (x.scale - 1), hmag, hm52]
    · omega
    · rw [hdouble]; push_cast; linarith
    · rw [hdouble]; norm_num at hw ⊢; linarith
    · exact fun _ => by norm_num
  · rw [hs, quotient x.scale hlow hhigh htie, hmag]
  · exfalso
    have hbig : (2 : ℚ) ^ (nearestScale num den + 52) ≤ num / den := hleast.resolve_left (by omega)
    have hw : (2 : ℚ) ^ (53 : Int) ≤ num / den / 2 ^ x.scale := by
      rw [le_div_iff₀ hu, ← zpow_add₀ (by norm_num)]
      exact le_trans (zpow_le_zpow_right₀ (by norm_num) (by omega)) hbig
    norm_num at hw hm'
    linarith

end Rewind.Binary64
