import Mathlib.Algebra.Order.Field.Power
import SlotLisp.Decimal
import SlotLisp.Proofs.Rounding

/-!
# Nine significant digits

A decimal number with nine significant digits that is nearest to a binary32 number is rounded back
to that number (`nearestIn_significant_nine`). Rounding to nine digits is off by less than a
`2 ^ 25`th of the number, and all other binary32 numbers are farther away than a `2 ^ 24`th of it.
-/

namespace SlotLisp

/-- The absolute value of a decimal number. -/
def Decimal.size (d : Decimal) : ℚ := d.digits * 10 ^ d.exponent

namespace Text

theorem length_ofNat_le_iff {n k : ℕ} (hk : 0 < k) : (ofNat n).length ≤ k ↔ n < 10 ^ k := by
  rw [ofNat, List.length_map, Nat.length_toDigits_le_iff (by decide) hk]

theorem length_ofNat_pos (n : ℕ) : 0 < (ofNat n).length := by
  rw [ofNat, List.length_map]
  exact Nat.length_toDigits_pos

theorem pow_length_ofNat_le {n : ℕ} (hn : 0 < n) : 10 ^ ((ofNat n).length - 1) ≤ n := by
  by_cases hone : (ofNat n).length - 1 = 0
  · rw [hone]
    exact hn
  · rw [← not_lt, ← length_ofNat_le_iff (Nat.pos_of_ne_zero hone)]
    omega

end Text

namespace Binary32

/-! ## Rounding decimal numbers -/

theorem nearestIn_toBinary32 (d : Decimal) :
    NearestIn (Set.Iic infiniteMagnitude) (d.size * unitsPerOne) d.toBinary32.magnitude := by
  rw [Decimal.toBinary32]
  split_ifs with h
  · obtain ⟨n, hn⟩ := Int.eq_ofNat_of_zero_le h
    have hnearest := nearestIn_nearest d.negative (d.digits * unitsPerOne * 10 ^ n) one_pos
    rw [Decimal.size, hn, zpow_natCast, Int.toNat_natCast]
    rwa [Nat.cast_one, div_one, Nat.cast_mul, Nat.cast_mul, Nat.cast_pow, mul_right_comm]
      at hnearest
  · obtain ⟨n, hn⟩ := Int.eq_ofNat_of_zero_le (by omega : 0 ≤ -d.exponent)
    have hnearest := nearestIn_nearest d.negative (d.digits * unitsPerOne)
      (Nat.pow_pos (n := n) (by decide : 0 < 10))
    rw [Decimal.size, hn, show d.exponent = -n by omega, zpow_neg, zpow_natCast, Int.toNat_natCast]
    rwa [Nat.cast_mul, Nat.cast_pow, div_eq_mul_inv, mul_right_comm] at hnearest

theorem isNegative_toBinary32 (d : Decimal) : d.toBinary32.isNegative = d.negative := by
  rw [Decimal.toBinary32]
  split_ifs <;> exact isNegative_ofMagnitude d.negative (nearestMagnitude_lt _ _)

/-- A decimal number that is near enough to a binary32 number is rounded to it. -/
theorem toBinary32_eq {d : Decimal} {x : Binary32} (hneg : d.negative = x.isNegative)
    (hnear : NearestIn (Set.Iic infiniteMagnitude) (d.size * unitsPerOne) x.magnitude) :
    d.toBinary32 = x := by
  rw [← ofMagnitude_magnitude d.toBinary32, ← ofMagnitude_magnitude x, isNegative_toBinary32, hneg,
    (nearestIn_toBinary32 d).unique hnear]

/-! ## The distance to other numbers -/

/-- The gap below a number is at least a `2 ^ 24`th of it. -/
theorem unitsAt_succ_le (m : ℕ) : unitsAt (m + 1) ≤ 0x1000000 * 2 ^ (m / 0x800000 - 1) := by
  have hfrac : m % 0x800000 < 0x800000 := Nat.mod_lt _ (by decide)
  rw [unitsAt_succ, unitsAt]
  split_ifs with hfield
  · rw [hfield]
    omega
  · rw [← Nat.succ_mul]
    exact Nat.mul_le_mul_right _ (by omega)

theorem le_abs_unitsAt_sub {m k : ℕ} (h : k ≠ m) :
    (unitsAt m : ℚ) / 0x1000000 ≤ |(unitsAt k : ℚ) - unitsAt m| := by
  have hstep (n : ℕ) : (unitsAt (n + 1) : ℚ) = unitsAt n + 2 ^ (n / 0x800000 - 1) := by
    exact_mod_cast unitsAt_succ n
  have hgap (n : ℕ) : (unitsAt (n + 1) : ℚ) ≤ 0x1000000 * 2 ^ (n / 0x800000 - 1) := by
    exact_mod_cast unitsAt_succ_le n
  rw [div_le_iff₀ (by norm_num)]
  rcases lt_or_gt_of_ne h with hlt | hlt
  · -- The number before `m` is not below `k`.
    obtain ⟨n, rfl⟩ := Nat.exists_eq_add_one_of_ne_zero (Nat.ne_of_gt (Nat.zero_lt_of_lt hlt))
    have hle : (unitsAt k : ℚ) ≤ unitsAt n := by
      exact_mod_cast unitsAt_strictMono.monotone (Nat.le_of_lt_succ hlt)
    have hpos : (0 : ℚ) < 2 ^ (n / 0x800000 - 1) := by positivity
    rw [abs_of_neg (by linarith [hstep n])]
    linarith [hstep n, hgap n]
  · have hle : (unitsAt (m + 1) : ℚ) ≤ unitsAt k := by
      exact_mod_cast unitsAt_strictMono.monotone (Nat.succ_le_of_lt hlt)
    have hpos : (0 : ℚ) < 2 ^ (m / 0x800000 - 1) := by positivity
    rw [abs_of_pos (by linarith [hstep m])]
    linarith [hstep m, hgap m]

theorem nearestIn_of_close {top m : ℕ} {q : ℚ} (hm : m ≤ top)
    (hq : |(unitsAt m : ℚ) - q| < unitsAt m / 0x2000000) : NearestIn (Set.Iic top) q m := by
  have hfar (k : ℕ) (hk : k ≠ m) : |(unitsAt m : ℚ) - q| < |(unitsAt k : ℚ) - q| := by
    have hgap := le_abs_unitsAt_sub hk
    have htri : |(unitsAt k : ℚ) - unitsAt m| ≤ |(unitsAt k : ℚ) - q| + |(unitsAt m : ℚ) - q| := by
      rw [abs_sub_comm (unitsAt m : ℚ) q]
      exact abs_sub_le _ q _
    linarith
  refine ⟨hm, fun k _ => ?_, fun k _ hk heq => absurd heq (hfar k hk).ne⟩
  by_cases hk : k = m
  · rw [hk]
  · exact (hfar k hk).le

/-! ## The leading digit -/

/-- A ratio is not below the weight of its leading digit. -/
theorem floorLog10_le {num den : ℕ} (hnum : 0 < num) (hden : 0 < den) :
    (10 : ℚ) ^ floorLog10 num den ≤ num / den := by
  have hpos : (0 : ℚ) < den := by exact_mod_cast hden
  rw [floorLog10]
  split_ifs with h
  · have hlength := Text.length_ofNat_pos (num / den)
    have hle := Text.pow_length_ofNat_le (Nat.div_pos h hden)
    set k := (Text.ofNat (num / den)).length - 1 with hk
    rw [show ((Text.ofNat (num / den)).length : ℤ) - 1 = k by omega, zpow_natCast, le_div_iff₀ hpos]
    exact_mod_cast (Nat.le_div_iff_mul_le hden).1 hle
  · have hlt := (Text.length_ofNat_le_iff (Text.length_ofNat_pos ((den - 1) / num))).1 le_rfl
    set k := (Text.ofNat ((den - 1) / num)).length
    have hle : den ≤ num * 10 ^ k := by
      have := (Nat.div_lt_iff_lt_mul hnum).1 hlt
      rw [mul_comm] at this
      omega
    rw [zpow_neg, zpow_natCast, inv_le_comm₀ (by positivity) (by positivity), inv_div,
      div_le_iff₀ (by exact_mod_cast hnum), mul_comm]
    exact_mod_cast hle

/-! ## Rounding to significant digits -/

/-- Rounding to a multiple of a power of ten is off by at most half of it. -/
theorem roundDiv_place_error (n : ℕ) {u : ℕ} (hu : 0 < u) (place : ℤ) :
    |((if 0 ≤ place then roundDiv n (u * 10 ^ place.toNat)
      else roundDiv (n * 10 ^ (-place).toNat) u : ℕ) : ℚ) * 10 ^ place - n / u| ≤
        10 ^ place / 2 := by
  have hweight : (0 : ℚ) < 10 ^ place := by positivity
  -- In both cases the rounded ratio is `n / u`, counted in that power of ten.
  have hscale {digits num den : ℕ} (herror : |(digits : ℚ) - num / den| ≤ 1 / 2)
      (hratio : (num : ℚ) / den = n / u / 10 ^ place) :
      |(digits : ℚ) * 10 ^ place - n / u| ≤ 10 ^ place / 2 := by
    rw [hratio] at herror
    have heq : (digits : ℚ) * 10 ^ place - n / u = (digits - n / u / 10 ^ place) * 10 ^ place := by
      rw [sub_mul, div_mul_cancel₀ _ hweight.ne']
    rw [heq, abs_mul, abs_of_pos hweight]
    calc |(digits : ℚ) - n / u / 10 ^ place| * 10 ^ place ≤ 1 / 2 * 10 ^ place :=
          mul_le_mul_of_nonneg_right herror hweight.le
      _ = 10 ^ place / 2 := by ring
  split_ifs with h
  · obtain ⟨k, rfl⟩ := Int.eq_ofNat_of_zero_le h
    refine hscale (roundDiv_error n (Nat.mul_pos hu (Nat.pow_pos (by decide)))).1 ?_
    rw [Int.toNat_natCast, zpow_natCast, Nat.cast_mul, Nat.cast_pow, ← div_div, Nat.cast_ofNat]
  · obtain ⟨k, hk⟩ := Int.eq_ofNat_of_zero_le (by omega : 0 ≤ -place)
    refine hscale (roundDiv_error _ hu).1 ?_
    rw [hk, show place = -(k : ℤ) by omega, Int.toNat_natCast, zpow_neg, zpow_natCast, Nat.cast_mul,
      Nat.cast_pow, div_inv_eq_mul, Nat.cast_ofNat, mul_div_right_comm]

/-- The place of the last of `p` significant digits. -/
def lastPlace (p : ℕ) (x : Binary32) : ℤ := floorLog10 x.units unitsPerOne - (p - 1)

/-- Rounding to significant digits is off by at most half of the last place. A carry into one digit
more changes the digits and the exponent, but not the number. -/
theorem size_significant_error {p : ℕ} (hp : 0 < p) (x : Binary32) :
    |(x.significant p).size - x.size| ≤ 10 ^ x.lastPlace p / 2 := by
  obtain ⟨digits, hdigits, herror⟩ : ∃ digits : ℕ,
      x.significant p = (if digits = 10 ^ p then ⟨x.isNegative, 10 ^ (p - 1), x.lastPlace p + 1⟩
        else ⟨x.isNegative, digits, x.lastPlace p⟩) ∧
      |(digits : ℚ) * 10 ^ x.lastPlace p - x.size| ≤ 10 ^ x.lastPlace p / 2 :=
    ⟨_, rfl, roundDiv_place_error x.units (Nat.pow_pos (by decide)) (x.lastPlace p)⟩
  have hsize : (x.significant p).size = digits * 10 ^ x.lastPlace p := by
    rw [hdigits]
    split_ifs with hcarry
    · rw [Decimal.size, hcarry, zpow_add_one₀ (by norm_num), Nat.cast_pow, Nat.cast_pow,
        ← Nat.sub_add_cancel hp, pow_succ, Nat.add_sub_cancel]
      push_cast
      ring
    · rfl
  rw [hsize]
  exact herror

theorem units_pos {x : Binary32} (hx : x.isZero = false) : 0 < x.units := by
  have hmagnitude : 0 < x.magnitude := Nat.pos_of_ne_zero (by simpa [isZero] using hx)
  exact Nat.zero_lt_of_lt (unitsAt_strictMono hmagnitude)

theorem pow_lastPlace_le {p : ℕ} (hp : 0 < p) {x : Binary32} (hx : x.isZero = false) :
    (10 : ℚ) ^ x.lastPlace p ≤ x.size / 10 ^ (p - 1) := by
  have hlead := floorLog10_le (units_pos hx) (Nat.pow_pos (by decide) : 0 < unitsPerOne)
  rw [lastPlace, show (p : ℤ) - 1 = (p - 1 : ℕ) by omega, zpow_sub₀ (by norm_num), zpow_natCast]
  exact div_le_div_of_nonneg_right hlead (by positivity)

theorem digits_significant_ne_zero {p : ℕ} (hp : 0 < p) {x : Binary32} (hx : x.isZero = false) :
    (x.significant p).digits ≠ 0 := by
  intro hdigits
  have herror := size_significant_error hp x
  have hplace : (0 : ℚ) < 10 ^ x.lastPlace p := by positivity
  have hsize : 0 ≤ x.size := div_nonneg (Nat.cast_nonneg _) unitsPerOne_pos.le
  have hle : x.size / 10 ^ (p - 1) ≤ x.size :=
    div_le_self hsize (one_le_pow₀ (by norm_num))
  -- Zero would be off by the whole number, which is at least the last place.
  rw [Decimal.size, hdigits, Nat.cast_zero, zero_mul, zero_sub, abs_neg, abs_of_nonneg hsize]
    at herror
  linarith [pow_lastPlace_le hp hx]

/-- **Nine digits suffice.** The decimal number with nine digits that is nearest to a binary32
number is nearer to it than to any other. -/
theorem nearestIn_significant_nine {x : Binary32} (hfinite : x.isFinite = true)
    (hx : x.isZero = false) :
    NearestIn (Set.Iic infiniteMagnitude) ((x.significant 9).size * unitsPerOne) x.magnitude := by
  have hone := unitsPerOne_pos
  have hsize : 0 < x.size := div_pos (by exact_mod_cast units_pos hx) hone
  have hplace := pow_lastPlace_le (by decide : 0 < 9) hx
  have herror := size_significant_error (by decide : 0 < 9) x
  refine nearestIn_of_close (le_of_lt (by simpa [isFinite] using hfinite)) ?_
  rw [← units_eq_unitsAt, ← div_mul_cancel₀ (x.units : ℚ) hone.ne', ← size, ← sub_mul, abs_mul,
    abs_of_pos hone, mul_div_right_comm, abs_sub_comm]
  refine mul_lt_mul_of_pos_right ?_ hone
  linarith

end Binary32

end SlotLisp
