import Mathlib.Algebra.Order.Field.Basic
import Mathlib.Algebra.Order.Ring.Rat
import Mathlib.Order.Monotone.Basic
import Mathlib.Tactic.FieldSimp
import Mathlib.Tactic.Linarith
import Mathlib.Tactic.Ring
import SlotLisp.Decimal

/-!
# Rounding is correct

A nonnegative rational number is rounded to the binary32 number nearest to it, and of two equally
near ones to the one with an even last bit. `Binary32.IsNearest` says this without an algorithm.
Infinity takes part in the comparison as `2 ^ 128`, the number that would follow the largest finite
one if there were more exponents. So what is too large becomes infinite, from the midpoint on.

**Theorems (`isNearest_nearest`, `IsNearest.unique`).** The computed number is nearest, and it is
the only one.

**Theorems (`rounds_add`, `rounds_mul`).** Sums and products of finite numbers are the exact
results, rounded once.

Magnitudes count the nonnegative numbers in order, so everything is proved about `unitsAt`, the
size of the number with a given magnitude.
-/

namespace SlotLisp.Binary32

/-! ## The numbers in order -/

/-- The size in units of the number with a given magnitude. -/
def unitsAt (m : ℕ) : ℕ :=
  if m / 0x800000 = 0 then m % 0x800000
  else (0x800000 + m % 0x800000) * 2 ^ (m / 0x800000 - 1)

theorem units_eq_unitsAt (x : Binary32) : x.units = unitsAt x.magnitude := rfl

/-- The distance to the next number is set by the exponent field. -/
theorem unitsAt_succ (m : ℕ) : unitsAt (m + 1) = unitsAt m + 2 ^ (m / 0x800000 - 1) := by
  obtain ⟨f, c, hc, rfl⟩ : ∃ f c, c < 0x800000 ∧ m = 0x800000 * f + c :=
    ⟨m / 0x800000, m % 0x800000, Nat.mod_lt _ (by decide), (Nat.div_add_mod _ _).symm⟩
  have hdiv : (0x800000 * f + c) / 0x800000 = f := by omega
  have hmod : (0x800000 * f + c) % 0x800000 = c := by omega
  unfold unitsAt
  rw [hdiv, hmod]
  by_cases hcarry : c + 1 < 0x800000
  · have hdiv' : (0x800000 * f + c + 1) / 0x800000 = f := by omega
    have hmod' : (0x800000 * f + c + 1) % 0x800000 = c + 1 := by omega
    rw [hdiv', hmod']
    split_ifs with hf
    · simp [hf]
    · ring
  · have hdiv' : (0x800000 * f + c + 1) / 0x800000 = f + 1 := by omega
    have hmod' : (0x800000 * f + c + 1) % 0x800000 = 0 := by omega
    obtain rfl : c = 0x7fffff := by omega
    rw [hdiv', hmod', if_neg (Nat.succ_ne_zero f)]
    cases f with
    | zero => rfl
    | succ f => simp only [Nat.add_sub_cancel, Nat.succ_ne_zero, if_false]; ring

theorem unitsAt_strictMono : StrictMono unitsAt := by
  refine strictMono_nat_of_lt_succ fun m => ?_
  rw [unitsAt_succ]
  exact Nat.lt_add_of_pos_right (Nat.pow_pos (by decide))

/-- Leading bits above a scale make a number, also when they carry into the next exponent. -/
theorem unitsAt_scaled {e r : ℕ} (hr : r ≤ 0x1000000) (he : e = 0 ∨ 0x800000 ≤ r) :
    unitsAt (e * 0x800000 + r) = r * 2 ^ e := by
  by_cases hsmall : r < 0x800000
  · obtain rfl : e = 0 := by omega
    have hdiv : (0 * 0x800000 + r) / 0x800000 = 0 := by omega
    have hmod : (0 * 0x800000 + r) % 0x800000 = r := by omega
    rw [unitsAt, hdiv, hmod, if_pos rfl, pow_zero, mul_one]
  · by_cases hcarry : r = 0x1000000
    · subst hcarry
      have hdiv : (e * 0x800000 + 0x1000000) / 0x800000 = e + 2 := by omega
      have hmod : (e * 0x800000 + 0x1000000) % 0x800000 = 0 := by omega
      rw [unitsAt, hdiv, hmod, if_neg (by omega), show e + 2 - 1 = e + 1 by omega, pow_succ]
      ring
    · have hdiv : (e * 0x800000 + r) / 0x800000 = e + 1 := by omega
      have hmod : (e * 0x800000 + r) % 0x800000 = r - 0x800000 := by omega
      rw [unitsAt, hdiv, hmod, if_neg (by omega), Nat.add_sub_cancel,
        Nat.add_sub_cancel' (by omega : 0x800000 ≤ r)]

/-- A number is a multiple of the scale, or it is smaller than all numbers that have the scale. -/
theorem unitsAt_grid (e m : ℕ) :
    (∃ c, unitsAt m = c * 2 ^ e) ∨ 0 < e ∧ unitsAt m < 0x800000 * 2 ^ e := by
  have hfrac : m % 0x800000 < 0x800000 := Nat.mod_lt _ (by decide)
  by_cases hfield : e < m / 0x800000
  · refine Or.inl ⟨(0x800000 + m % 0x800000) * 2 ^ (m / 0x800000 - 1 - e), ?_⟩
    rw [unitsAt, if_neg (by omega), mul_assoc, ← pow_add]
    congr 2
    omega
  · by_cases he : e = 0
    · exact Or.inl ⟨unitsAt m, by simp [he]⟩
    · refine Or.inr ⟨Nat.pos_of_ne_zero he, ?_⟩
      have hlt : m < 0x800000 * (e + 1) := by omega
      have hnext : unitsAt (e * 0x800000 + 0x800000) = 0x800000 * 2 ^ e :=
        unitsAt_scaled (by decide) (Or.inr le_rfl)
      rw [← hnext]
      exact unitsAt_strictMono (by omega)

/-! ## Rounding to whole numbers -/

theorem roundDiv_error (num : ℕ) {den : ℕ} (hden : 0 < den) :
    |(roundDiv num den : ℚ) - num / den| ≤ 1 / 2 ∧
      (|(roundDiv num den : ℚ) - num / den| = 1 / 2 → roundDiv num den % 2 = 0) := by
  have hpos : (0 : ℚ) < den := by exact_mod_cast hden
  have hrem : num % den < den := Nat.mod_lt _ hden
  have hquot : (num : ℚ) / den = (num / den : ℕ) + (num % den : ℕ) / den := by
    rw [eq_comm, ← sub_eq_zero]
    field_simp
    have := Nat.div_add_mod num den
    have hcast : (den : ℚ) * (num / den : ℕ) + (num % den : ℕ) = num := by exact_mod_cast this
    linarith
  set q := num / den
  set r := num % den
  have hr₀ : (0 : ℚ) ≤ r / den := by positivity
  have hr₁ : (r : ℚ) / den < 1 := by
    rw [div_lt_one hpos]
    exact_mod_cast hrem
  have half_lt : 1 / 2 < (r : ℚ) / den ↔ den < 2 * r := by
    rw [div_lt_div_iff₀ two_pos hpos, one_mul, mul_comm (r : ℚ)]
    exact_mod_cast Iff.rfl
  have half_eq : (r : ℚ) / den = 1 / 2 ↔ 2 * r = den := by
    rw [div_eq_div_iff hpos.ne' two_ne_zero, one_mul, mul_comm (r : ℚ)]
    exact_mod_cast Iff.rfl
  rw [hquot]
  unfold roundDiv
  simp only [Bool.or_eq_true, Bool.and_eq_true, decide_eq_true_eq]
  split_ifs with hup
  · -- Rounded up: the remainder is at least one half, and if it is one half, `q` is odd.
    have hge : 1 / 2 ≤ (r : ℚ) / den := by
      rcases hup with h | ⟨h, -⟩
      · exact (half_lt.2 h).le
      · exact (half_eq.2 h).ge
    have habs : |((q + 1 : ℕ) : ℚ) - (q + r / den)| = 1 - r / den := by
      rw [show ((q + 1 : ℕ) : ℚ) - (q + r / den) = 1 - r / den by push_cast; ring]
      exact abs_of_nonneg (by linarith)
    rw [habs]
    refine ⟨by linarith, ?_⟩
    intro h
    have heq := half_eq.1 (by linarith : (r : ℚ) / den = 1 / 2)
    change (q + 1) % 2 = 0
    omega
  · have hle : (r : ℚ) / den ≤ 1 / 2 := not_lt.1 fun h => hup (Or.inl (half_lt.1 h))
    have habs : |(q : ℚ) - (q + r / den)| = r / den := by
      rw [show (q : ℚ) - (q + r / den) = -(r / den) by ring, abs_neg, abs_of_nonneg hr₀]
    rw [habs]
    refine ⟨hle, ?_⟩
    intro h
    have heq := half_eq.1 h
    change q % 2 = 0
    omega

/-- An integer within one half is nearest, and another one is as near only at a midpoint. -/
theorem le_abs_sub_of_half {t : ℚ} {r : ℕ} (h : |(r : ℚ) - t| ≤ 1 / 2) (c : ℕ) :
    |(r : ℚ) - t| ≤ |(c : ℚ) - t| ∧
      (c ≠ r → |(r : ℚ) - t| = |(c : ℚ) - t| → |(r : ℚ) - t| = 1 / 2) := by
  by_cases hc : c = r
  · subst hc
    exact ⟨le_rfl, fun hne => absurd rfl hne⟩
  · have hone : (1 : ℚ) ≤ |(c : ℚ) - r| := by
      have hint : (1 : ℤ) ≤ |(c : ℤ) - r| := Int.one_le_abs (by omega)
      exact_mod_cast hint
    have htri : |(c : ℚ) - r| ≤ |(c : ℚ) - t| + |(r : ℚ) - t| := by
      rw [abs_sub_comm (r : ℚ) t]
      exact abs_sub_le (c : ℚ) t r
    exact ⟨by linarith, fun _ heq => by linarith⟩

/-! ## The nearest magnitude -/

/-- Among the magnitudes in `S`, `m` is that of the number nearest to `q` units. Of two equally near
ones it is the even one. -/
structure NearestIn (S : Set ℕ) (q : ℚ) (m : ℕ) : Prop where
  mem : m ∈ S
  le : ∀ k ∈ S, |(unitsAt m : ℚ) - q| ≤ |(unitsAt k : ℚ) - q|
  even : ∀ k ∈ S, k ≠ m → |(unitsAt m : ℚ) - q| = |(unitsAt k : ℚ) - q| → m % 2 = 0

/-- The leading bits of a ratio of at least `2 ^ 24` units are 24 bits. -/
theorem scale_bounds {num den e : ℕ} (hden : 0 < den) (he : (num / den).log2 - 23 = e) :
    (num : ℚ) / den < 0x1000000 * 2 ^ e ∧ (0 < e → (0x800000 : ℚ) * 2 ^ e ≤ num / den) := by
  have hpos : (0 : ℚ) < den := by exact_mod_cast hden
  have hlt : num / den < 2 ^ (e + 24) :=
    lt_of_lt_of_le Nat.lt_log2_self (Nat.pow_le_pow_right (by decide) (by omega))
  constructor
  · rw [div_lt_iff₀ hpos]
    have := (Nat.div_lt_iff_lt_mul hden).1 hlt
    rw [pow_add, mul_comm (2 ^ e)] at this
    exact_mod_cast this
  · intro hpe
    have hne : num / den ≠ 0 := by
      intro h
      rw [h, Nat.log2_zero] at he
      omega
    have hle : 2 ^ (e + 23) ≤ num / den := by
      rw [show e + 23 = (num / den).log2 by omega]
      exact Nat.log2_self_le hne
    rw [le_div_iff₀ hpos]
    have := (Nat.le_div_iff_mul_le hden).1 hle
    rw [pow_add, mul_comm (2 ^ e)] at this
    exact_mod_cast this

/-- The leading bits are rounded as whole numbers. -/
theorem leading_error (num : ℕ) {den : ℕ} (hden : 0 < den) (e : ℕ) :
    |(roundDiv num (den * 2 ^ e) : ℚ) - num / den / 2 ^ e| ≤ 1 / 2 ∧
      (|(roundDiv num (den * 2 ^ e) : ℚ) - num / den / 2 ^ e| = 1 / 2 →
        roundDiv num (den * 2 ^ e) % 2 = 0) := by
  have h := roundDiv_error num (Nat.mul_pos hden (Nat.pow_pos (n := e) two_pos))
  rw [Nat.cast_mul, Nat.cast_pow, ← div_div] at h
  exact_mod_cast h

/-- Rounding may carry into a 25th bit, but where bits are dropped it keeps 24 of them. -/
theorem leading_bounds {num den e : ℕ} (hden : 0 < den) (he : (num / den).log2 - 23 = e) :
    roundDiv num (den * 2 ^ e) ≤ 0x1000000 ∧
      (e = 0 ∨ 0x800000 ≤ roundDiv num (den * 2 ^ e)) := by
  have hscale : (0 : ℚ) < 2 ^ e := by positivity
  obtain ⟨hhi, hlo⟩ := scale_bounds hden he
  obtain ⟨hbelow, habove⟩ := abs_le.1 (leading_error num hden e).1
  set r := roundDiv num (den * 2 ^ e)
  constructor
  · have hq : (num : ℚ) / den / 2 ^ e < 0x1000000 := (div_lt_iff₀ hscale).2 hhi
    have hcast : (r : ℚ) < 0x1000000 + 1 := by linarith
    have hlt : r < 0x1000000 + 1 := by exact_mod_cast hcast
    exact Nat.le_of_lt_succ hlt
  · by_cases hzero : e = 0
    · exact Or.inl hzero
    · have hq : (0x800000 : ℚ) ≤ num / den / 2 ^ e :=
        (le_div_iff₀ hscale).2 (hlo (Nat.pos_of_ne_zero hzero))
      have hcast : (0x800000 : ℚ) < r + 1 := by linarith
      have hlt : 0x800000 < r + 1 := by exact_mod_cast hcast
      exact Or.inr (Nat.le_of_lt_succ hlt)

/-- Among the multiples of the scale, the rounded one is nearest, and another one is as near only at
a midpoint. -/
theorem nearest_multiple {q : ℚ} {e r : ℕ} (herr : |(r : ℚ) - q / 2 ^ e| ≤ 1 / 2) (c : ℕ) :
    |(r : ℚ) * 2 ^ e - q| ≤ |(c : ℚ) * 2 ^ e - q| ∧
      (c ≠ r → |(r : ℚ) * 2 ^ e - q| = |(c : ℚ) * 2 ^ e - q| → |(r : ℚ) - q / 2 ^ e| = 1 / 2) := by
  have hscale : (0 : ℚ) < 2 ^ e := by positivity
  -- Distances in units are distances of leading bits, scaled.
  have hdist (d : ℚ) : |d * 2 ^ e - q| = |d - q / 2 ^ e| * 2 ^ e := by
    rw [← abs_of_pos hscale, ← abs_mul, abs_of_pos hscale, sub_mul, div_mul_cancel₀ _ hscale.ne']
  obtain ⟨hle, hhalf⟩ := le_abs_sub_of_half herr c
  rw [hdist, hdist]
  constructor
  · exact mul_le_mul_of_nonneg_right hle hscale.le
  · intro hne heq
    exact hhalf hne (mul_right_cancel₀ hscale.ne' heq)

/-- Below the scale, numbers are farther away than the least one that has it. -/
theorem lt_abs_of_below_scale {q : ℚ} {e r u : ℕ} (herr : |(r : ℚ) - q / 2 ^ e| ≤ 1 / 2)
    (hq : (0x800000 : ℚ) * 2 ^ e ≤ q) (hu : u < 0x800000 * 2 ^ e) :
    |(r : ℚ) * 2 ^ e - q| < |(u : ℚ) - q| := by
  have hcast : (u : ℚ) < 0x800000 * 2 ^ e := by exact_mod_cast hu
  have hleast := (nearest_multiple herr 0x800000).1
  rw [Nat.cast_ofNat, abs_of_nonpos (sub_nonpos.2 hq)] at hleast
  rw [abs_of_neg (show (u : ℚ) - q < 0 by linarith)]
  linarith

/-- Rounding the leading bits gives the nearest number, if there were no largest one. -/
theorem nearestIn_univ {num den e : ℕ} (hden : 0 < den) (he : (num / den).log2 - 23 = e) :
    NearestIn Set.univ (num / den) (e * 0x800000 + roundDiv num (den * 2 ^ e)) := by
  obtain ⟨-, hlo⟩ := scale_bounds hden he
  obtain ⟨herr, htie⟩ := leading_error num hden e
  obtain ⟨hr, hre⟩ := leading_bounds hden he
  set r := roundDiv num (den * 2 ^ e)
  have hunits : (unitsAt (e * 0x800000 + r) : ℚ) = r * 2 ^ e := by
    rw [unitsAt_scaled hr hre, Nat.cast_mul, Nat.cast_pow, Nat.cast_ofNat]
  refine ⟨Set.mem_univ _, ?_, ?_⟩
  · intro k _
    rw [hunits]
    rcases unitsAt_grid e k with ⟨c, hc⟩ | ⟨hpe, hk⟩
    · rw [hc, Nat.cast_mul, Nat.cast_pow, Nat.cast_ofNat]
      exact (nearest_multiple herr c).1
    · exact (lt_abs_of_below_scale herr (hlo hpe) hk).le
  · intro k _ hne heq
    rw [hunits] at heq
    rcases unitsAt_grid e k with ⟨c, hc⟩ | ⟨hpe, hk⟩
    · have hcr : c ≠ r := by
        intro h
        subst h
        exact hne (unitsAt_strictMono.injective (by rw [hc, unitsAt_scaled hr hre]))
      rw [hc, Nat.cast_mul, Nat.cast_pow, Nat.cast_ofNat] at heq
      have heven := htie ((nearest_multiple herr c).2 hcr heq)
      omega
    · exact absurd heq (lt_abs_of_below_scale herr (hlo hpe) hk).ne

/-- Where there is a largest number, it takes the part of all that would follow. -/
theorem NearestIn.clip {q : ℚ} {m : ℕ} (h : NearestIn Set.univ q m) (top : ℕ) :
    NearestIn (Set.Iic top) q (min m top) := by
  by_cases hm : m ≤ top
  · rw [min_eq_left hm]
    exact ⟨hm, fun k _ => h.le k trivial, fun k _ => h.even k trivial⟩
  · rw [not_le] at hm
    rw [min_eq_right hm.le]
    have htop : (unitsAt top : ℚ) < unitsAt m := by exact_mod_cast unitsAt_strictMono hm
    -- Otherwise the top would be nearer than `m`.
    have hq : (unitsAt top : ℚ) ≤ q := by
      by_contra hlt
      rw [not_le] at hlt
      have hle := h.le top trivial
      rw [abs_of_pos (by linarith), abs_of_pos (by linarith)] at hle
      linarith
    have hbelow (k : ℕ) (hk : k < top) : |(unitsAt top : ℚ) - q| < |(unitsAt k : ℚ) - q| := by
      have hlt : (unitsAt k : ℚ) < unitsAt top := by exact_mod_cast unitsAt_strictMono hk
      rw [abs_of_nonpos (by linarith), abs_of_neg (by linarith)]
      linarith
    refine ⟨Set.mem_Iic.2 le_rfl, ?_, ?_⟩
    · intro k hk
      rcases lt_or_eq_of_le (Set.mem_Iic.1 hk) with hlt | rfl
      · exact (hbelow k hlt).le
      · exact le_rfl
    · intro k hk hne heq
      exact absurd heq (hbelow k (lt_of_le_of_ne (Set.mem_Iic.1 hk) hne)).ne

/-- Two equally near numbers are neighbours, and of these only one is even. -/
theorem NearestIn.magnitude_le {top : ℕ} {q : ℚ} {m k : ℕ} (hm : NearestIn (Set.Iic top) q m)
    (hk : NearestIn (Set.Iic top) q k) : k ≤ m := by
  by_contra hlt
  rw [not_le] at hlt
  have heq : |(unitsAt m : ℚ) - q| = |(unitsAt k : ℚ) - q| :=
    le_antisymm (hm.le k hk.mem) (hk.le m hm.mem)
  have heven₁ := hm.even k hk.mem hlt.ne' heq
  have heven₂ := hk.even m hm.mem hlt.ne heq.symm
  -- The number after `m` lies strictly between the two, so it is nearer than both.
  have hnext : m + 1 < k := by omega
  have hlow : (unitsAt m : ℚ) < unitsAt (m + 1) := by
    exact_mod_cast unitsAt_strictMono (Nat.lt_succ_self m)
  have hhigh : (unitsAt (m + 1) : ℚ) < unitsAt k := by exact_mod_cast unitsAt_strictMono hnext
  have hmid : q - unitsAt m = unitsAt k - q := by
    rcases abs_eq_abs.1 heq with h | h <;> linarith
  have hle := hm.le (m + 1) (Set.mem_Iic.2 (le_trans hnext.le (Set.mem_Iic.1 hk.mem)))
  rw [abs_of_neg (by linarith)] at hle
  have hnear : |(unitsAt (m + 1) : ℚ) - q| < q - unitsAt m := abs_lt.2 ⟨by linarith, by linarith⟩
  linarith

theorem NearestIn.unique {top : ℕ} {q : ℚ} {m k : ℕ} (hm : NearestIn (Set.Iic top) q m)
    (hk : NearestIn (Set.Iic top) q k) : m = k :=
  le_antisymm (hk.magnitude_le hm) (hm.magnitude_le hk)

/-! ## The nearest number -/

/-- The absolute value of a number. Infinity counts as `2 ^ 128`. -/
def size (x : Binary32) : ℚ := x.units / unitsPerOne

/-- `x` is the number nearest to the nonnegative `q`. Of two equally near ones it is the one with an
even last bit. -/
structure IsNearest (q : ℚ) (x : Binary32) : Prop where
  isNegative : x.isNegative = false
  isNaN : x.isNaN = false
  le : ∀ y : Binary32, y.isNaN = false → |x.size - q| ≤ |y.size - q|
  even : ∀ y : Binary32, y.isNaN = false → y.size ≠ x.size → |x.size - q| = |y.size - q| →
    x.magnitude % 2 = 0

theorem magnitude_ofMagnitude {m : ℕ} (negative : Bool) (hm : m < 0x80000000) :
    (ofMagnitude negative m).magnitude = m := by
  rw [magnitude, ofMagnitude]
  cases negative <;> simp <;> omega

theorem isNegative_ofMagnitude {m : ℕ} (negative : Bool) (hm : m < 0x80000000) :
    (ofMagnitude negative m).isNegative = negative := by
  rw [isNegative, ofMagnitude]
  cases negative <;> simp <;> omega

/-- A number is its sign and its magnitude. -/
theorem ofMagnitude_magnitude (x : Binary32) : ofMagnitude x.isNegative x.magnitude = x := by
  obtain ⟨bits⟩ := x
  have hlt := bits.toNat_lt
  simp only [ofMagnitude, isNegative, magnitude, decide_eq_true_eq, mk.injEq]
  rw [← UInt32.toNat_inj, UInt32.toNat_ofNat']
  split <;> omega

theorem isNaN_eq_false_iff (x : Binary32) :
    x.isNaN = false ↔ x.magnitude ∈ Set.Iic infiniteMagnitude := by
  simp [isNaN]

theorem unitsPerOne_pos : (0 : ℚ) < unitsPerOne := by
  exact_mod_cast (Nat.pow_pos (by decide) : 0 < unitsPerOne)

theorem abs_size_sub (x : Binary32) (q : ℚ) :
    |x.size - q| = |(unitsAt x.magnitude : ℚ) - q * unitsPerOne| / unitsPerOne := by
  have hpos := unitsPerOne_pos
  rw [← abs_of_pos hpos, ← abs_div, abs_of_pos hpos, sub_div, mul_div_cancel_right₀ _ hpos.ne',
    size, units_eq_unitsAt]

theorem size_inj {x y : Binary32} : x.size = y.size ↔ x.magnitude = y.magnitude := by
  rw [size, size, div_left_inj' unitsPerOne_pos.ne', Nat.cast_inj, units_eq_unitsAt,
    units_eq_unitsAt, unitsAt_strictMono.injective.eq_iff]

theorem size_lt_iff {x y : Binary32} : x.size < y.size ↔ x.magnitude < y.magnitude := by
  rw [size, size, div_lt_div_iff_of_pos_right unitsPerOne_pos, Nat.cast_lt, units_eq_unitsAt,
    units_eq_unitsAt, unitsAt_strictMono.lt_iff_lt]

/-- Numbers are compared by their magnitudes. -/
theorem isNearest_iff (q : ℚ) (x : Binary32) :
    IsNearest q x ↔ x.isNegative = false ∧
      NearestIn (Set.Iic infiniteMagnitude) (q * unitsPerOne) x.magnitude := by
  have hpos := unitsPerOne_pos
  -- Every magnitude up to that of infinity is the magnitude of some number.
  have hex (k : ℕ) (hk : k ∈ Set.Iic infiniteMagnitude) :
      ∃ y : Binary32, y.isNaN = false ∧ y.magnitude = k := by
    have hlt : k < 0x80000000 := lt_of_le_of_lt (Set.mem_Iic.1 hk) (by decide)
    have hmag := magnitude_ofMagnitude false hlt
    exact ⟨ofMagnitude false k, (isNaN_eq_false_iff _).2 (by rw [hmag]; exact hk), hmag⟩
  constructor
  · intro h
    obtain ⟨hneg, hnan, hle, heven⟩ := h
    refine ⟨hneg, (isNaN_eq_false_iff x).1 hnan, ?_, ?_⟩
    · intro k hk
      obtain ⟨y, hy, rfl⟩ := hex k hk
      have := hle y hy
      rwa [abs_size_sub, abs_size_sub, div_le_div_iff_of_pos_right hpos] at this
    · intro k hk hne heq
      obtain ⟨y, hy, rfl⟩ := hex k hk
      refine heven y hy (fun h => hne (size_inj.1 h)) ?_
      rw [abs_size_sub, abs_size_sub, heq]
  · intro h
    obtain ⟨hneg, hmem, hle, heven⟩ := h
    refine ⟨hneg, (isNaN_eq_false_iff x).2 hmem, ?_, ?_⟩
    · intro y hy
      rw [abs_size_sub, abs_size_sub, div_le_div_iff_of_pos_right hpos]
      exact hle y.magnitude ((isNaN_eq_false_iff y).1 hy)
    · intro y hy hne heq
      refine heven y.magnitude ((isNaN_eq_false_iff y).1 hy) (fun h => hne (size_inj.2 h)) ?_
      rwa [abs_size_sub, abs_size_sub, div_left_inj' hpos.ne'] at heq

theorem nearestMagnitude_lt (num den : ℕ) : nearestMagnitude num den < 0x80000000 :=
  lt_of_le_of_lt (min_le_right _ _) (by decide)

theorem isNegative_nearest (negative : Bool) (num den : ℕ) :
    (nearest negative num den).isNegative = negative :=
  isNegative_ofMagnitude negative (nearestMagnitude_lt num den)

theorem nearestIn_nearest (negative : Bool) (num : ℕ) {den : ℕ} (hden : 0 < den) :
    NearestIn (Set.Iic infiniteMagnitude) (num / den) (nearest negative num den).magnitude := by
  rw [nearest, magnitude_ofMagnitude negative (nearestMagnitude_lt num den)]
  exact (nearestIn_univ hden rfl).clip infiniteMagnitude

/-- **Rounding is correct.** The computed number is nearest to the ratio, which is in units. -/
theorem isNearest_nearest (num : ℕ) {den : ℕ} (hden : 0 < den) :
    IsNearest (num / den / unitsPerOne) (nearest false num den) := by
  rw [isNearest_iff, isNegative_nearest, div_mul_cancel₀ _ unitsPerOne_pos.ne']
  exact ⟨rfl, nearestIn_nearest false num hden⟩

/-- There is only one nearest number. -/
theorem IsNearest.unique {q : ℚ} {x y : Binary32} (hx : IsNearest q x) (hy : IsNearest q y) :
    x = y := by
  obtain ⟨hxneg, hx⟩ := (isNearest_iff q x).1 hx
  obtain ⟨hyneg, hy⟩ := (isNearest_iff q y).1 hy
  rw [← ofMagnitude_magnitude x, ← ofMagnitude_magnitude y, hxneg, hyneg, hx.unique hy]

/-! ## Sums and products -/

/-- The value of a finite number. -/
def value (x : Binary32) : ℚ := x.signedUnits / unitsPerOne

/-- `x` is `q`, rounded once: it has the sign that is given, which decides between the two zeros,
and the size nearest to that of `q`. -/
structure Rounds (negative : Bool) (q : ℚ) (x : Binary32) : Prop where
  isNegative : x.isNegative = negative
  nearest : NearestIn (Set.Iic infiniteMagnitude) (|q| * unitsPerOne) x.magnitude

theorem Rounds.unique {negative : Bool} {q : ℚ} {x y : Binary32} (hx : Rounds negative q x)
    (hy : Rounds negative q y) : x = y := by
  rw [← ofMagnitude_magnitude x, ← ofMagnitude_magnitude y, hx.isNegative, hy.isNegative,
    hx.nearest.unique hy.nearest]

theorem rounds_zero (negative : Bool) : Rounds negative 0 (ofMagnitude negative 0) := by
  refine ⟨isNegative_ofMagnitude negative (by decide), ?_⟩
  rw [magnitude_ofMagnitude negative (by decide)]
  have hzero : (unitsAt 0 : ℚ) = 0 := by simp [unitsAt]
  exact ⟨by simp, by simp [hzero], by simp⟩

theorem rounds_nearest (negative : Bool) {num den : ℕ} (hden : 0 < den) {q : ℚ}
    (hq : |q| * unitsPerOne = num / den) :
    Rounds negative q (Binary32.nearest negative num den) := by
  refine ⟨isNegative_nearest negative num den, ?_⟩
  rw [hq]
  exact nearestIn_nearest negative num hden

theorem abs_value_mul (x : Binary32) : |x.value| * unitsPerOne = x.units := by
  have hpos := unitsPerOne_pos
  have habs : |(x.signedUnits : ℚ)| = x.units := by
    rw [signedUnits]
    split <;> simp
  rw [value, abs_div, abs_of_pos hpos, habs, div_mul_cancel₀ _ hpos.ne']

section Finite

variable {x y : Binary32} (hx : x.isFinite = true) (hy : y.isFinite = true)
include hx

theorem isNaN_of_isFinite : x.isNaN = false := by
  simp only [isFinite, isNaN, decide_eq_true_eq, decide_eq_false_iff_not] at hx ⊢
  omega

theorem isInfinite_of_isFinite : x.isInfinite = false := by
  simp only [isFinite, isInfinite, decide_eq_true_eq, decide_eq_false_iff_not] at hx ⊢
  omega

include hy

/-- **The sum is the exact sum, rounded once.** A zero is negative only if both numbers are. -/
theorem rounds_add :
    Rounds (if x.value + y.value = 0 then x.isNegative && y.isNegative
      else decide (x.value + y.value < 0)) (x.value + y.value) (x + y) := by
  have hpos := unitsPerOne_pos
  have hsum : x.value + y.value = ((x.signedUnits + y.signedUnits : ℤ) : ℚ) / unitsPerOne := by
    rw [value, value, ← add_div, Int.cast_add]
  show Rounds _ _ (add x y)
  simp only [add, isNaN_of_isFinite hx, isNaN_of_isFinite hy, isInfinite_of_isFinite hx,
    isInfinite_of_isFinite hy, Bool.false_eq_true, if_false]
  rw [hsum]
  by_cases hzero : x.signedUnits + y.signedUnits = 0
  · simpa [hzero] using rounds_zero _
  · have hne : ((x.signedUnits + y.signedUnits : ℤ) : ℚ) / unitsPerOne ≠ 0 :=
      div_ne_zero (by exact_mod_cast hzero) hpos.ne'
    have hneg : ((x.signedUnits + y.signedUnits : ℤ) : ℚ) / unitsPerOne < 0 ↔
        x.signedUnits + y.signedUnits < 0 := by
      rw [div_lt_iff₀ hpos, zero_mul]
      exact_mod_cast Iff.rfl
    rw [if_neg hne, if_neg hzero, decide_eq_decide.2 hneg]
    apply rounds_nearest _ one_pos
    rw [abs_div, abs_of_pos hpos, div_mul_cancel₀ _ hpos.ne', Nat.cast_one, div_one,
      Nat.cast_natAbs, Int.cast_abs]

/-- **The product is the exact product, rounded once.** -/
theorem rounds_mul : Rounds (x.isNegative ^^ y.isNegative) (x.value * y.value) (x * y) := by
  show Rounds _ _ (mul x y)
  simp only [mul, isNaN_of_isFinite hx, isNaN_of_isFinite hy, isInfinite_of_isFinite hx,
    isInfinite_of_isFinite hy, Bool.false_eq_true, if_false, Bool.or_self, Bool.bne_eq_xor]
  have hden : 0 < unitsPerOne := Nat.pow_pos (by decide)
  apply rounds_nearest _ hden
  rw [eq_div_iff unitsPerOne_pos.ne', abs_mul, Nat.cast_mul, ← abs_value_mul x, ← abs_value_mul y]
  ring

end Finite

end SlotLisp.Binary32
