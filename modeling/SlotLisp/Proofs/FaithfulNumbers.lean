import Mathlib.Tactic.IntervalCases
import SlotLisp.Proofs.DebugText

/-!
# No number is lost in its text

The printer checks a text of six, seven or eight digits before it writes it, but neither the text of
a whole number nor one of nine digits.

**Theorem (`toText_faithful`).** Whoever reads the text of a finite number and rounds correctly gets
the number back, and so different numbers have different texts.

What a correct reader gets is fixed (`CorrectReader.eq_read?`), so it gets the same as the printer
when it checks a text.
-/

namespace SlotLisp

open Binary32

/-! ## Reading correctly -/

/-- The number is the decimal number, rounded correctly: it has the same sign, and its size is the
nearest one. Of two equally near sizes it is the even one, and what is too large is infinite. -/
structure Decimal.RoundsTo (d : Decimal) (x : Binary32) : Prop where
  isNegative : x.isNegative = d.negative
  nearest : NearestIn (Set.Iic infiniteMagnitude) (d.size * unitsPerOne) x.magnitude

/-- Every numeral is read as the decimal number that it stands for, rounded correctly. -/
def CorrectReader (reader : Text → Option Binary32) : Prop :=
  ∀ t d, Decimal.read? t = some d → ∃ x, reader t = some x ∧ d.RoundsTo x

theorem Decimal.roundsTo_toBinary32 (d : Decimal) : d.RoundsTo d.toBinary32 :=
  ⟨isNegative_toBinary32 d, nearestIn_toBinary32 d⟩

theorem correctReader_read? : CorrectReader read? := by
  intro t d ht
  refine ⟨d.toBinary32, ?_, d.roundsTo_toBinary32⟩
  rw [Binary32.read?, ht, Option.map_some]

theorem CorrectReader.eq_read? {reader : Text → Option Binary32} (h : CorrectReader reader)
    {t : Text} {d : Decimal} (ht : Decimal.read? t = some d) : reader t = read? t := by
  obtain ⟨x, hread, hx⟩ := h t d ht
  rw [hread, Binary32.read?, ht, Option.map_some, toBinary32_eq hx.isNegative.symm hx.nearest]

/-! ## The forms of a text -/

namespace Binary32

variable {x : Binary32}

/-- The number is written out in full. -/
def IsWrittenOut (x : Binary32) : Prop :=
  x.isWhole = true ∧ x.magnitude < plainLimit.magnitude

/-- The limit is `10 ^ 15`, rounded once. -/
theorem rounds_plainLimit : Rounds false (10 ^ 15) plainLimit := by
  have hlimit : plainLimit = Decimal.toBinary32 ⟨false, 1, 15⟩ := by decide +kernel
  have hnearest := nearestIn_toBinary32 ⟨false, 1, 15⟩
  rw [hlimit]
  refine ⟨isNegative_toBinary32 _, ?_⟩
  simpa [Decimal.size] using hnearest

theorem isWrittenOut_iff :
    x.IsWrittenOut ↔ x.isFinite = true ∧ (∃ n : ℕ, x.size = n) ∧ x.size < plainLimit.size := by
  have hwhole : x.units % unitsPerOne = 0 ↔ ∃ n : ℕ, x.size = n := by
    rw [← Nat.dvd_iff_mod_eq_zero]
    constructor
    · rintro ⟨n, hn⟩
      refine ⟨n, ?_⟩
      rw [size, hn, Nat.cast_mul, mul_div_cancel_left₀ _ unitsPerOne_pos.ne']
    · rintro ⟨n, hn⟩
      rw [size, div_eq_iff unitsPerOne_pos.ne'] at hn
      exact ⟨n, by rw [mul_comm]; exact_mod_cast hn⟩
  rw [IsWrittenOut, isWhole, Bool.and_eq_true, decide_eq_true_eq, hwhole, size_lt_iff, and_assoc]

theorem toText_of_isWrittenOut (hfinite : x.isFinite = true) (hx : x.IsWrittenOut) :
    ∃ n : ℕ, x.size = n ∧ x.toText = (if x.isZero then [] else x.signText) ++ Text.ofNat n := by
  obtain ⟨hwhole, hlt⟩ := hx
  have hunits : x.units / unitsPerOne * unitsPerOne = x.units := by
    simp only [isWhole, Bool.and_eq_true, decide_eq_true_eq] at hwhole
    exact Nat.div_mul_cancel (Nat.dvd_of_mod_eq_zero hwhole.2)
  refine ⟨x.units / unitsPerOne, ?_, ?_⟩
  · rw [size, div_eq_iff unitsPerOne_pos.ne', ← Nat.cast_mul, hunits]
  · cases hzero : x.isZero with
    | true =>
      have hmagnitude : x.magnitude = 0 := by simpa [isZero] using hzero
      have hnone : x.units = 0 := by rw [units_eq_unitsAt, hmagnitude]; rfl
      rw [toText, if_pos hzero, hnone, Nat.zero_div]
      rfl
    | false =>
      rw [toText_of_isFinite hfinite hzero, if_pos (by simp [hwhole, hlt])]
      rfl

/-- Any other number is written with the fewest digits, from six on, that are read as the number,
or with nine. -/
theorem toText_eq_generalText (hfinite : x.isFinite = true) (hx : x.isZero = false)
    (hplain : ¬x.IsWrittenOut) :
    ∃ p, 6 ≤ p ∧ p ≤ 9 ∧ x.toText = x.generalText p ∧
      ∀ q, 6 ≤ q → q < p → x.readsBack (x.generalText q) = false := by
  rw [toText_of_isFinite hfinite hx, if_neg (by simpa [IsWrittenOut] using hplain)]
  simp only [List.map_cons, List.map_nil]
  cases h6 : x.readsBack (x.generalText 6) with
  | true => exact ⟨6, by decide, by decide, by simp [h6], fun q hq hlt => by omega⟩
  | false =>
    cases h7 : x.readsBack (x.generalText 7) with
    | true =>
      refine ⟨7, by decide, by decide, by simp [h6, h7], fun q hq hlt => ?_⟩
      interval_cases q
      exact h6
    | false =>
      cases h8 : x.readsBack (x.generalText 8) with
      | true =>
        refine ⟨8, by decide, by decide, by simp [h6, h7, h8], fun q hq hlt => ?_⟩
        interval_cases q <;> assumption
      | false =>
        refine ⟨9, by decide, by decide, by simp [h6, h7, h8], fun q hq hlt => ?_⟩
        interval_cases q <;> assumption

end Binary32

section Faithful

variable {reader : Text → Option Binary32} (hreader : CorrectReader reader) {x : Binary32}
include hreader

theorem CorrectReader.reads_toText (hx : x.isFinite = true) :
    ∃ y, reader x.toText = some y ∧ (y == x) = true := by
  have hread := read?_toText hx
  obtain ⟨d, hd, -⟩ := Option.map_eq_some_iff.1 hread
  rw [hreader.eq_read? hd, hread]
  refine ⟨_, rfl, beq_iff.2 ⟨?_, isNaN_of_isFinite hx, ?_⟩⟩
  · cases x.isZero with
    | true => rfl
    | false => exact isNaN_of_isFinite hx
  · cases hzero : x.isZero with
    | true => exact .inr ⟨rfl, rfl⟩
    | false => exact .inl rfl

theorem CorrectReader.misreads_generalText (hx : x.isZero = false) {p : ℕ} (hp : 0 < p)
    (h : x.readsBack (x.generalText p) = false) :
    ∃ y, reader (x.generalText p) = some y ∧ (y == x) = false := by
  obtain ⟨d, hd, -⟩ := Decimal.read?_general p (digits_significant_ne_zero hp hx)
  obtain ⟨y, hy, -⟩ := hreader _ d hd
  refine ⟨y, hy, ?_⟩
  rw [hreader.eq_read? hd] at hy
  rwa [readsBack, generalText, hy] at h

end Faithful

/-- **No finite number is lost in its text.** Read by any correct reader, the text is equal to the
number. A whole number below the limit is written out in full, and any other number with the fewest
of six to nine digits that are enough for the reader. Numbers that differ have different texts. -/
theorem toText_faithful {reader : Text → Option Binary32} (hreader : CorrectReader reader)
    {x : Binary32} (hx : x.isFinite = true) :
    (∃ y, reader x.toText = some y ∧ (y == x) = true) ∧
      (x.IsWrittenOut →
        ∃ n : ℕ, x.size = n ∧ x.toText = (if x.isZero then [] else x.signText) ++ Text.ofNat n) ∧
      (x.isZero = false → ¬x.IsWrittenOut → ∃ p, 6 ≤ p ∧ p ≤ 9 ∧ x.toText = x.generalText p ∧
        ∀ q, 6 ≤ q → q < p → ∃ y, reader (x.generalText q) = some y ∧ (y == x) = false) ∧
      ∀ z : Binary32, z.isFinite = true → (x == z) = false → x.toText ≠ z.toText := by
  refine ⟨hreader.reads_toText hx, toText_of_isWrittenOut hx, fun hzero hplain => ?_, ?_⟩
  · obtain ⟨p, hle, hge, htext, hshorter⟩ := toText_eq_generalText hx hzero hplain
    refine ⟨p, hle, hge, htext, fun q hq hlt => ?_⟩
    exact hreader.misreads_generalText hzero (by omega) (hshorter q hq hlt)
  · intro z hz hne htext
    rw [beq_of_toText (isNaN_of_isFinite hx) (isNaN_of_isFinite hz) htext] at hne
    cases hne

/-- A negative number that takes all nine digits. -/
theorem toText_faithful_nine :
    let x : Binary32 := ⟨0x8f795279⟩
    CorrectReader read? ∧ x.isFinite = true ∧ x.toText = ascii "-1.22925315e-29" ∧
      (∃ y, read? x.toText = some y ∧ (y == x) = true) ∧
      x.toText ≠ (⟨0x8f795278⟩ : Binary32).toText := by
  intro x
  have hx : x.isFinite = true := by decide
  have hfaithful := toText_faithful correctReader_read? hx
  exact ⟨correctReader_read?, hx, by decide +kernel, hfaithful.1,
    hfaithful.2.2.2 _ (by decide) (by decide)⟩

end SlotLisp
