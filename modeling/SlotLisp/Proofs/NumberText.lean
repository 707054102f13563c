import SlotLisp.Printer
import SlotLisp.Proofs.Numeral
import SlotLisp.Proofs.Significant

/-!
# The text of a number reads back

**Theorem (`read?_toText`).** The text of a finite number is read as that number, and that of both
zeros as zero.

Positional notation and notation with an exponent are read as decimal numbers of the same size
(`read?_general`). So it does not matter which of the two the printer chooses, only how many digits
it shows, and nine digits suffice.
-/

namespace SlotLisp

/-! ## Runs of digits -/

namespace Text

theorem foldl_digitsValue (t : Text) (n : ℕ) :
    t.foldl (fun n c => 10 * n + (c.toNat - 48)) n = n * 10 ^ t.length + digitsValue t := by
  induction t generalizing n with
  | nil => simp [digitsValue]
  | cons c t ih =>
    rw [digitsValue, List.foldl_cons, List.foldl_cons, ih, ih (10 * 0 + _), List.length_cons,
      pow_succ]
    ring

theorem digitsValue_append (a b : Text) :
    digitsValue (a ++ b) = digitsValue a * 10 ^ b.length + digitsValue b := by
  rw [digitsValue, List.foldl_append, foldl_digitsValue b, ← digitsValue]

theorem digitsValue_zeros (n : ℕ) : digitsValue (List.replicate n 48) = 0 := by
  induction n with
  | zero => rfl
  | succ n ih =>
    rw [List.replicate_succ', digitsValue_append, ih]
    rfl

theorem isDigit_of_mem_ofNat {n : ℕ} {c : Byte} (h : c ∈ ofNat n) : Byte.isDigit c = true := by
  obtain ⟨d, hd, rfl⟩ := List.mem_map.1 h
  have hdigit := Nat.isDigit_of_mem_toDigits (by decide) (by decide) hd
  have hbounds := Char.isDigit_iff_toNat.1 hdigit
  rw [Byte.isDigit, toNat_toUInt8 hdigit]
  simpa using hbounds

theorem isDigit_of_mem_zeros {n : ℕ} {c : Byte} (h : c ∈ List.replicate n (48 : Byte)) :
    Byte.isDigit c = true := by
  rw [List.eq_of_mem_replicate h]
  rfl

theorem splitSign_digit {c : Byte} (hc : Byte.isDigit c = true) (r : Text) :
    splitSign (c :: r) = (false, c :: r) := by
  unfold splitSign
  split
  · next heq => cases heq; cases hc
  · next heq => cases heq; cases hc
  · rfl

end Text

namespace Decimal

variable {whole places rest ds : Text} {e : ℤ}

/-! ## Reading what the printer writes -/

/-- Digits with or without a point are read up to the exponent. -/
theorem read?_withPoint (negative : Bool) (hne : whole ≠ [])
    (hwhole : ∀ c ∈ whole, Byte.isDigit c = true) (hplaces : ∀ c ∈ places, Byte.isDigit c = true)
    (hstop : ∀ c ∈ rest.head?, Byte.isDigit c = false ∧ c ≠ Byte.point)
    (hrest : readExponent? rest = some e) :
    read? ((if negative then ascii "-" else []) ++ (withPoint whole places ++ rest)) =
      some ⟨negative, Text.digitsValue (whole ++ places), e - places.length⟩ := by
  have hsign : Text.splitSign ((if negative then ascii "-" else []) ++
      (withPoint whole places ++ rest)) = (negative, withPoint whole places ++ rest) := by
    cases negative with
    | true => rfl
    | false =>
      obtain ⟨c, whole, rfl⟩ := List.exists_cons_of_ne_nil hne
      have hc := hwhole c List.mem_cons_self
      rw [if_neg Bool.false_ne_true, List.nil_append, withPoint]
      split_ifs <;> exact Text.splitSign_digit hc _
  have hempty : whole.isEmpty = false := by simpa using hne
  have hdigit : ∀ c ∈ rest.head?, Byte.isDigit c = false := fun c hc => (hstop c hc).1
  rw [read?, hsign]
  by_cases hpoint : places = []
  · subst hpoint
    rw [withPoint, if_pos List.isEmpty_nil]
    simp only [takeWhile_append_stop hwhole hdigit, dropWhile_append_stop hwhole hdigit]
    split
    · exact absurd rfl (hstop Byte.point rfl).2
    · simp [hne, hrest]
  · rw [withPoint, if_neg (by simpa using hpoint), List.append_assoc, List.cons_append]
    simp only [takeWhile_append_stop hwhole head_point, dropWhile_append_stop hwhole head_point,
      takeWhile_append_stop hplaces hdigit, dropWhile_append_stop hplaces hdigit, hempty, hrest]
    rfl

/-- Only zeros are dropped. -/
theorem exists_append_zeros (t : Text) : ∃ n, t = dropTrailingZeros t ++ List.replicate n 48 := by
  refine ⟨(t.reverse.takeWhile (· = 48)).length, ?_⟩
  have hzeros : t.reverse.takeWhile (· = 48) =
      List.replicate (t.reverse.takeWhile (· = 48)).length 48 :=
    List.eq_replicate_iff.2 ⟨rfl, fun c hc => by simpa using List.mem_takeWhile_imp hc⟩
  have hsplit := congrArg List.reverse
    (List.takeWhile_append_dropWhile (p := (· = 48)) (l := t.reverse))
  rw [List.reverse_append, List.reverse_reverse, hzeros, List.reverse_replicate] at hsplit
  exact hsplit.symm

theorem readExponent?_digits (negative : Bool) {t : Text} (hne : t ≠ [])
    (ht : ∀ c ∈ t, Byte.isDigit c = true) :
    readExponent? (101 :: (if negative then 45 else 43) :: t) =
      some (if negative then -(Text.digitsValue t : ℤ) else Text.digitsValue t) := by
  have hall : t.all Byte.isDigit = true := List.all_eq_true.2 ht
  have hempty : t.isEmpty = false := by simpa using hne
  cases negative <;> simp [readExponent?, Text.splitSign, hall, hempty]

/-- The exponent is read back, however many zeros open it. -/
theorem readExponent?_exponent (lead : ℤ) (zeros : ℕ) :
    readExponent? (ascii (if lead < 0 then "e-" else "e+") ++ List.replicate zeros 48 ++
      Text.ofNat lead.natAbs) = some lead := by
  have hne : List.replicate zeros 48 ++ Text.ofNat lead.natAbs ≠ [] := by
    simpa using fun _ => List.ne_nil_of_length_pos (Text.length_ofNat_pos lead.natAbs)
  have hdigits :
      ∀ c ∈ List.replicate zeros 48 ++ Text.ofNat lead.natAbs, Byte.isDigit c = true := by
    intro c hc
    rcases List.mem_append.1 hc with hc | hc
    · exact Text.isDigit_of_mem_zeros hc
    · exact Text.isDigit_of_mem_ofNat hc
  have hvalue : Text.digitsValue (List.replicate zeros 48 ++ Text.ofNat lead.natAbs) =
      lead.natAbs := by
    rw [Text.digitsValue_append, Text.digitsValue_zeros, zero_mul, zero_add, Text.digitsValue_ofNat]
  have hread := readExponent?_digits (decide (lead < 0)) hne hdigits
  rw [hvalue] at hread
  by_cases hlead : lead < 0
  · rw [if_pos hlead, List.append_assoc]
    simp only [hlead, decide_true, if_true] at hread
    rwa [show -(lead.natAbs : ℤ) = lead by omega] at hread
  · rw [if_neg hlead, List.append_assoc]
    simp only [hlead, decide_false, Bool.false_eq_true, if_false] at hread
    rwa [show (lead.natAbs : ℤ) = lead by omega] at hread

/-- Digits with or without a point and nothing else. -/
theorem read?_withPoint_end (negative : Bool) (hne : whole ≠ [])
    (hwhole : ∀ c ∈ whole, Byte.isDigit c = true)
    (hplaces : ∀ c ∈ places, Byte.isDigit c = true) :
    read? ((if negative then ascii "-" else []) ++ withPoint whole places) =
      some ⟨negative, Text.digitsValue (whole ++ places), -places.length⟩ := by
  have hread := read?_withPoint negative hne hwhole hplaces (by simp)
    (rfl : readExponent? [] = some 0)
  rwa [List.append_nil, zero_sub] at hread

/-- The size of a number whose digits are given, with the leading one at `10 ^ lead`. -/
def sizeAt (ds : Text) (lead : ℤ) : ℚ := Text.digitsValue ds * 10 ^ (lead + 1 - ds.length)

/-- Positional notation is read as a number of the same size. -/
theorem read?_positional (negative : Bool) (hne : ds ≠ []) (hds : ∀ c ∈ ds, Byte.isDigit c = true)
    (lead : ℤ) :
    ∃ d, read? ((if negative then ascii "-" else []) ++ positional ds lead) = some d ∧
      d.negative = negative ∧ d.size = sizeAt ds lead := by
  by_cases hlead : 0 ≤ lead
  · obtain ⟨n, rfl⟩ := Int.eq_ofNat_of_zero_le hlead
    rw [positional, if_pos hlead, Int.toNat_natCast]
    refine ⟨_, read?_withPoint_end negative (by simp [hne]) ?_
      fun c hc => hds c (List.mem_of_mem_drop hc), rfl, ?_⟩
    · intro c hc
      rcases List.mem_append.1 hc with hc | hc
      · exact hds c (List.mem_of_mem_take hc)
      · exact Text.isDigit_of_mem_zeros hc
    · by_cases hlength : ds.length ≤ n + 1
      · -- The digits do not reach up to the point, and zeros fill the gap.
        rw [size, sizeAt, List.take_of_length_le hlength, List.drop_eq_nil_of_le hlength,
          List.append_nil, Text.digitsValue_append, Text.digitsValue_zeros, List.length_replicate,
          show (n : ℤ) + 1 - ds.length = (n + 1 - ds.length : ℕ) by omega, zpow_natCast]
        simp
      · rw [size, sizeAt, Nat.sub_eq_zero_of_le (by omega), List.replicate_zero, List.append_nil,
          List.take_append_drop, List.length_drop]
        dsimp only
        congr 2
        omega
  · rw [positional, if_neg hlead]
    refine ⟨_, read?_withPoint_end negative (by decide) (List.all_eq_true.1 rfl) ?_, rfl, ?_⟩
    · intro c hc
      rcases List.mem_append.1 hc with hc | hc
      · exact Text.isDigit_of_mem_zeros hc
      · exact hds c hc
    · have hvalue : Text.digitsValue (ascii "0" ++ (List.replicate ((-lead).toNat - 1) 48 ++ ds)) =
          Text.digitsValue ds := by
        rw [Text.digitsValue_append, Text.digitsValue_append, Text.digitsValue_zeros,
          show Text.digitsValue (ascii "0") = 0 from rfl, zero_mul, zero_mul, zero_add, zero_add]
      rw [size, sizeAt, hvalue, List.length_append, List.length_replicate]
      dsimp only
      congr 2
      omega

/-- Notation with an exponent is read as a number of the same size. -/
theorem read?_scientific (negative : Bool) (hne : ds ≠ []) (hds : ∀ c ∈ ds, Byte.isDigit c = true)
    (lead : ℤ) :
    ∃ d, read? ((if negative then ascii "-" else []) ++ scientific ds lead) = some d ∧
      d.negative = negative ∧ d.size = sizeAt ds lead := by
  have hlength : 0 < ds.length := List.length_pos_of_ne_nil hne
  rw [scientific, List.append_assoc (withPoint _ _), List.append_assoc (withPoint _ _)]
  refine ⟨_, read?_withPoint negative (by simpa using hne)
    (fun c hc => hds c (List.mem_of_mem_take hc)) (fun c hc => hds c (List.mem_of_mem_drop hc)) ?_
    (readExponent?_exponent lead _), rfl, ?_⟩
  · intro c hc
    have hhead : c = 101 := by
      split at hc <;> exact (Option.some.inj hc).symm
    rw [hhead]
    decide
  · rw [size, sizeAt, List.take_append_drop, List.length_drop]
    dsimp only
    congr 2
    omega

/-- General notation is read as a number of the same sign and size. -/
theorem read?_general (p : ℕ) {d : Decimal} (hd : d.digits ≠ 0) :
    ∃ d', read? (d.general p) = some d' ∧ d'.negative = d.negative ∧ d'.size = d.size := by
  obtain ⟨zeros, hzeros⟩ := exists_append_zeros (Text.ofNat d.digits)
  rw [general]
  generalize dropTrailingZeros (Text.ofNat d.digits) = shown at hzeros ⊢
  have hvalue : d.digits = Text.digitsValue shown * 10 ^ zeros := by
    have h := congrArg Text.digitsValue hzeros
    rwa [Text.digitsValue_ofNat, Text.digitsValue_append, Text.digitsValue_zeros,
      List.length_replicate, add_zero] at h
  have hdigits : ∀ c ∈ shown, Byte.isDigit c = true := by
    intro c hc
    apply Text.isDigit_of_mem_ofNat (n := d.digits)
    rw [hzeros]
    exact List.mem_append_left _ hc
  have hne : shown ≠ [] := by
    intro h
    rw [h] at hvalue
    exact hd (hvalue.trans (zero_mul _))
  have hsize : sizeAt shown (d.exponent + (Text.ofNat d.digits).length - 1) = d.size := by
    rw [sizeAt, size, hzeros, List.length_append, List.length_replicate, hvalue,
      show d.exponent + ((shown.length + zeros : ℕ) : ℤ) - 1 + 1 - shown.length =
        zeros + d.exponent by push_cast; ring, zpow_add₀ (by norm_num), zpow_natCast]
    push_cast
    ring
  rw [← hsize]
  by_cases hnotation : (d.exponent + (Text.ofNat d.digits).length - 1 < -4 ||
      (p : ℤ) ≤ d.exponent + (Text.ofNat d.digits).length - 1) = true
  · rw [if_pos hnotation]
    exact read?_scientific d.negative hne hdigits _
  · rw [if_neg hnotation]
    exact read?_positional d.negative hne hdigits _

end Decimal

/-! ## What the printer writes -/

namespace Binary32

variable {x y : Binary32}

/-- A number other than zero is equal only to itself. -/
theorem eq_of_beq (h : (y == x) = true) (hx : x.isZero = false) : y = x := by
  change beq y x = true at h
  simp only [beq, hx, Bool.and_false, Bool.or_false, Bool.and_eq_true, decide_eq_true_eq] at h
  cases x
  cases y
  exact congrArg mk h.2

theorem read?_eq_of_nearestIn {t : Text} {d : Decimal} (hread : Decimal.read? t = some d)
    (hneg : d.negative = x.isNegative)
    (hnear : NearestIn (Set.Iic infiniteMagnitude) (d.size * unitsPerOne) x.magnitude) :
    read? t = some x := by
  rw [Binary32.read?, hread, Option.map_some, toBinary32_eq hneg hnear]

/-- A whole number is read as what it is, and nothing is rounded. -/
theorem read?_wholeText (hfinite : x.isFinite = true) (hx : x.isZero = false)
    (hwhole : x.units % unitsPerOne = 0) :
    read? (x.signText ++ Text.ofNat (x.units / unitsPerOne)) = some x := by
  have hread := Decimal.read?_withPoint_end x.isNegative
    (List.ne_nil_of_length_pos (Text.length_ofNat_pos (x.units / unitsPerOne)))
    (fun c hc => Text.isDigit_of_mem_ofNat hc) (List.forall_mem_nil _)
  refine read?_eq_of_nearestIn hread rfl
    (nearestIn_of_close (le_of_lt (by simpa [isFinite] using hfinite)) ?_)
  have hunits : ((x.units / unitsPerOne : ℕ) : ℚ) * unitsPerOne = x.units := by
    exact_mod_cast Nat.div_mul_cancel (Nat.dvd_of_mod_eq_zero hwhole)
  have hpos : (0 : ℚ) < x.units := by exact_mod_cast units_pos hx
  rw [Decimal.size, List.append_nil, Text.digitsValue_ofNat, List.length_nil, Nat.cast_zero,
    neg_zero, zpow_zero, mul_one, hunits, ← units_eq_unitsAt, sub_self, abs_zero]
  positivity

theorem read?_generalText_nine (hfinite : x.isFinite = true) (hx : x.isZero = false) :
    read? (x.generalText 9) = some x := by
  obtain ⟨d, hread, hneg, hsize⟩ :=
    Decimal.read?_general 9 (digits_significant_ne_zero (by decide : 0 < 9) hx)
  refine read?_eq_of_nearestIn hread ?_ ?_
  · rw [hneg, significant]
    split_ifs <;> rfl
  · rw [hsize]
    exact nearestIn_significant_nine hfinite hx

/-- A text that the printer has checked. -/
theorem read?_of_readsBack {t : Text} (h : x.readsBack t = true) (hx : x.isZero = false) :
    read? t = some x := by
  rw [readsBack] at h
  split at h
  · next y hy => rw [hy, eq_of_beq h hx]
  · cases h

theorem read?_zero : read? (ascii "0") = some zero := by
  have hread : Decimal.read? (ascii "0") = some ⟨false, 0, 0⟩ := rfl
  rw [Binary32.read?, hread]
  simp [Decimal.toBinary32, nearest, nearestMagnitude, roundDiv, ofMagnitude, zero]

/-- The text of a finite number other than zero. -/
theorem toText_of_isFinite (hfinite : x.isFinite = true) (hx : x.isZero = false) :
    x.toText = if x.isWhole && x.magnitude < plainLimit.magnitude then
        x.signText ++ Text.ofNat (x.units / unitsPerOne)
      else (([6, 7, 8].map (generalText · x)).find? x.readsBack).getD (generalText 9 x) := by
  rw [toText, hx, isNaN_of_isFinite hfinite, isInfinite_of_isFinite hfinite]
  rfl

/-- **The text of a finite number reads back.** -/
theorem read?_toText (hfinite : x.isFinite = true) :
    read? x.toText = some (if x.isZero then zero else x) := by
  cases hx : x.isZero with
  | true =>
    rw [toText, hx]
    exact read?_zero
  | false =>
    rw [toText_of_isFinite hfinite hx, if_neg Bool.false_ne_true]
    split_ifs with hplain
    · simp only [isWhole, Bool.and_eq_true, decide_eq_true_eq] at hplain
      exact read?_wholeText hfinite hx hplain.1.2
    · cases hfind : ([6, 7, 8].map (generalText · x)).find? x.readsBack with
      | some t => exact read?_of_readsBack (List.find?_some hfind) hx
      | none => exact read?_generalText_nine hfinite hx

end Binary32

end SlotLisp
