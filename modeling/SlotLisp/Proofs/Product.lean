import SlotLisp.Proofs.Equality
import SlotLisp.Proofs.Rounding

/-!
# The value of a product

The builtin `*` multiplies its values from the left, and starts from zero.

**Theorem (`product_value`).** A product is a NaN exactly if one of the values is an infinity or a
NaN. Otherwise it is a zero, and the sign of it is the exclusive or of the signs of the values. What
is not a number counts as zero.

A product that starts from a zero stays one as long as the factors are finite (`signedZero_mul`).
The first factor that is not finite makes it a NaN (`isNaN_signedZero_mul`), and then nothing makes
it a number again (`isNaN_mul`). So the whole fold is decided by where it first meets such a factor.
-/

namespace SlotLisp

namespace Binary32

variable {x y : Binary32}

/-! ## Signed zeros and NaNs -/

/-- The zero with a given sign. -/
def signedZero (negative : Bool) : Binary32 := ofMagnitude negative 0

theorem magnitude_signedZero (negative : Bool) : (signedZero negative).magnitude = 0 :=
  magnitude_ofMagnitude negative (by decide)

theorem isNegative_signedZero (negative : Bool) : (signedZero negative).isNegative = negative :=
  isNegative_ofMagnitude negative (by decide)

theorem isZero_signedZero (negative : Bool) : (signedZero negative).isZero = true := by
  simp [isZero, magnitude_signedZero]

theorem isNaN_signedZero (negative : Bool) : (signedZero negative).isNaN = false := by
  simp [isNaN, magnitude_signedZero]

theorem isFinite_signedZero (negative : Bool) : (signedZero negative).isFinite = true := by
  simp [isFinite, magnitude_signedZero, infiniteMagnitude]

theorem value_signedZero (negative : Bool) : (signedZero negative).value = 0 := by
  have hunits : (signedZero negative).units = 0 := by
    rw [units_eq_unitsAt, magnitude_signedZero]
    rfl
  simp [value, signedUnits, hunits]

theorem isFinite_eq_false_iff : x.isFinite = false ↔ x.isInfinite = true ∨ x.isNaN = true := by
  simp only [isFinite, isInfinite, isNaN, decide_eq_false_iff_not, decide_eq_true_eq]
  omega

/-- Setting a bit does not make the magnitude smaller. -/
theorem isNaN_quiet (hx : x.isNaN = true) : x.quiet.isNaN = true := by
  have hle : x.magnitude ≤ x.quiet.magnitude := by
    simp only [magnitude, quiet, UInt32.toNat_or]
    rw [show 0x80000000 = 2 ^ 31 by rfl, Nat.or_mod_two_pow]
    exact Nat.left_le_or
  simp only [isNaN, decide_eq_true_eq] at hx ⊢
  omega

/-! ## Products that start from zero -/

/-- A NaN stays a NaN. -/
theorem isNaN_mul (hx : x.isNaN = true) (y : Binary32) : (x * y).isNaN = true := by
  change (mul x y).isNaN = true
  simp [mul, hx, isNaN_quiet hx]

/-- Multiplied by a finite number, a zero may change its sign. -/
theorem signedZero_mul (negative : Bool) (hy : y.isFinite = true) :
    signedZero negative * y = signedZero (negative ^^ y.isNegative) := by
  have hrounds := rounds_mul (isFinite_signedZero negative) hy
  rw [isNegative_signedZero, value_signedZero, zero_mul] at hrounds
  exact hrounds.unique (rounds_zero _)

/-- Multiplied by an infinity or a NaN, a zero becomes a NaN. -/
theorem isNaN_signedZero_mul (negative : Bool) (hy : y.isFinite = false) :
    (signedZero negative * y).isNaN = true := by
  change (mul (signedZero negative) y).isNaN = true
  by_cases hnan : y.isNaN = true
  · simp [mul, isNaN_signedZero, hnan, isNaN_quiet hnan]
  · have hinfinite : y.isInfinite = true := (isFinite_eq_false_iff.1 hy).resolve_right hnan
    simp only [mul, isNaN_signedZero, hnan, hinfinite, isZero_signedZero, Bool.or_true,
      Bool.true_or, Bool.false_eq_true, if_false, if_true]
    decide

/-- The exclusive or of the signs of numbers. -/
def signs : List Binary32 → Bool
  | [] => false
  | x :: xs => x.isNegative ^^ signs xs

variable {xs : List Binary32}

/-- Finite factors keep a zero a zero. -/
theorem foldl_mul_of_finite (h : ∀ x ∈ xs, x.isFinite = true) (negative : Bool) :
    xs.foldl (· * ·) (signedZero negative) = signedZero (negative ^^ signs xs) := by
  induction xs generalizing negative with
  | nil => simp [signs]
  | cons x xs ih =>
    obtain ⟨hx, hxs⟩ := List.forall_mem_cons.1 h
    rw [List.foldl_cons, signedZero_mul negative hx, ih hxs, signs, Bool.xor_assoc]

theorem isNaN_foldl_mul (hx : x.isNaN = true) (xs : List Binary32) :
    (xs.foldl (· * ·) x).isNaN = true := by
  induction xs generalizing x with
  | nil => exact hx
  | cons y ys ih => exact ih (isNaN_mul hx y)

/-- One factor that is not finite makes the product a NaN. The induction is on the factors in front
of the first such one, which only change the sign of the zero. -/
theorem isNaN_foldl_mul_of_not_finite (h : ∃ x ∈ xs, x.isFinite = false) (negative : Bool) :
    (xs.foldl (· * ·) (signedZero negative)).isNaN = true := by
  induction xs generalizing negative with
  | nil => simp at h
  | cons x xs ih =>
    rw [List.foldl_cons]
    by_cases hx : x.isFinite = true
    · rw [signedZero_mul negative hx]
      refine ih ?_ _
      simpa [hx] using h
    · exact isNaN_foldl_mul (isNaN_signedZero_mul negative (Bool.not_eq_true _ ▸ hx)) xs

end Binary32

/-! ## Operands -/

namespace Atom

/-- The number that an atom is. -/
def number? : Atom → Option Binary32
  | number x => some x
  | _ => none

/-- An operand is the number that the atom is, or else a positive zero. -/
theorem operand_eq (a : Atom) : a.operand = a.number?.getD .zero := by
  cases a <;> rfl

theorem signs_operands (vs : List Atom) :
    Binary32.signs (vs.map operand) = Binary32.signs (vs.filterMap number?) := by
  induction vs with
  | nil => rfl
  | cons v vs ih =>
    rw [List.map_cons, Binary32.signs, operand_eq, ih]
    cases hv : v.number? with
    | none => rw [List.filterMap_cons_none hv]; exact Bool.false_xor _
    | some x => rw [List.filterMap_cons_some hv]; rfl

theorem finite_operands {vs : List Atom} :
    (∀ x ∈ vs.map operand, x.isFinite = true) ↔ ∀ x ∈ vs.filterMap number?, x.isFinite = true := by
  induction vs with
  | nil => simp
  | cons v vs ih =>
    rw [List.map_cons, List.forall_mem_cons, operand_eq, ih]
    cases hv : v.number? with
    | none => rw [List.filterMap_cons_none hv]; exact and_iff_right (by decide)
    | some x => rw [List.filterMap_cons_some hv, List.forall_mem_cons]; rfl

end Atom

/-- The builtin `*` multiplies the values of its arguments. -/
theorem Machine.callBuiltin_product {m m' : Machine} {context : Closure} {params vs : List Atom}
    (h : m.strictArguments context params = (.ok vs, m')) :
    m.callBuiltin .product context params =
      (.ok (.number ((vs.map Atom.operand).foldl (· * ·) (.signedZero false))), m') := by
  rw [List.foldl_map]
  exact m.onStore_bind_of_ok h _

/-- **The value of a product.** Let the arguments of `*` have the values `vs`. Then `*` gives a
number and does nothing else. The number is a NaN if and only if there is an infinity or a NaN among
the numbers in `vs`. Otherwise it is a zero, with the exclusive or of their signs as its sign. So
the product equals zero exactly if all of them are finite. -/
theorem product_value {m m' : Machine} {context : Closure} {params vs : List Atom}
    (h : m.strictArguments context params = (.ok vs, m')) :
    let numbers := vs.filterMap Atom.number?
    ∃ x, m.callBuiltin .product context params = (.ok (.number x), m') ∧
      (x.isNaN = true ↔ ∃ y ∈ numbers, y.isInfinite = true ∨ y.isNaN = true) ∧
      (x.isNaN = false → x.isZero = true ∧ x.isNegative = Binary32.signs numbers) ∧
      ((x == .zero) = true ↔ ∀ y ∈ numbers, y.isFinite = true) := by
  intro numbers
  refine ⟨_, Machine.callBuiltin_product h, ?_⟩
  by_cases hfinite : ∀ y ∈ numbers, y.isFinite = true
  · have hnone : ¬∃ y ∈ numbers, y.isInfinite = true ∨ y.isNaN = true := by
      rintro ⟨y, hy, hspecial⟩
      rw [← Binary32.isFinite_eq_false_iff, hfinite y hy] at hspecial
      cases hspecial
    rw [Binary32.foldl_mul_of_finite (Atom.finite_operands.2 hfinite), Atom.signs_operands]
    refine ⟨?_, ?_, ?_⟩
    · simp only [Binary32.isNaN_signedZero, hnone, Bool.false_eq_true]
    · intro _
      exact ⟨Binary32.isZero_signedZero _,
        (Binary32.isNegative_signedZero _).trans (Bool.false_xor _)⟩
    · refine iff_of_true ?_ hfinite
      exact Binary32.beq_iff.2
        ⟨Binary32.isNaN_signedZero _, rfl, .inr ⟨Binary32.isZero_signedZero _, rfl⟩⟩
  · have hsome : ∃ y ∈ vs.map Atom.operand, y.isFinite = false := by
      rw [← Atom.finite_operands] at hfinite
      simpa using hfinite
    have hnan := Binary32.isNaN_foldl_mul_of_not_finite hsome false
    refine ⟨iff_of_true hnan ?_, ?_, ?_⟩
    · simpa [← Binary32.isFinite_eq_false_iff] using hfinite
    · intro hnumber
      rw [hnan] at hnumber
      cases hnumber
    · refine iff_of_false ?_ hfinite
      intro hzero
      rw [(Binary32.beq_iff.1 hzero).1] at hnan
      cases hnan

/-- The product of `(neg 1)`, a string and `pi` is a negative zero. With a sum that overflows in
front of them it is a NaN. -/
theorem product_value_overflow :
    let m : Machine := {}
    let one : Atom := .number ⟨0x3f800000⟩
    let largest : Atom := .number ⟨0x7f7fffff⟩
    let params : List Atom :=
      [.list [.symbol (ascii "neg"), one] none, .string (ascii "a"), .symbol (ascii "pi")]
    let sum : Atom := .list [.symbol (ascii "+"), largest, largest] none
    let values : List Atom :=
      [.number ⟨0xbf800000⟩, .string (ascii "a"), .number ⟨0x40490fdb⟩]
    m.strictArguments .empty params = (.ok values, m) ∧
      m.strictArguments .empty (sum :: params) = (.ok (.number (.infinity false) :: values), m) ∧
      (∃ x, m.callBuiltin .product .empty params = (.ok (.number x), m) ∧
        x.isZero = true ∧ x.isNegative = true) ∧
      ∃ x, m.callBuiltin .product .empty (sum :: params) = (.ok (.number x), m) ∧
        x.isNaN = true := by
  intro m one largest params sum values
  have hvalues : m.strictArguments .empty params = (.ok values, m) := rfl
  have hsum : Binary32.zero + ⟨0x7f7fffff⟩ + ⟨0x7f7fffff⟩ = .infinity false := by decide +kernel
  have hvalues' : m.strictArguments .empty (sum :: params) =
      (.ok (.number (.zero + ⟨0x7f7fffff⟩ + ⟨0x7f7fffff⟩) :: values), m) := rfl
  rw [hsum] at hvalues'
  obtain ⟨x, hx, -, hsign, hzero⟩ := product_value hvalues
  obtain ⟨y, hy, hnan, -⟩ := product_value hvalues'
  have hfinite : (x == .zero) = true := hzero.2 (by decide)
  obtain ⟨hzero, hnegative⟩ := hsign (Binary32.beq_iff.1 hfinite).1
  exact ⟨hvalues, hvalues', ⟨x, hx, hzero, hnegative.trans (by decide)⟩,
    y, hy, hnan.2 ⟨.infinity false, List.mem_cons_self, .inl (by decide)⟩⟩

end SlotLisp
