import Mathlib.Data.List.TakeWhile
import SlotLisp.Proofs.Rounding

/-!
# Numerals without sign and exponent

In a text, a number is a run of digits and points. It is a numeral if there is a digit in it and not
more than one point.

**Theorem (`read?_eq_some_iff`).** A run of digits and points is read as a number exactly if it is a
numeral, and the number is the one nearest to its value.
-/

namespace SlotLisp

/-- A nonempty run of digits and points with at least one digit and at most one point. -/
structure IsNumeral (w : Text) : Prop where
  run : ∀ c ∈ w, Byte.isDigit c = true ∨ c = Byte.point
  digit : ∃ c ∈ w, Byte.isDigit c = true
  point : w.count Byte.point ≤ 1

/-- The value of a numeral: its digits, with as many places as there are digits after the point. -/
def numeralValue (w : Text) : ℚ :=
  Text.digitsValue (w.filter Byte.isDigit) / 10 ^ (w.dropWhile (· != Byte.point)).tail.length

theorem not_isDigit_point : Byte.isDigit Byte.point = false := by decide

theorem ne_point_of_isDigit {c : Byte} (h : Byte.isDigit c = true) : c ≠ Byte.point := by
  intro hc
  subst hc
  cases h

/-! ## The parts of a run -/

section Span

variable {α : Type} {p : α → Bool} {a b : List α}

/-- A run ends where the next item does not belong to it. -/
theorem takeWhile_append_stop (ha : ∀ x ∈ a, p x = true) (hb : ∀ x ∈ b.head?, p x = false) :
    (a ++ b).takeWhile p = a := by
  rw [List.takeWhile_append_of_pos ha]
  cases b with
  | nil => simp
  | cons x b => simp [hb x rfl]

theorem dropWhile_append_stop (ha : ∀ x ∈ a, p x = true) (hb : ∀ x ∈ b.head?, p x = false) :
    (a ++ b).dropWhile p = b := by
  rw [List.dropWhile_append_of_pos ha]
  cases b with
  | nil => simp
  | cons x b => simp [hb x rfl]

end Span

section Parts

variable {a b : Text}

/-- A run is digits alone, or digits up to its first point and whatever follows. -/
theorem run_cases {w : Text} (hw : ∀ c ∈ w, Byte.isDigit c = true ∨ c = Byte.point) :
    (∀ c ∈ w, Byte.isDigit c = true) ∨
      ∃ a b, w = a ++ Byte.point :: b ∧ (∀ c ∈ a, Byte.isDigit c = true) ∧
        ∀ c ∈ b, Byte.isDigit c = true ∨ c = Byte.point := by
  induction w with
  | nil => exact Or.inl (by simp)
  | cons d w ih =>
    have hrest : ∀ c ∈ w, Byte.isDigit c = true ∨ c = Byte.point :=
      fun c hc => hw c (List.mem_cons_of_mem d hc)
    rcases hw d List.mem_cons_self with hd | rfl
    · rcases ih hrest with h | ⟨a, b, rfl, ha, hb⟩
      · exact Or.inl (List.forall_mem_cons.2 ⟨hd, h⟩)
      · exact Or.inr ⟨d :: a, b, rfl, List.forall_mem_cons.2 ⟨hd, ha⟩, hb⟩
    · exact Or.inr ⟨[], w, rfl, by simp, hrest⟩

/-- Digits, a point and a run make a run. -/
theorem run_append_point (ha : ∀ c ∈ a, Byte.isDigit c = true)
    (hb : ∀ c ∈ b, Byte.isDigit c = true ∨ c = Byte.point) :
    ∀ c ∈ a ++ Byte.point :: b, Byte.isDigit c = true ∨ c = Byte.point := by
  intro c hc
  rw [List.mem_append, List.mem_cons] at hc
  rcases hc with hc | hc | hc
  · exact Or.inl (ha c hc)
  · exact Or.inr hc
  · exact hb c hc

/-- No sign opens a run. -/
theorem splitSign_run {w : Text} (hw : ∀ c ∈ w, Byte.isDigit c = true ∨ c = Byte.point) :
    Text.splitSign w = (false, w) := by
  cases w with
  | nil => rfl
  | cons c w =>
    have hc := hw c List.mem_cons_self
    unfold Text.splitSign
    split
    · next heq => cases heq; exact absurd hc (by decide)
    · next heq => cases heq; exact absurd hc (by decide)
    · rfl

theorem numeralValue_digits (ha : ∀ c ∈ a, Byte.isDigit c = true) :
    numeralValue a = Text.digitsValue a := by
  have hfilter : a.filter Byte.isDigit = a := List.filter_eq_self.2 ha
  have hdrop : a.dropWhile (· != Byte.point) = [] :=
    List.dropWhile_eq_nil_iff.2 fun c hc => by simpa using ne_point_of_isDigit (ha c hc)
  rw [numeralValue, hfilter, hdrop, List.tail_nil, List.length_nil, pow_zero, div_one]

theorem numeralValue_point (ha : ∀ c ∈ a, Byte.isDigit c = true)
    (hb : ∀ c ∈ b, Byte.isDigit c = true) :
    numeralValue (a ++ Byte.point :: b) = Text.digitsValue (a ++ b) / 10 ^ b.length := by
  have hfilter : (a ++ Byte.point :: b).filter Byte.isDigit = a ++ b := by
    rw [List.filter_append, List.filter_eq_self.2 ha, List.filter_cons_of_neg (by decide),
      List.filter_eq_self.2 hb]
  have hdrop : (a ++ Byte.point :: b).dropWhile (· != Byte.point) = Byte.point :: b := by
    rw [List.dropWhile_append_of_pos fun c hc => by simpa using ne_point_of_isDigit (ha c hc)]
    simp
  rw [numeralValue, hfilter, hdrop, List.tail_cons]

/-! ## Reading a run -/

theorem head_point : ∀ c ∈ (Byte.point :: b).head?, Byte.isDigit c = false := by
  simp [not_isDigit_point]

/-- A point opens no exponent. -/
theorem readExponent?_point (d : Text) : Decimal.readExponent? (Byte.point :: d) = none := by
  rw [Decimal.readExponent?]
  simp [show Byte.point ≠ 69 by decide, show Byte.point ≠ 101 by decide]

theorem read?_digits (ha : ∀ c ∈ a, Byte.isDigit c = true) (hne : a ≠ []) :
    Decimal.read? a = some ⟨false, Text.digitsValue a, 0⟩ := by
  have htake : a.takeWhile Byte.isDigit = a := List.takeWhile_eq_self_iff.2 ha
  have hdrop : a.dropWhile Byte.isDigit = [] := List.dropWhile_eq_nil_iff.2 ha
  rw [Decimal.read?, splitSign_run fun c hc => Or.inl (ha c hc)]
  simp [htake, hdrop, hne, Decimal.readExponent?]

theorem read?_point (ha : ∀ c ∈ a, Byte.isDigit c = true) (hb : ∀ c ∈ b, Byte.isDigit c = true)
    (hne : a ++ b ≠ []) :
    Decimal.read? (a ++ Byte.point :: b) = some ⟨false, Text.digitsValue (a ++ b), -b.length⟩ := by
  have hrun := run_append_point ha fun c hc => Or.inl (hb c hc)
  have htake : b.takeWhile Byte.isDigit = b := List.takeWhile_eq_self_iff.2 hb
  have hdrop : b.dropWhile Byte.isDigit = [] := List.dropWhile_eq_nil_iff.2 hb
  rw [Decimal.read?, splitSign_run hrun]
  simp only [takeWhile_append_stop ha head_point, dropWhile_append_stop ha head_point, htake, hdrop]
  rw [if_neg (by simpa using hne)]
  simp [Decimal.readExponent?]

/-- A second point is not part of a numeral. -/
theorem read?_two_points {d : Text} (ha : ∀ c ∈ a, Byte.isDigit c = true)
    (hb : ∀ c ∈ b, Byte.isDigit c = true)
    (hd : ∀ c ∈ d, Byte.isDigit c = true ∨ c = Byte.point) :
    Decimal.read? (a ++ Byte.point :: (b ++ Byte.point :: d)) = none := by
  have hrun := run_append_point ha (run_append_point hb hd)
  rw [Decimal.read?, splitSign_run hrun]
  simp only [takeWhile_append_stop ha head_point, dropWhile_append_stop ha head_point,
    takeWhile_append_stop hb head_point, dropWhile_append_stop hb head_point,
    readExponent?_point, Option.map_none, ite_self]

theorem isNearest_toBinary32 (digits places : ℕ) :
    Binary32.IsNearest (digits / 10 ^ places)
      (Decimal.toBinary32 ⟨false, digits, -(places : ℤ)⟩) := by
  have hpos := Binary32.unitsPerOne_pos
  have hnearest := Binary32.isNearest_nearest (digits * Binary32.unitsPerOne)
    (Nat.pow_pos (n := places) (by decide : 0 < 10))
  have hvalue : ((digits * Binary32.unitsPerOne : ℕ) : ℚ) / ((10 ^ places : ℕ) : ℚ) /
      Binary32.unitsPerOne = digits / 10 ^ places := by
    push_cast
    field_simp
  rw [hvalue] at hnearest
  rw [Decimal.toBinary32]
  dsimp only
  split_ifs with h
  · obtain rfl : places = 0 := by omega
    simpa using hnearest
  · rw [neg_neg, Int.toNat_natCast]
    exact hnearest

end Parts

/-- A numeral is digits, with a point somewhere or without one. -/
theorem isNumeral_iff {w : Text} :
    IsNumeral w ↔ (∀ c ∈ w, Byte.isDigit c = true) ∧ w ≠ [] ∨
      ∃ a b, w = a ++ Byte.point :: b ∧ (∀ c ∈ a, Byte.isDigit c = true) ∧
        (∀ c ∈ b, Byte.isDigit c = true) ∧ a ++ b ≠ [] := by
  constructor
  · intro h
    obtain ⟨hrun, ⟨d, hd, hdigit⟩, hpoint⟩ := h
    rcases run_cases hrun with h | ⟨a, b, rfl, ha, hb⟩
    · exact Or.inl ⟨h, List.ne_nil_of_mem hd⟩
    · refine Or.inr ⟨a, b, rfl, ha, ?_, ?_⟩
      · intro c hc
        refine (hb c hc).resolve_right ?_
        intro hcpoint
        subst hcpoint
        have hcount := List.count_pos_iff.2 hc
        rw [List.count_append, List.count_cons_self] at hpoint
        omega
      · intro h
        rw [List.append_eq_nil_iff] at h
        obtain ⟨rfl, rfl⟩ := h
        obtain rfl := List.mem_singleton.1 hd
        exact absurd hdigit (by decide)
  · have hcount {a : Text} (ha : ∀ c ∈ a, Byte.isDigit c = true) : a.count Byte.point = 0 :=
      List.count_eq_zero.2 fun h => absurd (ha _ h) (by decide)
    intro h
    rcases h with ⟨h, hne⟩ | ⟨a, b, rfl, ha, hb, hne⟩
    · obtain ⟨d, hd⟩ := List.exists_mem_of_ne_nil w hne
      exact ⟨fun c hc => Or.inl (h c hc), ⟨d, hd, h d hd⟩, by rw [hcount h]; decide⟩
    · obtain ⟨d, hd⟩ := List.exists_mem_of_ne_nil _ hne
      refine ⟨run_append_point ha fun c hc => Or.inl (hb c hc), ⟨d, ?_, ?_⟩, ?_⟩
      · rw [List.mem_append] at hd
        rw [List.mem_append, List.mem_cons]
        exact hd.imp_right Or.inr
      · exact (List.mem_append.1 hd).elim (ha d) (hb d)
      · rw [List.count_append, List.count_cons_self, hcount ha, hcount hb]

theorem read?_of_isNumeral {w : Text} (h : IsNumeral w) :
    ∃ d, Decimal.read? w = some d ∧ Binary32.IsNearest (numeralValue w) d.toBinary32 := by
  rcases isNumeral_iff.1 h with ⟨hw, hne⟩ | ⟨a, b, rfl, ha, hb, hne⟩
  · refine ⟨_, read?_digits hw hne, ?_⟩
    have hnearest := isNearest_toBinary32 (Text.digitsValue w) 0
    rwa [pow_zero, div_one, ← numeralValue_digits hw] at hnearest
  · refine ⟨_, read?_point ha hb hne, ?_⟩
    rw [numeralValue_point ha hb]
    exact isNearest_toBinary32 (Text.digitsValue (a ++ b)) b.length

theorem read?_of_not_isNumeral {w : Text}
    (hw : ∀ c ∈ w, Byte.isDigit c = true ∨ c = Byte.point) (h : ¬IsNumeral w) :
    Decimal.read? w = none := by
  rw [isNumeral_iff, not_or] at h
  rcases run_cases hw with hdigits | ⟨a, b, rfl, ha, hb⟩
  · by_cases hne : w = []
    · rw [hne]; rfl
    · exact absurd ⟨hdigits, hne⟩ h.1
  · rcases run_cases hb with hdigits | ⟨b, d, rfl, hb, hd⟩
    · by_cases hne : a ++ b = []
      · obtain ⟨rfl, rfl⟩ := List.append_eq_nil_iff.1 hne
        rfl
      · exact absurd ⟨a, b, rfl, ha, hdigits, hne⟩ h.2
    · exact read?_two_points ha hb hd

/-- **Numerals are read, and nothing else.** A run of digits and points is read exactly if it is a
numeral, as the number nearest to its value. -/
theorem read?_eq_some_iff {w : Text} (hw : ∀ c ∈ w, Byte.isDigit c = true ∨ c = Byte.point)
    {x : Binary32} :
    Binary32.read? w = some x ↔ IsNumeral w ∧ Binary32.IsNearest (numeralValue w) x := by
  by_cases hnum : IsNumeral w
  · obtain ⟨d, hread, hd⟩ := read?_of_isNumeral hnum
    rw [Binary32.read?, hread, Option.map_some, Option.some.injEq]
    constructor
    · intro hx
      subst hx
      exact ⟨hnum, hd⟩
    · intro h
      exact hd.unique h.2
  · rw [Binary32.read?, read?_of_not_isNumeral hw hnum, Option.map_none]
    constructor
    · intro h
      cases h
    · intro h
      exact absurd h.1 hnum

end SlotLisp
