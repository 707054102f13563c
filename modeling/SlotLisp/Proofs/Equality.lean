import Mathlib.Data.List.Forall2
import SlotLisp.Proofs.Outcome

/-!
# Equality of atoms is a partial equivalence

A NaN differs from itself, so equality is not reflexive. A row that holds a NaN still equals itself
where it is compared as one and the same object, and it differs from every other row.

**Theorem (`equality_laws`).** Equality of atoms is symmetric and transitive, whatever is one object
with what. It is reflexive on atoms without a NaN, and on lists and closures that are compared with
themselves. Lists without a NaN are compared item by item. So the builtin `=`, which compares all
values with the first, gives the same answer for the values in any order.

What makes transitivity go through is that a NaN is never equal to anything in the ordinary way. So
of two comparisons with a NaN in the middle, both are made inside one and the same row
(`beqRow_trans`).
-/

namespace SlotLisp

/-! ## Numbers -/

namespace Binary32

variable {x y z : Binary32}

theorem beq_iff :
    (x == y) = true ↔ x.isNaN = false ∧ y.isNaN = false ∧
      (x = y ∨ x.isZero = true ∧ y.isZero = true) := by
  change beq x y = true ↔ _
  obtain ⟨bits⟩ := x
  obtain ⟨bits'⟩ := y
  simp [beq, and_assoc]

theorem beq_self (h : x.isNaN = false) : (x == x) = true := beq_iff.2 ⟨h, h, .inl rfl⟩

theorem beq_symm (h : (x == y) = true) : (y == x) = true := by
  obtain ⟨hx, hy, rfl | ⟨hzero, hzero'⟩⟩ := beq_iff.1 h
  · exact h
  · exact beq_iff.2 ⟨hy, hx, .inr ⟨hzero', hzero⟩⟩

theorem beq_trans (hxy : (x == y) = true) (hyz : (y == z) = true) : (x == z) = true := by
  obtain ⟨hx, -, hxy'⟩ := beq_iff.1 hxy
  obtain ⟨-, hz, hyz'⟩ := beq_iff.1 hyz
  rcases hxy' with rfl | ⟨hzero, -⟩
  · exact hyz
  · rcases hyz' with rfl | ⟨-, hzero'⟩
    · exact hxy
    · exact beq_iff.2 ⟨hx, hz, .inr ⟨hzero, hzero'⟩⟩

end Binary32

/-! ## Tags -/

namespace Tag

theorem same_comm (i j : Tag) : i.same j = j.same i := by
  cases i <;> cases j <;> simp [same, eq_comm]

theorem same_trans {i j k : Tag} (hij : i.same j = true) (hjk : j.same k = true) :
    i.same k = true := by
  cases i <;> cases j <;> cases k <;> simp_all [same]

theorem same_self (i : Tag) : i.same i = i.isSome := by
  cases i <;> simp [same]

end Tag

namespace Atom

/-! ## Kinds -/

/-- Atoms of one kind. -/
inductive SameKind : Atom → Atom → Prop
  | symbol {s t : Text} : SameKind (symbol s) (symbol t)
  | number {x y : Binary32} : SameKind (number x) (number y)
  | string {s t : Text} : SameKind (string s) (string t)
  | list {as bs : List Atom} {i j : Tag} : SameKind (list as i) (list bs j)
  | bool {b b' : Bool} : SameKind (bool b) (bool b')
  | nil : SameKind nil nil
  | error {e e' : EvalError} : SameKind (error e) (error e')
  | upvalue {i j : ℕ} {s t : Text} : SameKind (upvalue i s) (upvalue j t)
  | closure {c d : Closure} : SameKind (closure c) (closure d)
  | native {f g : Builtin} : SameKind (native f) (native g)

theorem sameKind_of_beq {a b : Atom} (h : a.beq b = true) : SameKind a b := by
  cases a <;> cases b <;> first | constructor | cases h

/-! ## Items of rows -/

/-- Equality of two items at one place of two rows, which are one object or not. -/
def EqualItems (same : Bool) (a b : Atom) : Prop :=
  a.beq b = true ∨ same = true ∧ sameNaN a b = true

theorem sameNaN_iff {a b : Atom} : sameNaN a b = true ↔ a = b ∧ a.isNaN = true := by
  cases a <;> cases b <;> simp [sameNaN, isNaN]
  next x y =>
  obtain ⟨bits⟩ := x
  obtain ⟨bits'⟩ := y
  simp [and_comm]

/-- In the ordinary way, a NaN is equal to nothing. -/
theorem isNaN_of_beq {a b : Atom} (h : a.beq b = true) : a.isNaN = false ∧ b.isNaN = false := by
  cases sameKind_of_beq h with
  | number =>
    obtain ⟨hx, hy, -⟩ := Binary32.beq_iff.1 h
    exact ⟨hx, hy⟩
  | _ => exact ⟨rfl, rfl⟩

theorem beqRow_cons_iff {same : Bool} {a b : Atom} {as bs : List Atom} :
    beqRow same (a :: as) (b :: bs) = true ↔ EqualItems same a b ∧ beqRow same as bs = true := by
  rw [beqRow, Bool.and_eq_true, Bool.or_eq_true, Bool.and_eq_true, EqualItems]

/-- Rows are compared place by place. -/
theorem beqRow_iff_forall₂ {same : Bool} {as bs : List Atom} :
    beqRow same as bs = true ↔ List.Forall₂ (EqualItems same) as bs := by
  induction as generalizing bs with
  | nil => cases bs <;> simp [beqRow]
  | cons a as ih =>
    cases bs with
    | nil => simp [beqRow]
    | cons b bs => rw [beqRow_cons_iff, List.forall₂_cons, ih]

/-! ## Symmetry -/

mutual

theorem beq_symm (a b : Atom) (h : a.beq b = true) : b.beq a = true := by
  have hkind := sameKind_of_beq h
  cases a with
  | number x =>
    cases hkind with
    | number => exact Binary32.beq_symm h
  | list as i =>
    cases hkind with
    | @list _ bs _ j =>
      rw [beq] at h
      rw [beq, Tag.same_comm]
      exact beqRow_symm _ as bs h
  | closure c =>
    cases hkind with
    | @closure _ d =>
      obtain ⟨slots, code, i, k⟩ := c
      obtain ⟨slots', code', j, l⟩ := d
      rw [beq, Bool.and_eq_true] at h
      rw [beq, Bool.and_eq_true, Tag.same_comm j, Tag.same_comm l]
      exact ⟨beqRow_symm _ slots slots' h.1, beqRow_symm _ code code' h.2⟩
  | _ =>
    cases hkind
    simp_all [beq]

theorem beqRow_symm (same : Bool) (as bs : List Atom) (h : beqRow same as bs = true) :
    beqRow same bs as = true := by
  cases as with
  | nil =>
    cases bs with
    | nil => rfl
    | cons => cases h
  | cons a as =>
    cases bs with
    | nil => cases h
    | cons b bs =>
      obtain ⟨hitem, hrow⟩ := beqRow_cons_iff.1 h
      refine beqRow_cons_iff.2 ⟨?_, beqRow_symm same as bs hrow⟩
      rcases hitem with hab | ⟨hsame, hnan⟩
      · exact .inl (beq_symm a b hab)
      · obtain ⟨rfl, -⟩ := sameNaN_iff.1 hnan
        exact .inr ⟨hsame, hnan⟩

end

/-! ## Transitivity -/

/-- Of items, the one in the middle is a NaN for both comparisons or for none. -/
theorem EqualItems.trans {same same' same'' : Bool} {a b c : Atom}
    (hsame : same = true → same' = true → same'' = true)
    (htrans : a.beq b = true → b.beq c = true → a.beq c = true)
    (hab : EqualItems same a b) (hbc : EqualItems same' b c) : EqualItems same'' a c := by
  rcases hab with hab | ⟨hs, hab⟩
  · rcases hbc with hbc | ⟨-, hbc⟩
    · exact .inl (htrans hab hbc)
    · have hb := (isNaN_of_beq hab).2
      rw [(sameNaN_iff.1 hbc).2] at hb
      cases hb
  · obtain ⟨rfl, ha⟩ := sameNaN_iff.1 hab
    rcases hbc with hbc | ⟨hs', hbc⟩
    · rw [(isNaN_of_beq hbc).1] at ha
      cases ha
    · exact .inr ⟨hsame hs hs', hbc⟩

mutual

theorem beq_trans (a b c : Atom) (hab : a.beq b = true) (hbc : b.beq c = true) :
    a.beq c = true := by
  have hkind := sameKind_of_beq hab
  have hkind' := sameKind_of_beq hbc
  cases a with
  | number x =>
    cases hkind
    cases hkind'
    exact Binary32.beq_trans hab hbc
  | list as i =>
    cases hkind with
    | @list _ bs _ j =>
      cases hkind' with
      | @list _ cs _ k =>
        rw [beq] at hab hbc ⊢
        exact beqRow_trans Tag.same_trans as bs cs hab hbc
  | closure c =>
    cases hkind with
    | @closure _ d =>
      cases hkind' with
      | @closure _ e =>
        obtain ⟨slots, code, i, k⟩ := c
        obtain ⟨slots', code', j, l⟩ := d
        obtain ⟨slots'', code'', j', l'⟩ := e
        rw [beq, Bool.and_eq_true] at hab hbc ⊢
        exact ⟨beqRow_trans Tag.same_trans slots slots' slots'' hab.1 hbc.1,
          beqRow_trans Tag.same_trans code code' code'' hab.2 hbc.2⟩
  | _ =>
    cases hkind
    cases hkind'
    simp_all [beq]

/-- If the first and the third row are one object with the second, they are one object. -/
theorem beqRow_trans {same same' same'' : Bool} (hsame : same = true → same' = true → same'' = true)
    (as bs cs : List Atom) (hab : beqRow same as bs = true) (hbc : beqRow same' bs cs = true) :
    beqRow same'' as cs = true := by
  cases as with
  | nil =>
    cases bs with
    | nil =>
      cases cs with
      | nil => rfl
      | cons => cases hbc
    | cons => cases hab
  | cons a as =>
    cases bs with
    | nil => cases hab
    | cons b bs =>
      cases cs with
      | nil => cases hbc
      | cons c cs =>
        obtain ⟨hitem, hrow⟩ := beqRow_cons_iff.1 hab
        obtain ⟨hitem', hrow'⟩ := beqRow_cons_iff.1 hbc
        exact beqRow_cons_iff.2 ⟨hitem.trans hsame (beq_trans a b c) hitem',
          beqRow_trans hsame as bs cs hrow hrow'⟩

end

instance : PartialEquivBEq Atom where
  symm := beq_symm _ _
  trans := beq_trans _ _ _

/-! ## Atoms that equal themselves -/

mutual

/-- No NaN, at any depth of lists and closures. -/
def nanFree : Atom → Bool
  | number x => !x.isNaN
  | list items _ => nanFreeAll items
  | closure ⟨slots, code, _, _⟩ => nanFreeAll slots && nanFreeAll code
  | _ => true

def nanFreeAll : List Atom → Bool
  | [] => true
  | a :: as => nanFree a && nanFreeAll as

end

/-- A row that holds a NaN has a tag. -/
def rowIdentified (tag : Tag) (row : List Atom) : Bool := tag.isSome || row.all (!isNaN ·)

mutual

/-- Rows that hold a NaN have a tag, at any depth of lists and closures. -/
def identified : Atom → Bool
  | list items tag => rowIdentified tag items && identifiedAll items
  | closure ⟨slots, code, i, k⟩ =>
    rowIdentified i slots && rowIdentified k code && (identifiedAll slots && identifiedAll code)
  | _ => true

def identifiedAll : List Atom → Bool
  | [] => true
  | a :: as => identified a && identifiedAll as

end

theorem isNaN_of_nanFree {a : Atom} (h : a.nanFree = true) : a.isNaN = false := by
  cases a <;> simp_all [nanFree, isNaN]

theorem nanFreeAll_iff {as : List Atom} : nanFreeAll as = true ↔ ∀ a ∈ as, a.nanFree = true := by
  induction as with
  | nil => simp [nanFreeAll]
  | cons a as ih => simp [nanFreeAll, ih]

theorem rowIdentified_of_nanFreeAll {row : List Atom} (h : nanFreeAll row = true) (tag : Tag) :
    rowIdentified tag row = true := by
  have hrow : row.all (!isNaN ·) = true :=
    List.all_eq_true.2 fun a ha => by simp [isNaN_of_nanFree (nanFreeAll_iff.1 h a ha)]
  rw [rowIdentified, hrow, Bool.or_true]

mutual

theorem identified_of_nanFree (a : Atom) (h : a.nanFree = true) : a.identified = true := by
  cases a with
  | list items tag =>
    rw [nanFree] at h
    rw [identified, rowIdentified_of_nanFreeAll h, identifiedAll_of_nanFreeAll items h]
    rfl
  | closure c =>
    obtain ⟨slots, code, i, k⟩ := c
    rw [nanFree, Bool.and_eq_true] at h
    rw [identified, rowIdentified_of_nanFreeAll h.1, rowIdentified_of_nanFreeAll h.2,
      identifiedAll_of_nanFreeAll slots h.1, identifiedAll_of_nanFreeAll code h.2]
    rfl
  | _ => rfl

theorem identifiedAll_of_nanFreeAll (as : List Atom) (h : nanFreeAll as = true) :
    identifiedAll as = true := by
  cases as with
  | nil => rfl
  | cons a as =>
    rw [nanFreeAll, Bool.and_eq_true] at h
    rw [identifiedAll, identified_of_nanFree a h.1, identifiedAll_of_nanFreeAll as h.2]
    rfl

end

mutual

/-- A list or closure equals itself, also if it holds a NaN. -/
theorem beq_self (a : Atom) (h : a.identified = true) (hnan : a.isNaN = false) :
    a.beq a = true := by
  cases a with
  | number x => exact Binary32.beq_self hnan
  | list items tag =>
    rw [identified, Bool.and_eq_true] at h
    rw [beq]
    exact beqRow_self tag items h.1 h.2
  | closure c =>
    obtain ⟨slots, code, i, k⟩ := c
    simp only [identified, Bool.and_eq_true] at h
    rw [beq, beqRow_self i slots h.1.1 h.2.1, beqRow_self k code h.1.2 h.2.2]
    rfl
  | _ => simp [beq]

theorem beqRow_self (tag : Tag) (row : List Atom) (htag : rowIdentified tag row = true)
    (h : identifiedAll row = true) : beqRow (tag.same tag) row row = true := by
  cases row with
  | nil => rfl
  | cons a as =>
    rw [identifiedAll, Bool.and_eq_true] at h
    have htag' : rowIdentified tag as = true := by
      rw [rowIdentified, List.all_cons] at htag
      rw [rowIdentified]
      grind
    refine beqRow_cons_iff.2 ⟨?_, beqRow_self tag as htag' h.2⟩
    cases hnan : a.isNaN with
    | false => exact .inl (beq_self a h.1 hnan)
    | true =>
      -- The row holds a NaN, so it has a tag.
      have hsome : tag.isSome = true := by simpa [rowIdentified, hnan] using htag
      exact .inr ⟨by rw [Tag.same_self, hsome], sameNaN_iff.2 ⟨rfl, hnan⟩⟩

end

/-! ## Lists item by item -/

/-- Where no object is compared with itself, or no NaN is in sight, rows are equal if they hold
equal items. -/
theorem beqRow_iff_forall₂_beq {same : Bool} {as bs : List Atom}
    (h : same = false ∨ ∀ a ∈ as, a.isNaN = false) :
    beqRow same as bs = true ↔ List.Forall₂ (fun a b => (a == b) = true) as bs := by
  rw [beqRow_iff_forall₂]
  constructor
  · intro hrow
    induction hrow with
    | nil => exact .nil
    | @cons a b as bs hitem _ ih =>
      refine .cons ?_ (ih (h.imp_right fun has c hc => has c (List.mem_cons_of_mem a hc)))
      rcases hitem with hitem | ⟨hsame, hnan⟩
      · exact hitem
      · rcases h with h | h
        · rw [hsame] at h
          cases h
        · have ha := h a List.mem_cons_self
          rw [(sameNaN_iff.1 hnan).2] at ha
          cases ha
  · intro hrow
    exact hrow.imp fun _ _ hitem => .inl hitem

end Atom

/-! ## The builtin `=` -/

namespace Eval

/-- All values equal the first if and only if any two of them are equal. -/
theorem allEqual_iff_pairwise {vs : List Atom} :
    allEqual vs = true ↔ vs.Pairwise fun v w => (v == w) = true := by
  cases vs with
  | nil => simp [allEqual]
  | cons v vs =>
    rw [allEqual, List.all_eq_true, List.pairwise_cons]
    constructor
    · intro h
      refine ⟨fun w hw => BEq.symm (h w hw), List.pairwise_of_forall_mem_list ?_⟩
      intro w hw u hu
      exact BEq.trans (h w hw) (BEq.symm (h u hu))
    · intro h w hw
      exact BEq.symm (h.1 w hw)

theorem pairwise_iff_ne {vs : List Atom} :
    (vs.Pairwise fun v w => (v == w) = true) ↔
      ∀ (i j : ℕ) (hi : i < vs.length) (hj : j < vs.length), i ≠ j → (vs[i] == vs[j]) = true := by
  rw [List.pairwise_iff_getElem]
  constructor
  · intro h i j hi hj hne
    rcases Nat.lt_or_gt_of_ne hne with hlt | hlt
    · exact h i j hi hj hlt
    · exact BEq.symm (h j i hj hi hlt)
  · intro h i j hi hj hlt
    exact h i j hi hj (Nat.ne_of_lt hlt)

theorem allEqual_perm {vs ws : List Atom} (h : vs.Perm ws) : allEqual vs = allEqual ws := by
  rw [Bool.eq_iff_iff, allEqual_iff_pairwise, allEqual_iff_pairwise]
  exact h.pairwise_iff BEq.symm

end Eval

/-- The builtin `=` compares the values of its arguments. -/
theorem Machine.callBuiltin_equal {m m' : Machine} {context : Closure} {params vs : List Atom}
    (h : m.strictArguments context params = (.ok vs, m')) :
    m.callBuiltin .equal context params = (.ok (.bool (Eval.allEqual vs)), m') :=
  m.onStore_bind_of_ok h _

/-- **The laws of equality.** Equality of atoms is symmetric and transitive, also between rows that
are one object and hold a NaN. It is reflexive on atoms without a NaN. Lists and closures equal
themselves even if there is a NaN in them, provided that rows which hold one can be told apart. Two
lists without a NaN are equal if and only if they are of one length and hold equal atoms at every
place.

So the builtin `=` says whether any two of the values are equal, and it says the same of the values
in any other order. -/
theorem equality_laws :
    (∀ a b : Atom, (a == b) = (b == a)) ∧
    (∀ a b c : Atom, (a == b) = true → (b == c) = true → (a == c) = true) ∧
    (∀ a : Atom, a.nanFree = true → (a == a) = true) ∧
    (∀ a : Atom, a.isNaN = false → a.identified = true → (a == a) = true) ∧
    (∀ (as bs : List Atom) (i j : Tag), (Atom.list as i).nanFree = true →
      (Atom.list bs j).nanFree = true → ((Atom.list as i == Atom.list bs j) = true ↔
        as.length = bs.length ∧
          ∀ (k : ℕ) (hk : k < as.length) (hk' : k < bs.length), (as[k] == bs[k]) = true)) ∧
    (∀ (m m' : Machine) (context : Closure) (params vs : List Atom),
      m.strictArguments context params = (.ok vs, m') →
      ∃ answer, m.callBuiltin .equal context params = (.ok (.bool answer), m') ∧
        (answer = true ↔ ∀ (i j : ℕ) (hi : i < vs.length) (hj : j < vs.length),
          i ≠ j → (vs[i] == vs[j]) = true) ∧
        ∀ (n n' : Machine) (context' : Closure) (params' ws : List Atom),
          n.strictArguments context' params' = (.ok ws, n') → vs.Perm ws →
            n.callBuiltin .equal context' params' = (.ok (.bool answer), n')) := by
  refine ⟨fun a b => BEq.comm, fun a b c => BEq.trans, fun a h => ?_, fun a hnan h => ?_, ?_, ?_⟩
  · exact Atom.beq_self a (Atom.identified_of_nanFree a h) (Atom.isNaN_of_nanFree h)
  · exact Atom.beq_self a h hnan
  · intro as bs i j has _
    have hitems : ∀ a ∈ as, a.isNaN = false :=
      fun a ha => Atom.isNaN_of_nanFree (Atom.nanFreeAll_iff.1 has a ha)
    exact (Atom.beqRow_iff_forall₂_beq (.inr hitems)).trans List.forall₂_iff_get
  · intro m m' context params vs h
    refine ⟨Eval.allEqual vs, Machine.callBuiltin_equal h, ?_, ?_⟩
    · rw [Eval.allEqual_iff_pairwise, Eval.pairwise_iff_ne]
    · intro n n' context' params' ws h' hperm
      rw [Machine.callBuiltin_equal h', Eval.allEqual_perm hperm]

/-- A list that holds a NaN, directly and in a closure, is equal to itself and not to another list
of the same atoms. The two zeros are equal, also in lists. And `=` finds `0`, `-0` and the sum of
`-0` alone equal, in any order. -/
theorem equality_laws_nan_and_zeros :
    let nan : Atom := .number .invalid
    let zero : Atom := .number ⟨0⟩
    let minusZero : Atom := .number ⟨0x80000000⟩
    let l (n : ℕ) : Atom := .list [nan, .closure ⟨[nan], [zero], some 0, none⟩] (some n)
    let sum : Atom := .list [.symbol (ascii "+"), minusZero] none
    let m : Machine := {}
    ((l 1).isNaN = false ∧ (l 1).identified = true ∧ (l 1 == l 1) = true ∧ (l 1 == l 2) = false) ∧
    ((Atom.list [zero] none).nanFree = true ∧ (Atom.list [minusZero] none).nanFree = true ∧
      (Atom.list [zero] none == Atom.list [minusZero] none) = true) ∧
    (m.strictArguments .empty [zero, minusZero, sum] = (.ok [zero, minusZero, zero], m) ∧
      m.callBuiltin .equal .empty [zero, minusZero, sum] = (.ok (.bool true), m)) ∧
    (m.strictArguments .empty [minusZero, sum, zero] = (.ok [minusZero, zero, zero], m) ∧
      [zero, minusZero, zero].Perm [minusZero, zero, zero] ∧
      m.callBuiltin .equal .empty [minusZero, sum, zero] = (.ok (.bool true), m)) := by
  have hvalues : ({} : Machine).strictArguments .empty [.number ⟨0⟩, .number ⟨0x80000000⟩,
      .list [.symbol (ascii "+"), .number ⟨0x80000000⟩] none] =
      (.ok [.number ⟨0⟩, .number ⟨0x80000000⟩, .number ⟨0⟩], {}) := rfl
  have hvalues' : ({} : Machine).strictArguments .empty [.number ⟨0x80000000⟩,
      .list [.symbol (ascii "+"), .number ⟨0x80000000⟩] none, .number ⟨0⟩] =
      (.ok [.number ⟨0x80000000⟩, .number ⟨0⟩, .number ⟨0⟩], {}) := rfl
  intro nan zero minusZero l sum m
  obtain ⟨-, -, -, hself, hlists, hequal⟩ := equality_laws
  have hl : (l 1).identified = true := by decide
  have hzero : (Atom.list [zero] none).nanFree = true := by decide
  have hminus : (Atom.list [minusZero] none).nanFree = true := by decide
  have hperm : [zero, minusZero, zero].Perm [minusZero, zero, zero] := .swap _ _ _
  have hpairs : ∀ v ∈ [zero, minusZero, zero], ∀ w ∈ [zero, minusZero, zero], (v == w) = true := by
    simp only [List.forall_mem_cons]
    decide
  obtain ⟨answer, hcall, hiff, hsame⟩ := hequal m m .empty _ _ hvalues
  obtain rfl : answer = true :=
    hiff.2 fun i j hi hj _ => hpairs _ (List.getElem_mem hi) _ (List.getElem_mem hj)
  refine ⟨⟨rfl, hl, hself (l 1) rfl hl, by decide⟩, ⟨hzero, hminus, ?_⟩, ⟨hvalues, hcall⟩,
    hvalues', hperm, hsame m m .empty _ _ hvalues' hperm⟩
  refine (hlists [zero] [minusZero] none none hzero hminus).2 ⟨rfl, fun k hk hk' => ?_⟩
  obtain rfl : k = 0 := by simpa using hk
  exact (by decide : (zero == minusZero) = true)

end SlotLisp
