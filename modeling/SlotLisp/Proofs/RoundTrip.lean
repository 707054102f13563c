import SlotLisp.Printer
import SlotLisp.Proofs.Balance
import SlotLisp.Proofs.NumberText

/-!
# What is read and written reads back

**Theorem (`read_render`).** An atom that was read from a text is written as a text from which the
same atom is read again, provided that all numbers in it are written with digits and points alone.

Writing spaces the atoms anew, so nothing about the text is kept but its marks. These are all that
decides whether a text is balanced (`scan?_marks`). So the extent of each list is found again,
whatever its symbols contain.
-/

namespace SlotLisp

/-! ## Rows of written atoms -/

/-- Atoms as they are written inside a list. -/
def rowText (as : List Atom) : Text := (ascii " ").intercalate (as.map Atom.render)

/-- What follows the first of them. -/
def laterText : List Atom → Text
  | [] => []
  | as => 32 :: rowText as

theorem rowText_cons (a : Atom) (as : List Atom) :
    rowText (a :: as) = a.render ++ laterText as := by
  cases as with
  | nil => simp [rowText, laterText]
  | cons b as =>
    rw [rowText, List.map_cons, List.map_cons, List.intercalate_cons_cons, ← List.map_cons,
      List.append_assoc]
    rfl

theorem rowText_string (u : Text) (as : List Atom) :
    rowText (.string u :: as) = Byte.quote :: (u ++ Byte.quote :: laterText as) := by
  rw [rowText_cons, Atom.render, Atom.quoted, List.append_assoc, List.append_assoc]
  rfl

theorem rowText_list (items : List Atom) (tag : Tag) (as : List Atom) :
    rowText (.list items tag :: as) =
      Byte.openParen :: (rowText items ++ Byte.closeParen :: laterText as) := by
  rw [rowText_cons, Atom.render, Atom.renderAll_eq_map, List.append_assoc, List.append_assoc]
  rfl

theorem separated_laterText (as : List Atom) : Separated (laterText as) := by
  cases as with
  | nil => exact separated_nil
  | cons a as => exact separated_space rfl _

theorem items_laterText {as : List Atom} (h : Items (rowText as) as) :
    Items (laterText as) as := by
  cases as with
  | nil => exact .empty
  | cons a as => exact .space rfl h

theorem marks_laterText (as : List Atom) : marks (laterText as) = marks (rowText as) := by
  cases as <;> rfl

/-! ## Numbers -/

mutual

/-- The numbers that occur in an atom, inside lists to any depth. -/
def Atom.numbers : Atom → List Binary32
  | .number x => [x]
  | .list items _ => Atom.numbersAll items
  | _ => []

def Atom.numbersAll : List Atom → List Binary32
  | [] => []
  | a :: as => a.numbers ++ Atom.numbersAll as

end

/-- The number is written with digits and points alone, without sign and exponent. -/
def Binary32.IsPlain (x : Binary32) : Prop :=
  ∀ c ∈ x.toText, Byte.isDigit c = true ∨ c = Byte.point

namespace Binary32

theorem IsPlain.isFinite {x : Binary32} (hx : x.IsPlain) (hnan : x.isNaN = false) :
    x.isFinite = true := by
  by_contra hfinite
  have hmagnitude : x.magnitude = infiniteMagnitude := by
    have hle : x.magnitude ≤ infiniteMagnitude := by simpa [isNaN] using hnan
    have hge : infiniteMagnitude ≤ x.magnitude := by simpa [Binary32.isFinite] using hfinite
    exact le_antisymm hle hge
  have htext : x.toText = x.signText ++ ascii "inf" := by
    simp [toText, isZero, isNaN, isInfinite, hmagnitude, infiniteMagnitude]
  have hletter : (105 : Byte) ∈ x.toText := by
    rw [htext]
    exact List.mem_append_right _ (by decide)
  exact absurd (hx 105 hletter) (by decide)

/-- A number that was read and is written plainly is read from its text. -/
theorem IsNearest.toText {q : ℚ} {x : Binary32} (hx : IsNearest q x) (hplain : x.IsPlain) :
    IsNumeral x.toText ∧ IsNearest (numeralValue x.toText) x := by
  have hread := read?_toText (hplain.isFinite hx.isNaN)
  have heq : (if x.isZero then zero else x) = x := by
    split_ifs with hzero
    · have hmagnitude : x.magnitude = 0 := by simpa [isZero] using hzero
      rw [← ofMagnitude_magnitude x, hx.isNegative, hmagnitude]
      rfl
    · rfl
  rw [heq] at hread
  exact (read?_eq_some_iff hplain).1 hread

end Binary32

/-! ## Reading what was written -/

/-- What was read is read again from what is written, which has the same marks. -/
theorem items_rowText {t : Text} {as : List Atom} (h : Items t as)
    (hplain : ∀ x ∈ Atom.numbersAll as, x.IsPlain) :
    Items (rowText as) as ∧ marks (rowText as) = marks t := by
  induction h with
  | empty => exact ⟨.empty, rfl⟩
  | @space c r as hc _ ih =>
    obtain ⟨hitems, hmarks⟩ := ih hplain
    have hspace : marks [c] = [] := marks_eq_nil (by simpa using isMark_of_isSpace hc)
    refine ⟨hitems, ?_⟩
    rw [hmarks, marks_cons, hspace, List.nil_append]
  | symbol hw hsep _ ih =>
    obtain ⟨hitems, hmarks⟩ := ih hplain
    rw [rowText_cons, Atom.render]
    refine ⟨.symbol hw (separated_laterText _) (items_laterText hitems), ?_⟩
    rw [marks_append, marks_append, marks_laterText, hmarks]
  | @number w r x as hw hx hsep _ ih =>
    rw [Atom.numbersAll, Atom.numbers] at hplain
    obtain ⟨hitems, hmarks⟩ := ih fun y hy => hplain y (List.mem_append_right _ hy)
    have hnumber : x.IsPlain := hplain x (List.mem_append_left _ (List.mem_singleton_self x))
    obtain ⟨htext, hnearest⟩ := hx.toText hnumber
    rw [rowText_cons, Atom.render]
    refine ⟨.number htext hnearest (separated_laterText _) (items_laterText hitems), ?_⟩
    rw [marks_append, marks_append, marks_laterText, hmarks,
      marks_eq_nil fun c hc => isMark_of_run (hnumber c hc),
      marks_eq_nil fun c hc => isMark_of_run (hw.run c hc)]
  | @string u r as hu _ ih =>
    obtain ⟨hitems, hmarks⟩ := ih hplain
    rw [rowText_string]
    refine ⟨.string hu (items_laterText hitems), ?_⟩
    rw [marks_cons, marks_append, marks_cons _ (laterText as), marks_laterText, hmarks,
      ← marks_cons, ← marks_append, ← marks_cons]
  | @list w r items as hb _ _ ihw ihr =>
    rw [Atom.numbersAll, Atom.numbers] at hplain
    obtain ⟨hinside, hmarksw⟩ := ihw fun y hy => hplain y (List.mem_append_left _ hy)
    obtain ⟨hitems, hmarks⟩ := ihr fun y hy => hplain y (List.mem_append_right _ hy)
    rw [rowText_list]
    refine ⟨.list (hb.congr hmarksw) hinside (items_laterText hitems), ?_⟩
    rw [marks_cons, marks_append, marks_cons _ (laterText as), marks_laterText, hmarks, hmarksw,
      ← marks_cons, ← marks_append, ← marks_cons]

/-- Each atom that was read from a text could have been read alone. -/
theorem Items.exists_singleton {t : Text} {as : List Atom} (h : Items t as) :
    ∀ a ∈ as, ∃ u, Items u [a] := by
  induction h with
  | empty => simp
  | space _ _ ih => exact ih
  | symbol hw _ _ ih => exact List.forall_mem_cons.2 ⟨⟨_, .symbol hw separated_nil .empty⟩, ih⟩
  | number hw hx _ _ ih =>
    exact List.forall_mem_cons.2 ⟨⟨_, .number hw hx separated_nil .empty⟩, ih⟩
  | string hu _ ih => exact List.forall_mem_cons.2 ⟨⟨_, .string hu .empty⟩, ih⟩
  | list hb hw _ _ ih => exact List.forall_mem_cons.2 ⟨⟨_, .list hb hw .empty⟩, ih⟩

theorem Atom.numbersAll_eq_flatMap (as : List Atom) :
    Atom.numbersAll as = as.flatMap Atom.numbers := by
  induction as with
  | nil => rfl
  | cons a as ih => rw [Atom.numbersAll, ih, List.flatMap_cons]

/-- **What is read and written reads back.** Each atom of a text is read again from its own text,
and is then written the same, if all numbers in the text are written with digits and points alone.
-/
theorem read_render {t : Text} {as : List Atom} (h : read t = .ok as)
    (hplain : ∀ x ∈ Atom.numbersAll as, x.IsPlain) :
    ∀ a ∈ as, read a.render = .ok [a] ∧
      (read a.render).map (List.map Atom.render) = .ok [a.render] := by
  intro a ha
  obtain ⟨u, hu⟩ := (items_of_readFrom h).exists_singleton a ha
  have hnumbers : ∀ x ∈ Atom.numbersAll [a], x.IsPlain := by
    intro x hx
    rw [Atom.numbersAll_eq_flatMap, List.flatMap_singleton] at hx
    refine hplain x ?_
    rw [Atom.numbersAll_eq_flatMap]
    exact List.mem_flatMap.2 ⟨a, ha, hx⟩
  have hitems := (items_rowText hu hnumbers).1
  rw [rowText_cons, laterText, List.append_nil] at hitems
  have hread : read a.render = .ok [a] := readFrom_of_items hitems 0
  exact ⟨hread, by rw [hread]; rfl⟩

/-- A list of two symbols with quotes in them, a string with a parenthesis in it and a number. -/
theorem read_render_quotes :
    let t := ascii "( x\"y z\"w \"a)b\"1.50)"
    let a : Atom := .list [.symbol (ascii "x\"y"), .symbol (ascii "z\"w"), .string (ascii "a)b"),
      .number ⟨0x3fc00000⟩] none
    read t = .ok [a] ∧ (∀ x ∈ Atom.numbersAll [a], x.IsPlain) ∧
      a.render = ascii "(x\"y z\"w \"a)b\" 1.5)" ∧ read a.render = .ok [a] := by
  intro t a
  obtain ⟨hnumeral, hnearest⟩ := (read?_eq_some_iff (w := ascii "1.50") (by decide +kernel)
    (x := ⟨0x3fc00000⟩)).1 (by decide +kernel)
  have hstring : Items (ascii "\"a)b\"1.50") [.string (ascii "a)b"), .number ⟨0x3fc00000⟩] :=
    .string (u := ascii "a)b") (by decide)
      (.number (r := []) hnumeral hnearest separated_nil .empty)
  have hinside : Items (ascii " x\"y z\"w \"a)b\"1.50") [.symbol (ascii "x\"y"),
      .symbol (ascii "z\"w"), .string (ascii "a)b"), .number ⟨0x3fc00000⟩] :=
    .space rfl (.symbol (w := ascii "x\"y") (isSymbol_cons_iff.2 ⟨rfl, rfl⟩) (separated_space rfl _)
      (.space rfl (.symbol (w := ascii "z\"w") (isSymbol_cons_iff.2 ⟨rfl, rfl⟩)
        (separated_space rfl _) (.space rfl hstring))))
  have hbalanced : Balanced (ascii " x\"y z\"w \"a)b\"1.50") := rfl
  have hread : read t = .ok [a] := readFrom_of_items (.list (r := []) hbalanced hinside .empty) 0
  have hplain : ∀ x ∈ Atom.numbersAll [a], x.IsPlain := by
    intro x hx
    rw [List.mem_singleton.1 hx, Binary32.IsPlain]
    decide +kernel
  have hagain := read_render hread hplain a (List.mem_singleton_self a)
  exact ⟨hread, hplain, by decide +kernel, hagain.1⟩

end SlotLisp
