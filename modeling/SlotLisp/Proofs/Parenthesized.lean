import Mathlib.Algebra.Group.Nat.Even
import SlotLisp.Proofs.Balance

/-!
# Texts in parentheses

Where a list ends is found by a count of parentheses that takes every quote for the beginning or the
end of a string. A symbol may have a quote in it, and then the count is wrong about the strings
behind it. So a text that can be read alone may break when it is put in parentheses: the list may
find no end, or it may end too early.

**Theorem (`read_parenthesized`).** A text that is read as atoms is read in parentheses as the list
of these atoms, if it is balanced, and not at all otherwise.

An end that comes too early does no harm because the text can be read: its closing parentheses all
stand in strings and lists, so in front of each of them the text breaks off inside one
(`readFrom_before_close`).
-/

namespace SlotLisp

open Reader

def parenthesized (t : Text) : Text := Byte.openParen :: (t ++ [Byte.closeParen])

/-! ## Texts that break off -/

section Unterminated

variable {p : ℕ} {u v : Text}

theorem readFrom_unterminatedString (hu : Byte.quote ∉ u) :
    readFrom p (Byte.quote :: u) = .error (.unterminatedString p) := by
  have hdrop : u.dropWhile (· != Byte.quote) = [] := by
    rw [List.dropWhile_eq_nil_iff]
    intro c hc
    rw [bne_iff_ne]
    rintro rfl
    exact hu hc
  rw [readFrom, if_neg (by decide), if_neg (by decide), if_neg (by decide), if_pos rfl]
  split
  · rfl
  · next h =>
    rw [hdrop] at h
    cases h

/-- A list has not ended where the rest of a balanced text is missing. -/
theorem readFrom_unterminatedList (h : Balanced (u ++ v)) :
    readFrom p (Byte.openParen :: u) = .error (.unterminatedList p) := by
  rw [readFrom, if_neg (by decide), if_neg (by decide), if_pos rfl]
  split
  · rfl
  · next inside rest hsplit =>
    obtain ⟨rfl, hscan⟩ := splitList?_eq_some_iff.1 hsplit
    rw [Balanced, List.append_assoc, scan?_append, hscan] at h
    cases h

end Unterminated

/-- In front of a closing parenthesis, a text of whole atoms breaks off. -/
theorem readFrom_before_close {t u v : Text} {as : List Atom} (h : Items t as)
    (ht : t = u ++ Byte.closeParen :: v) (p : ℕ) : ∃ e, readFrom p u = .error e := by
  induction h generalizing u p with
  | empty => simp at ht
  | space hc _ ih =>
    cases u with
    | nil =>
      cases ht
      cases hc
    | cons d u =>
      obtain ⟨rfl, rfl⟩ := List.cons.inj ht
      rw [readFrom_space hc]
      exact ih rfl _
  | @symbol w r as hw hsep _ ih =>
    have hclose : Byte.closeParen ∉ w := fun hmem => by cases hw.inSymbol hmem
    obtain ⟨u, rfl, rfl⟩ := exists_of_append_eq hclose ht
    obtain ⟨e, he⟩ := ih rfl (p + w.length)
    rw [readFrom_symbol hw hsep.of_append, he]
    exact ⟨e, rfl⟩
  | @number w r x as hw hx hsep _ ih =>
    have hclose : Byte.closeParen ∉ w := fun hmem => absurd (hw.run _ hmem) (by decide)
    obtain ⟨u, rfl, rfl⟩ := exists_of_append_eq hclose ht
    obtain ⟨e, he⟩ := ih rfl (p + w.length)
    rw [readFrom_number hw hx hsep.of_append, he]
    exact ⟨e, rfl⟩
  | @string s r as hs _ ih =>
    cases u with
    | nil => cases ht
    | cons d u =>
      obtain ⟨rfl, hrest⟩ := List.cons.inj ht
      rcases List.append_eq_append_iff.1 hrest with ⟨u', rfl, hr⟩ | ⟨s', rfl, -⟩
      · cases u' with
        | nil => cases hr
        | cons d u =>
          obtain ⟨rfl, rfl⟩ := List.cons.inj hr
          obtain ⟨e, he⟩ := ih rfl (p + s.length + 2)
          rw [readFrom_string hs, he]
          exact ⟨e, rfl⟩
      · -- The parenthesis stands in the string.
        have hu : Byte.quote ∉ u := fun hmem => hs (List.mem_append_left s' hmem)
        exact ⟨_, readFrom_unterminatedString hu⟩
  | @list w r items as hb hw _ _ ih =>
    cases u with
    | nil => cases ht
    | cons d u =>
      obtain ⟨rfl, hrest⟩ := List.cons.inj ht
      rcases List.append_eq_append_iff.1 hrest with ⟨u', rfl, hr⟩ | ⟨w', rfl, -⟩
      · cases u' with
        | nil =>
          -- The parenthesis closes the list.
          exact ⟨_, readFrom_unterminatedList (v := []) (by simpa using hb)⟩
        | cons d u =>
          obtain ⟨rfl, rfl⟩ := List.cons.inj hr
          obtain ⟨e, he⟩ := ih rfl (p + w.length + 2)
          rw [readFrom_list hb, readFrom_of_items hw, he]
          exact ⟨e, rfl⟩
      · -- The parenthesis stands in the list.
        exact ⟨_, readFrom_unterminatedList hb⟩

/-! ## Quotes -/

theorem scan?_quoted_byte {depth depth' : ℕ} {quoted quoted' : Bool} {c : Byte}
    (h : scan? depth quoted [c] = some (depth', quoted')) :
    quoted' = if c = Byte.quote then !quoted else quoted := by
  simp only [scan?] at h
  split_ifs at h ⊢ <;> cases h <;> rfl

/-- After an even number of quotes a scan is inside or outside strings as it was before. -/
theorem scan?_quoted_iff {depth depth' : ℕ} {quoted quoted' : Bool} {t : Text}
    (h : scan? depth quoted t = some (depth', quoted')) :
    quoted' = quoted ↔ Even (t.count Byte.quote) := by
  induction t generalizing depth quoted with
  | nil =>
    cases h
    simp
  | cons c t ih =>
    obtain ⟨⟨depth₁, quoted₁⟩, hc, ht⟩ := scan?_cons_iff.1 h
    have hbyte := scan?_quoted_byte hc
    have htext := ih ht
    by_cases hquote : c = Byte.quote
    · subst hquote
      rw [if_pos rfl] at hbyte
      rw [List.count_cons_self, Nat.even_add_one, ← htext, hbyte]
      cases quoted <;> cases quoted' <;> simp
    · rw [if_neg hquote] at hbyte
      rw [List.count_cons_of_ne hquote, ← htext, hbyte]

theorem Balanced.even_count_quote {t : Text} (h : Balanced t) : Even (t.count Byte.quote) :=
  (scan?_quoted_iff h).1 rfl

/-! ## Reading in parentheses -/

section Parenthesized

variable {t : Text} {as : List Atom} (h : Items t as)
include h

theorem read_parenthesized_of_balanced (hb : Balanced t) :
    read (parenthesized t) = .ok [.list as none] :=
  readFrom_of_items (.list hb h .empty) 0

/-- A text that is not balanced is not read in parentheses: the list has no end, or it ends inside a
string or a list of the text. -/
theorem read_parenthesized_of_not_balanced (hb : ¬Balanced t) :
    ∃ e, read (parenthesized t) = .error e := by
  rw [read, parenthesized, readFrom, if_neg (by decide), if_neg (by decide), if_pos rfl]
  split
  · exact ⟨_, rfl⟩
  · next inside rest hsplit =>
    obtain ⟨heq, hscan⟩ := splitList?_eq_some_iff.1 hsplit
    rcases List.append_eq_append_iff.1 heq with ⟨u', rfl, hr⟩ | ⟨v, hv, hrest⟩
    · cases u' with
      | nil =>
        rw [List.append_nil] at hscan
        exact absurd hscan hb
      | cons d u => simp at hr
    · cases v with
      | nil =>
        rw [List.append_nil] at hv
        exact absurd (hv ▸ hscan) hb
      | cons d v =>
        obtain ⟨rfl, -⟩ := List.cons.inj hrest
        obtain ⟨e, he⟩ := readFrom_before_close h hv (0 + 1)
        rw [he]
        exact ⟨e, rfl⟩

end Parenthesized

/-- **A text in parentheses keeps its meaning or is not read.** Let a text be read as atoms. In
parentheses it is read as the list of these atoms or not at all, and it is read exactly if it is
balanced. So it is read if no symbol among the atoms has a quote in it, and it is not read if its
number of quotes is odd. -/
theorem read_parenthesized {t : Text} {as : List Atom} (h : read t = .ok as) :
    (read (parenthesized t) = .ok [.list as none] ∨ ∃ e, read (parenthesized t) = .error e) ∧
      (read (parenthesized t) = .ok [.list as none] ↔ Balanced t) ∧
      ((∀ w, .symbol w ∈ as → Byte.quote ∉ w) → read (parenthesized t) = .ok [.list as none]) ∧
      (Odd (t.count Byte.quote) → ∃ e, read (parenthesized t) = .error e) := by
  have hitems : Items t as := items_of_readFrom h
  have hread := read_parenthesized_of_balanced hitems
  have hbroken := read_parenthesized_of_not_balanced hitems
  refine ⟨?_, ⟨fun hok => ?_, hread⟩, fun hquote => ?_, fun hodd => ?_⟩
  · by_cases hb : Balanced t
    · exact .inl (hread hb)
    · exact .inr (hbroken hb)
  · by_contra hb
    obtain ⟨e, he⟩ := hbroken hb
    rw [hok] at he
    cases he
  · exact hread (balanced_of_items hitems hquote)
  · apply hbroken
    intro hb
    exact Nat.not_even_iff_odd.2 hodd hb.even_count_quote

/-- A text with quotes in a list and in a string only, and a text of a symbol with a quote in it and
the string of one closing parenthesis. -/
theorem read_parenthesized_quotes :
    let t := ascii "x \"a)\" (y\"z w\")"
    let as : List Atom := [.symbol (ascii "x"), .string (ascii "a)"),
      .list [.symbol (ascii "y\"z"), .symbol (ascii "w\"")] none]
    let t' := ascii "x\" \")\""
    (read t = .ok as ∧ (∀ w, .symbol w ∈ as → Byte.quote ∉ w) ∧
      read (parenthesized t) = .ok [.list as none]) ∧
    (read t' = .ok [.symbol (ascii "x\""), .string (ascii ")")] ∧ Odd (t'.count Byte.quote) ∧
      ∃ e, read (parenthesized t') = .error e) := by
  intro t as t'
  have hinside : Items (ascii "y\"z w\"") [.symbol (ascii "y\"z"), .symbol (ascii "w\"")] :=
    .symbol (w := ascii "y\"z") (isSymbol_cons_iff.2 ⟨rfl, rfl⟩) (separated_space rfl _)
      (.space rfl (.symbol (w := ascii "w\"") (r := []) (isSymbol_cons_iff.2 ⟨rfl, rfl⟩)
        separated_nil .empty))
  have hlist : Items (ascii "(y\"z w\")")
      [.list [.symbol (ascii "y\"z"), .symbol (ascii "w\"")] none] :=
    .list (w := ascii "y\"z w\"") (r := []) rfl hinside .empty
  have hread : read t = .ok as := readFrom_of_items (.symbol (w := ascii "x")
    (isSymbol_cons_iff.2 ⟨rfl, rfl⟩) (separated_space rfl _) (.space rfl
      (.string (u := ascii "a)") (by decide) (.space rfl hlist)))) 0
  have hread' : read t' = .ok [.symbol (ascii "x\""), .string (ascii ")")] :=
    readFrom_of_items (.symbol (w := ascii "x\"") (isSymbol_cons_iff.2 ⟨rfl, rfl⟩)
      (separated_space rfl _)
      (.space rfl (.string (u := ascii ")") (r := []) (by decide) .empty))) 0
  have hquote : ∀ w, .symbol w ∈ as → Byte.quote ∉ w := by
    intro w hw
    simp only [as, List.mem_cons, Atom.symbol.injEq, reduceCtorEq, List.not_mem_nil, or_false] at hw
    rw [hw]
    decide
  have hodd : Odd (t'.count Byte.quote) := by decide
  exact ⟨⟨hread, hquote, (read_parenthesized hread).2.2.1 hquote⟩, hread', hodd,
    (read_parenthesized hread').2.2.2 hodd⟩

end SlotLisp
