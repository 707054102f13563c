import SlotLisp.Proofs.Grammar
import SlotLisp.Repl

/-!
# Balanced texts

Whether a text is balanced depends on its *marks* alone, the quotes and parentheses in order
(`scan?_marks`), and they can be counted without reading the text. But a quote in a symbol then
looks like one that opens a string. Where no symbol outside lists has a quote in it, the count and
the grammar agree:

* a text of whole atoms is balanced (`balanced_of_items`);
* if such a text is cut at a newline where no parentheses are open, both parts are texts of whole
  atoms (`cut_of_items`).

Inside lists quotes do no harm, because the extent of a list is found by the same count.
-/

namespace SlotLisp

/-! ## Marks -/

def isMark (c : Byte) : Bool := c = Byte.quote || c = Byte.openParen || c = Byte.closeParen

/-- The quotes and parentheses of a text. -/
def marks (t : Text) : Text := t.filter isMark

theorem marks_append (a b : Text) : marks (a ++ b) = marks a ++ marks b := List.filter_append a b

theorem marks_cons (c : Byte) (t : Text) : marks (c :: t) = marks [c] ++ marks t :=
  marks_append [c] t

theorem marks_eq_nil {t : Text} (h : ∀ c ∈ t, isMark c = false) : marks t = [] :=
  List.filter_eq_nil_iff.2 fun c hc => by simp [h c hc]

theorem isMark_of_isSpace {c : Byte} (h : Byte.isSpace c = true) : isMark c = false := by
  by_contra hmark
  simp only [isMark, Bool.not_eq_false, Bool.or_eq_true, decide_eq_true_eq] at hmark
  rcases hmark with (rfl | rfl) | rfl <;> cases h

theorem isMark_of_run {c : Byte} (h : Byte.isDigit c = true ∨ c = Byte.point) :
    isMark c = false := by
  by_contra hmark
  simp only [isMark, Bool.not_eq_false, Bool.or_eq_true, decide_eq_true_eq] at hmark
  rcases hmark with (rfl | rfl) | rfl <;> exact absurd h (by decide)

/-- A scan only sees the marks. -/
theorem scan?_marks (depth : ℕ) (quoted : Bool) (t : Text) :
    scan? depth quoted (marks t) = scan? depth quoted t := by
  induction t generalizing depth quoted with
  | nil => rfl
  | cons c r ih =>
    by_cases hc : isMark c = true
    · rw [marks, List.filter_cons_of_pos hc, ← marks, scan?, scan?]
      simp only [ih]
    · have hother := hc
      simp only [isMark, Bool.or_eq_true, decide_eq_true_eq, not_or] at hother
      rw [marks, List.filter_cons_of_neg hc, ← marks, ih, scan?]
      simp [hother]

theorem Balanced.congr {t u : Text} (h : Balanced t) (hmarks : marks u = marks t) : Balanced u := by
  rw [Balanced, ← scan?_marks, hmarks, scan?_marks]
  exact h

/-! ## Scanning in pieces -/

theorem scan?_append (depth : ℕ) (quoted : Bool) (a b : Text) :
    scan? depth quoted (a ++ b) = (scan? depth quoted a).bind fun p => scan? p.1 p.2 b := by
  induction a generalizing depth quoted with
  | nil => rfl
  | cons c a ih =>
    rw [List.cons_append, scan?, scan?]
    split_ifs <;> first | exact ih _ _ | rfl

theorem scan?_cons_iff {depth : ℕ} {quoted : Bool} {c : Byte} {r : Text} {p : ℕ × Bool} :
    scan? depth quoted (c :: r) = some p ↔
      ∃ q, scan? depth quoted [c] = some q ∧ scan? q.1 q.2 r = some p := by
  rw [← List.singleton_append, scan?_append, Option.bind_eq_some_iff]

/-- One byte of a scan: parentheses that are open besides do not matter, and the count changes as
the depth does. -/
theorem scan?_byte {depth depth' : ℕ} {quoted quoted' : Bool} {c : Byte}
    (h : scan? depth quoted [c] = some (depth', quoted')) :
    (∀ k, scan? (depth + k) quoted [c] = some (depth' + k, quoted')) ∧
      ∀ r, parenDepthFrom quoted (c :: r) = parenDepthFrom quoted' r + (depth' - depth) := by
  simp only [scan?, parenDepthFrom] at h ⊢
  split_ifs at h ⊢ with hquote hquoted hopen hclose hzero
  all_goals cases h
  · simp
  · simp
  · exact ⟨fun k => by rw [Nat.add_right_comm], fun r => by omega⟩
  · refine ⟨fun k => ?_, fun r => by omega⟩
    rw [if_neg (by omega), Nat.sub_add_comm (Nat.pos_of_ne_zero hzero)]
  · simp

/-- What is open before a text stays open. -/
theorem scan?_add {depth depth' : ℕ} {quoted quoted' : Bool} {t : Text}
    (h : scan? depth quoted t = some (depth', quoted')) (k : ℕ) :
    scan? (depth + k) quoted t = some (depth' + k, quoted') := by
  induction t generalizing depth quoted with
  | nil =>
    cases h
    rfl
  | cons c r ih =>
    obtain ⟨⟨depth₁, quoted₁⟩, hc, hr⟩ := scan?_cons_iff.1 h
    exact scan?_cons_iff.2 ⟨(depth₁ + k, quoted₁), (scan?_byte hc).1 k, ih hr⟩

theorem Balanced.append {a b : Text} (ha : Balanced a) (hb : Balanced b) : Balanced (a ++ b) := by
  rw [Balanced, scan?_append, ha]
  exact hb

theorem Balanced.of_append_newline {t : Text} (h : Balanced (t ++ [10])) : Balanced t := by
  rw [Balanced, scan?_append, Option.bind_eq_some_iff] at h
  obtain ⟨⟨depth, quoted⟩, ht, hlast⟩ := h
  have hskip : scan? depth quoted [10] = some (depth, quoted) := by cases quoted <;> rfl
  rw [Balanced, ht, ← hskip, hlast]

theorem balanced_of_no_marks {t : Text} (h : ∀ c ∈ t, isMark c = false) : Balanced t :=
  Balanced.congr (t := []) rfl (marks_eq_nil h)

/-- Inside a string nothing counts. -/
theorem scan?_inside_string {u : Text} (hu : Byte.quote ∉ u) (depth : ℕ) :
    scan? depth true u = some (depth, true) := by
  induction u with
  | nil => rfl
  | cons c u ih =>
    rw [List.mem_cons, not_or] at hu
    rw [scan?, if_neg (Ne.symm hu.1), if_pos rfl]
    exact ih hu.2

theorem balanced_string {u : Text} (hu : Byte.quote ∉ u) :
    Balanced (Byte.quote :: (u ++ [Byte.quote])) := by
  rw [Balanced, scan?, if_pos rfl, scan?_append, Bool.not_false, scan?_inside_string hu]
  rfl

theorem Balanced.list {w : Text} (hw : Balanced w) :
    Balanced (Byte.openParen :: (w ++ [Byte.closeParen])) := by
  have hinside : scan? (0 + 1) false w = some (0 + 1, false) := scan?_add hw 1
  rw [Balanced, scan?, if_neg (by decide), if_neg Bool.false_ne_true, if_pos rfl, scan?_append,
    hinside]
  rfl

/-! ## Counting -/

/-- A scan that succeeds has counted. -/
theorem parenDepthFrom_append {depth depth' : ℕ} {quoted quoted' : Bool} {t : Text}
    (h : scan? depth quoted t = some (depth', quoted')) (r : Text) :
    parenDepthFrom quoted (t ++ r) = parenDepthFrom quoted' r + (depth' - depth) := by
  induction t generalizing depth quoted with
  | nil =>
    cases h
    simp
  | cons c t ih =>
    obtain ⟨⟨depth₁, quoted₁⟩, hc, ht⟩ := scan?_cons_iff.1 h
    rw [List.cons_append, (scan?_byte hc).2, ih ht]
    omega

theorem parenDepth_of_scan? {t : Text} {depth : ℕ} {quoted : Bool}
    (h : scan? 0 false t = some (depth, quoted)) : parenDepth t = depth := by
  have hcount := parenDepthFrom_append h []
  rw [List.append_nil, parenDepthFrom] at hcount
  rw [parenDepth, hcount]
  simp

/-- Behind a balanced text the count goes on as if it were not there. -/
theorem Balanced.parenDepth_append {w : Text} (h : Balanced w) (r : Text) :
    parenDepth (w ++ r) = parenDepth r := by
  rw [parenDepth, parenDepthFrom_append h]
  simp [parenDepth]

theorem Balanced.parenDepth_eq_zero {w : Text} (h : Balanced w) : parenDepth w = 0 :=
  parenDepth_of_scan? h

/-- Inside a list, parentheses are open. -/
theorem parenDepth_pos {a b : Text} (h : Balanced (a ++ b)) :
    0 < parenDepth (Byte.openParen :: a) := by
  rw [Balanced, scan?_append, Option.bind_eq_some_iff] at h
  obtain ⟨⟨depth, quoted⟩, ha, -⟩ := h
  have hopen : scan? 0 false (Byte.openParen :: a) = some (depth + 1, quoted) := scan?_add ha 1
  rw [parenDepth_of_scan? hopen]
  omega

/-! ## Texts of whole atoms -/

/-- An atom whose text does not disturb the count and does not go on in another line, if the atom is
not a list: a symbol without quotes, or a string without newlines. -/
def Atom.FitsLine : Atom → Prop
  | .symbol w => Byte.quote ∉ w
  | .string u => (10 : Byte) ∉ u
  | _ => True

theorem isSymbol_cons_iff {c : Byte} {u : Text} :
    IsSymbol (c :: u) ↔ Byte.startsSymbol c = true ∧ u.all Byte.inSymbol = true := by
  rw [startsSymbol_iff, List.all_eq_true]
  constructor
  · intro h
    obtain ⟨hc, hu⟩ := h
    exact ⟨hc, fun d hd => (inSymbol_iff d).2 (hu d hd)⟩
  · intro h
    exact .token h.1 fun d hd => (inSymbol_iff d).1 (h.2 d hd)

theorem IsSymbol.inSymbol {w : Text} (hw : IsSymbol w) {c : Byte} (hc : c ∈ w) :
    Byte.inSymbol c = true := by
  cases w with
  | nil => cases hc
  | cons d u =>
    obtain ⟨hstart, hrest⟩ := isSymbol_cons_iff.1 hw
    rcases List.mem_cons.1 hc with rfl | hc
    · simp only [Byte.startsSymbol, Bool.and_eq_true] at hstart
      exact hstart.1.1.1
    · exact List.all_eq_true.1 hrest c hc

theorem separated_nil : Separated [] := by simp [Separated]

theorem separated_space {c : Byte} (hc : Byte.isSpace c = true) (r : Text) :
    Separated (c :: r) := by
  simpa [Separated] using hc

theorem balanced_symbol {w : Text} (hw : IsSymbol w) (hquote : Byte.quote ∉ w) : Balanced w := by
  refine balanced_of_no_marks fun c hc => ?_
  have hsymbol := hw.inSymbol hc
  by_contra hmark
  simp only [isMark, Bool.not_eq_false, Bool.or_eq_true, decide_eq_true_eq] at hmark
  rcases hmark with (rfl | rfl) | rfl
  · exact hquote hc
  · cases hsymbol
  · cases hsymbol

theorem balanced_numeral {w : Text} (hw : IsNumeral w) : Balanced w :=
  balanced_of_no_marks fun c hc => isMark_of_run (hw.run c hc)

theorem Items.eq_nil {as : List Atom} (h : Items [] as) : as = [] := by
  have hread := readFrom_of_items h 0
  rw [Reader.readFrom] at hread
  exact (Except.ok.inj hread).symm

/-- A text of whole atoms is balanced, if no symbol among them has a quote in it. -/
theorem balanced_of_items {t : Text} {as : List Atom} (h : Items t as)
    (hquote : ∀ w, .symbol w ∈ as → Byte.quote ∉ w) : Balanced t := by
  induction h with
  | empty => rfl
  | @space c r as hc _ ih =>
    exact (balanced_of_no_marks (t := [c]) (by simpa using isMark_of_isSpace hc)).append (ih hquote)
  | symbol hw _ _ ih =>
    have hrest := ih fun v hv => hquote v (List.mem_cons_of_mem _ hv)
    exact (balanced_symbol hw (hquote _ List.mem_cons_self)).append hrest
  | number hw _ _ _ ih =>
    exact (balanced_numeral hw).append (ih fun v hv => hquote v (List.mem_cons_of_mem _ hv))
  | string hu _ ih =>
    have hrest := ih fun v hv => hquote v (List.mem_cons_of_mem _ hv)
    simpa using (balanced_string hu).append hrest
  | list hb _ _ _ ih =>
    have hrest := ih fun v hv => hquote v (List.mem_cons_of_mem _ hv)
    simpa using hb.list.append hrest

/-! ## Cutting at a newline -/

/-- Before a newline parentheses are open, or the text falls into texts of whole atoms there. -/
def Cut (u v : Text) (as : List Atom) : Prop :=
  0 < parenDepth u ∨ ∃ as₁ as₂, as = as₁ ++ as₂ ∧ Items u as₁ ∧ Items v as₂

/-- What is in front of a text is in front of its first part. -/
theorem Cut.behind {w u v : Text} {as : List Atom} (h : Cut u v as) (front : List Atom)
    (hw : Balanced w) (hitems : ∀ {as₁}, Items u as₁ → Items (w ++ u) (front ++ as₁)) :
    Cut (w ++ u) v (front ++ as) := by
  rw [Cut, hw.parenDepth_append]
  rcases h with h | ⟨as₁, as₂, rfl, hu, hv⟩
  · exact .inl h
  · exact .inr ⟨front ++ as₁, as₂, (List.append_assoc ..).symm, hitems hu, hv⟩

/-- A byte behind a text that it is not in. -/
theorem exists_of_append_eq {c : Byte} {w r u v : Text} (hw : c ∉ w) (h : w ++ r = u ++ c :: v) :
    ∃ u', u = w ++ u' ∧ r = u' ++ c :: v := by
  rcases List.append_eq_append_iff.1 h with ⟨u', hu, hr⟩ | ⟨w', rfl, hv⟩
  · exact ⟨u', hu, hr⟩
  · cases w' with
    | nil => exact ⟨[], by simp, by simpa using hv.symm⟩
    | cons d w' =>
      cases hv
      simp at hw

theorem Separated.of_append {u v : Text} (h : Separated (u ++ v)) : Separated u := by
  cases u with
  | nil => exact separated_nil
  | cons c u => exact h

/-- At a newline a text of whole atoms has open parentheses, or it falls into two of them. -/
theorem cut_of_items {t u v : Text} {as : List Atom} (h : Items t as)
    (hfits : ∀ a ∈ as, a.FitsLine) (ht : t = u ++ 10 :: v) : Cut u v as := by
  induction h generalizing u with
  | empty => simp at ht
  | @space c r as hc hr ih =>
    cases u with
    | nil =>
      cases ht
      exact .inr ⟨[], as, rfl, .empty, hr⟩
    | cons d u =>
      obtain ⟨rfl, rfl⟩ := List.cons.inj ht
      have hblank : Balanced [c] := balanced_of_no_marks (by simpa using isMark_of_isSpace hc)
      exact (ih hfits rfl).behind [] hblank (.space hc)
  | @symbol w r as hw hsep _ ih =>
    obtain ⟨hquote, hrest⟩ := List.forall_mem_cons.1 hfits
    have hline : (10 : Byte) ∉ w := fun hmem => by cases hw.inSymbol hmem
    obtain ⟨u, rfl, rfl⟩ := exists_of_append_eq hline ht
    exact (ih hrest rfl).behind [_] (balanced_symbol hw hquote) (.symbol hw hsep.of_append)
  | @number w r x as hw hx hsep _ ih =>
    have hline : (10 : Byte) ∉ w := fun hmem => absurd (hw.run 10 hmem) (by decide)
    obtain ⟨u, rfl, rfl⟩ := exists_of_append_eq hline ht
    exact (ih (List.forall_mem_cons.1 hfits).2 rfl).behind [_] (balanced_numeral hw)
      (.number hw hx hsep.of_append)
  | @string s r as hs _ ih =>
    obtain ⟨hnewline, hrest⟩ := List.forall_mem_cons.1 hfits
    have hline : (10 : Byte) ∉ Byte.quote :: (s ++ [Byte.quote]) := by
      simpa [show (10 : Byte) ≠ Byte.quote by decide, Atom.FitsLine] using hnewline
    obtain ⟨u, rfl, rfl⟩ := exists_of_append_eq (r := r) hline (by simpa using ht)
    refine (ih hrest rfl).behind [_] (balanced_string hs) fun hu => ?_
    simpa using Items.string hs hu
  | @list w r items as hb hw _ _ ih =>
    cases u with
    | nil => cases ht
    | cons d u =>
      obtain ⟨rfl, hinside⟩ := List.cons.inj ht
      rcases List.append_eq_append_iff.1 hinside with ⟨u', rfl, hr⟩ | ⟨w', rfl, -⟩
      · cases u' with
        | nil => cases hr
        | cons d u =>
          obtain ⟨rfl, rfl⟩ := List.cons.inj hr
          have hcut := (ih (List.forall_mem_cons.1 hfits).2 rfl).behind [_] hb.list
            fun hu => by simpa using Items.list hb hw hu
          simpa using hcut
      · -- The newline is inside the list.
        exact .inl (parenDepth_pos hb)

end SlotLisp
