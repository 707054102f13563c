import SlotLisp.Proofs.Numeral
import SlotLisp.Reader

/-!
# The grammar of texts

`Items t as` says that the text `t` is a sequence of the atoms `as`: symbols and numbers are
followed by white space or nothing, strings and lists by anything. A list is what stands between
parentheses, provided that it is balanced. That is a condition on its bytes alone, in which every
quote hides or shows parentheses, whatever it belongs to.

**Theorem (`read_iff_items`).** A text is read as a list of atoms exactly if it is a sequence of
them, and there is at most one such list.

The reader finds the extent of a list before it reads what is inside, by a scan of its own. That
the scan stops after a balanced piece, and only there, is `splitList?_eq_some_iff`.
-/

namespace SlotLisp

open Reader

/-! ## Tokens -/

/-- Letters, digits, and punctuation other than parentheses. -/
def SymbolByte (c : Byte) : Prop :=
  Byte.isLetter c = true ∨ Byte.isDigit c = true ∨
    Byte.isPunctuation c = true ∧ c ≠ Byte.openParen ∧ c ≠ Byte.closeParen

/-- Letters, and punctuation other than parentheses, points and quotes. -/
def SymbolStart (c : Byte) : Prop :=
  Byte.isLetter c = true ∨ Byte.isPunctuation c = true ∧ c ≠ Byte.openParen ∧
    c ≠ Byte.closeParen ∧ c ≠ Byte.point ∧ c ≠ Byte.quote

inductive IsSymbol : Text → Prop
  | token {c : Byte} {u : Text} (hc : SymbolStart c) (hu : ∀ d ∈ u, SymbolByte d) :
      IsSymbol (c :: u)

/-- What may follow a symbol or a number: white space or nothing. -/
def Separated (r : Text) : Prop := ∀ c ∈ r.head?, Byte.isSpace c = true

/-! ## Balanced texts -/

/-- The depth of open parentheses and whether a quote is open, after a text that is scanned at the
given depth. There is none if a parenthesis closes what was not opened. -/
def scan? (depth : ℕ) (quoted : Bool) : Text → Option (ℕ × Bool)
  | [] => some (depth, quoted)
  | c :: r =>
    if c = Byte.quote then scan? depth (!quoted) r
    else if quoted then scan? depth quoted r
    else if c = Byte.openParen then scan? (depth + 1) quoted r
    else if c = Byte.closeParen then
      if depth = 0 then none else scan? (depth - 1) quoted r
    else scan? depth quoted r

/-- Outside quotes, every parenthesis has its partner, and no quote is left open. -/
def Balanced (t : Text) : Prop := scan? 0 false t = some (0, false)

/-! ## Sequences of atoms -/

inductive Items : Text → List Atom → Prop
  | empty : Items [] []
  | space {c : Byte} {r : Text} {as : List Atom} (hc : Byte.isSpace c = true) (hr : Items r as) :
      Items (c :: r) as
  | symbol {w r : Text} {as : List Atom} (hw : IsSymbol w) (hsep : Separated r)
      (hr : Items r as) : Items (w ++ r) (.symbol w :: as)
  | number {w r : Text} {x : Binary32} {as : List Atom} (hw : IsNumeral w)
      (hx : Binary32.IsNearest (numeralValue w) x) (hsep : Separated r) (hr : Items r as) :
      Items (w ++ r) (.number x :: as)
  | string {u r : Text} {as : List Atom} (hu : Byte.quote ∉ u) (hr : Items r as) :
      Items (Byte.quote :: (u ++ Byte.quote :: r)) (.string u :: as)
  | list {w r : Text} {items as : List Atom} (hb : Balanced w) (hw : Items w items)
      (hr : Items r as) :
      Items (Byte.openParen :: (w ++ Byte.closeParen :: r)) (.list items none :: as)

/-! ## Classes of bytes -/

theorem inSymbol_iff (c : Byte) : Byte.inSymbol c = true ↔ SymbolByte c := by
  simp only [Byte.inSymbol, SymbolByte, Bool.or_eq_true, Bool.and_eq_true, bne_iff_ne, ne_eq,
    or_assoc, and_assoc]

theorem startsSymbol_iff (c : Byte) : Byte.startsSymbol c = true ↔ SymbolStart c := by
  simp only [Byte.startsSymbol, Byte.inSymbol, SymbolStart, Byte.isLetter, Byte.isDigit,
    Byte.isPunctuation, Bool.or_eq_true, Bool.and_eq_true, bne_iff_ne, ne_eq, decide_eq_true_eq,
    ← UInt8.toNat_inj, Bool.not_eq_true', Bool.and_eq_false_iff, decide_eq_false_iff_not]
  simp only [Byte.quote, Byte.openParen, Byte.closeParen, Byte.point, UInt8.reduceToNat]
  omega

theorem not_inSymbol_of_isSpace {c : Byte} (h : Byte.isSpace c = true) :
    Byte.inSymbol c = false := by
  simp only [Byte.isSpace, Bool.or_eq_true, Bool.and_eq_true, decide_eq_true_eq] at h
  simp only [Byte.inSymbol, Byte.isLetter, Byte.isDigit, Byte.isPunctuation, Bool.or_eq_false_iff,
    Bool.and_eq_false_iff, decide_eq_false_iff_not]
  omega

theorem not_inNumber_of_isSpace {c : Byte} (h : Byte.isSpace c = true) :
    Byte.inNumber c = false := by
  simp only [Byte.isSpace, Bool.or_eq_true, Bool.and_eq_true, decide_eq_true_eq] at h
  simp only [Byte.inNumber, Byte.isDigit, Bool.or_eq_false_iff, Bool.and_eq_false_iff,
    decide_eq_false_iff_not, ← UInt8.toNat_inj, Byte.point, UInt8.reduceToNat]
  omega

theorem not_startsSymbol_of_inNumber {c : Byte} (h : Byte.inNumber c = true) :
    Byte.startsSymbol c = false := by
  simp only [Byte.inNumber, Bool.or_eq_true, decide_eq_true_eq] at h
  rcases h with h | rfl
  · simp [Byte.startsSymbol, h]
  · rfl

theorem inNumber_iff (c : Byte) :
    Byte.inNumber c = true ↔ Byte.isDigit c = true ∨ c = Byte.point := by
  simp [Byte.inNumber]

/-! ## Where tokens end -/

theorem isSymbol_takeWhile {c : Byte} (hc : Byte.startsSymbol c = true) (r : Text) :
    IsSymbol (c :: r.takeWhile Byte.inSymbol) :=
  .token ((startsSymbol_iff c).1 hc) fun d hd => (inSymbol_iff d).1 (List.mem_takeWhile_imp hd)

theorem run_takeWhile {c : Byte} (hc : Byte.inNumber c = true) (r : Text) :
    ∀ d ∈ c :: r.takeWhile Byte.inNumber, Byte.isDigit d = true ∨ d = Byte.point :=
  List.forall_mem_cons.2 ⟨(inNumber_iff c).1 hc,
    fun d hd => (inNumber_iff d).1 (List.mem_takeWhile_imp hd)⟩

/-- A token and what follows it. -/
theorem token_append (c : Byte) (r : Text) (p : Byte → Bool) :
    c :: r.takeWhile p ++ r.dropWhile p = c :: r := by
  rw [List.cons_append, List.takeWhile_append_dropWhile]

/-- What follows a token does not belong to it. -/
theorem stop_of_dropWhile {p : Byte → Bool} {r rest : Text} {d : Byte}
    (h : r.dropWhile p = d :: rest) : p d = false := by
  have hhead := List.head?_dropWhile_not p r
  rw [h] at hhead
  simpa using hhead

/-- The content of a string ends at the first quote. -/
theorem string_split {r rest : Text} {d : Byte}
    (h : r.dropWhile (· != Byte.quote) = d :: rest) :
    r = r.takeWhile (· != Byte.quote) ++ Byte.quote :: rest ∧
      Byte.quote ∉ r.takeWhile (· != Byte.quote) := by
  obtain rfl : d = Byte.quote := by simpa using stop_of_dropWhile h
  refine ⟨?_, fun hmem => by simpa using List.mem_takeWhile_imp hmem⟩
  rw [← h, List.takeWhile_append_dropWhile]

/-! ## The extent of a list -/

/-- Up to where the list closes, both scans go on alike. -/
theorem scan?_cons {n : Nesting} {c : Byte} (h : n.closes c = false) (r : Text) :
    scan? n.depth n.quoted (c :: r) = scan? (n.step c).depth (n.step c).quoted r := by
  obtain ⟨depth, quoted⟩ := n
  rw [scan?, Nesting.step]
  by_cases hquote : c = Byte.quote
  · simp only [if_pos hquote]
  · rw [if_neg hquote, if_neg hquote]
    cases quoted with
    | true => rfl
    | false =>
      by_cases hopen : c = Byte.openParen
      · simp [hopen]
      · by_cases hclose : c = Byte.closeParen
        · subst hclose
          cases depth with
          | zero => cases h
          | succ depth => rfl
        · simp [hopen, hclose]

/-- A list is not closed inside a balanced text. -/
theorem closes_eq_false_of_scan? {n : Nesting} {c : Byte} {r : Text} {p : ℕ × Bool}
    (h : scan? n.depth n.quoted (c :: r) = some p) : n.closes c = false := by
  by_contra hcloses
  obtain ⟨depth, quoted⟩ := n
  simp only [Nesting.closes, Bool.not_eq_false, Bool.and_eq_true, Bool.not_eq_true',
    decide_eq_true_eq] at hcloses
  obtain ⟨⟨rfl, rfl⟩, rfl⟩ := hcloses
  cases h

/-- The scan for the end of a list stops right after a balanced text. -/
theorem splitList?_eq_some_iff {n : Nesting} {t inside rest : Text} :
    splitList? n t = some (inside, rest) ↔
      t = inside ++ Byte.closeParen :: rest ∧
        scan? n.depth n.quoted inside = some (0, false) := by
  induction t generalizing n inside with
  | nil => simp [splitList?]
  | cons c r ih =>
    rw [splitList?]
    cases inside with
    | nil =>
      obtain ⟨depth, quoted⟩ := n
      cases hcloses : Nesting.closes ⟨depth, quoted⟩ c with
      | true =>
        simp only [Nesting.closes, Bool.and_eq_true, Bool.not_eq_true', decide_eq_true_eq]
          at hcloses
        obtain ⟨⟨rfl, rfl⟩, rfl⟩ := hcloses
        simp [scan?]
      | false =>
        constructor
        · intro h
          simp at h
        · intro h
          obtain ⟨heq, hscan⟩ := h
          simp only [scan?, Option.some.injEq, Prod.mk.injEq] at hscan
          obtain ⟨rfl, rfl⟩ := hscan
          cases heq
          cases hcloses
    | cons d inside =>
      cases hcloses : n.closes c with
      | true =>
        constructor
        · intro h
          simp at h
        · intro h
          obtain ⟨heq, hscan⟩ := h
          cases heq
          rw [closes_eq_false_of_scan? hscan] at hcloses
          cases hcloses
      | false =>
        rw [if_neg Bool.false_ne_true, Option.map_eq_some_iff]
        constructor
        · intro h
          obtain ⟨p, hp, heq⟩ := h
          cases heq
          obtain ⟨rfl, hscan⟩ := ih.1 hp
          exact ⟨rfl, by rw [scan?_cons hcloses, hscan]⟩
        · intro h
          obtain ⟨heq, hscan⟩ := h
          cases heq
          rw [scan?_cons hcloses] at hscan
          exact ⟨_, ih.2 ⟨rfl, hscan⟩, rfl⟩

/-! ## What the reader does with each token -/

section Steps

variable {p : ℕ} {r w : Text}

theorem checkEnd_eq_ok_iff : checkEnd p r = .ok () ↔ Separated r := by
  cases r with
  | nil => simp [checkEnd, Separated]
  | cons c r =>
    rw [checkEnd, Separated]
    split
    · next h => simp [h]
    · next h => simp [h]

theorem readFrom_space {c : Byte} (hc : Byte.isSpace c = true) :
    readFrom p (c :: r) = readFrom (p + 1) r := by
  have hsymbol : Byte.startsSymbol c = false := by
    simp [Byte.startsSymbol, not_inSymbol_of_isSpace hc]
  have hnumber := not_inNumber_of_isSpace hc
  have hopen : c ≠ Byte.openParen := by rintro rfl; cases hc
  have hquote : c ≠ Byte.quote := by rintro rfl; cases hc
  rw [readFrom]
  simp [hsymbol, hnumber, hopen, hquote, hc]

/-- A symbol is read up to the first byte that does not belong to it, and then what follows. -/
theorem readFrom_symbolToken (hw : IsSymbol w) (hstop : ∀ d ∈ r.head?, Byte.inSymbol d = false) :
    readFrom p (w ++ r) = do
      checkEnd (p + w.length) r
      let later ← readFrom (p + w.length) r
      return .symbol w :: later := by
  obtain ⟨hc, hu⟩ := hw
  next c u =>
  have hin : ∀ d ∈ u, Byte.inSymbol d = true := fun d hd => (inSymbol_iff d).2 (hu d hd)
  rw [List.cons_append, readFrom, if_pos ((startsSymbol_iff c).2 hc)]
  simp only [takeWhile_append_stop hin hstop, dropWhile_append_stop hin hstop]

/-- A run of digits and points is read up to its end, whether it is a numeral or not. -/
theorem readFrom_numberToken (hne : w ≠ [])
    (hw : ∀ c ∈ w, Byte.isDigit c = true ∨ c = Byte.point)
    (hstop : ∀ d ∈ r.head?, Byte.inNumber d = false) :
    readFrom p (w ++ r) = do
      checkEnd (p + w.length) r
      let number ← readNumber w (p + w.length)
      let later ← readFrom (p + w.length) r
      return number :: later := by
  have hrun : ∀ c ∈ w, Byte.inNumber c = true := fun c hc => (inNumber_iff c).2 (hw c hc)
  cases w with
  | nil => exact absurd rfl hne
  | cons c u =>
    obtain ⟨hc, hu⟩ := List.forall_mem_cons.1 hrun
    have hsymbol : ¬Byte.startsSymbol c = true := by simp [not_startsSymbol_of_inNumber hc]
    rw [List.cons_append, readFrom, if_neg hsymbol, if_pos hc]
    simp only [takeWhile_append_stop hu hstop, dropWhile_append_stop hu hstop]

theorem readFrom_symbol (hw : IsSymbol w) (hsep : Separated r) :
    readFrom p (w ++ r) = (readFrom (p + w.length) r).map (.symbol w :: ·) := by
  rw [readFrom_symbolToken hw fun d hd => not_inSymbol_of_isSpace (hsep d hd),
    checkEnd_eq_ok_iff.2 hsep]
  cases readFrom (p + w.length) r <;> rfl

theorem IsNumeral.ne_nil (hw : IsNumeral w) : w ≠ [] := by
  rintro rfl
  obtain ⟨c, hc, -⟩ := hw.digit
  cases hc

theorem readFrom_number {x : Binary32} (hw : IsNumeral w)
    (hx : Binary32.IsNearest (numeralValue w) x) (hsep : Separated r) :
    readFrom p (w ++ r) = (readFrom (p + w.length) r).map (.number x :: ·) := by
  have hread := (read?_eq_some_iff hw.run).2 ⟨hw, hx⟩
  rw [readFrom_numberToken hw.ne_nil hw.run fun d hd => not_inNumber_of_isSpace (hsep d hd),
    checkEnd_eq_ok_iff.2 hsep, readNumber, hread]
  cases readFrom (p + w.length) r <;> rfl

theorem readFrom_string {u : Text} (hu : Byte.quote ∉ u) :
    readFrom p (Byte.quote :: (u ++ Byte.quote :: r)) =
      (readFrom (p + u.length + 2) r).map (.string u :: ·) := by
  have hin : ∀ c ∈ u, (c != Byte.quote) = true := by
    intro c hc
    rw [bne_iff_ne]
    intro hquote
    subst hquote
    exact hu hc
  have hstop : ∀ c ∈ (Byte.quote :: r).head?, (c != Byte.quote) = false := by simp
  rw [readFrom, if_neg (by decide), if_neg (by decide), if_neg (by decide), if_pos rfl]
  split
  · next h => rw [dropWhile_append_stop hin hstop] at h; cases h
  · next d rest h =>
    rw [dropWhile_append_stop hin hstop] at h
    cases h
    simp only [takeWhile_append_stop hin hstop]
    cases readFrom (p + u.length + 2) r <;> rfl

theorem readFrom_list (hb : Balanced w) :
    readFrom p (Byte.openParen :: (w ++ Byte.closeParen :: r)) = do
      let items ← readFrom (p + 1) w
      let later ← readFrom (p + w.length + 2) r
      return .list items none :: later := by
  have hsplit : splitList? {} (w ++ Byte.closeParen :: r) = some (w, r) :=
    splitList?_eq_some_iff.2 ⟨rfl, hb⟩
  rw [readFrom, if_neg (by decide), if_neg (by decide), if_pos rfl]
  split
  · next h => rw [hsplit] at h; cases h
  · next inside rest h =>
    rw [hsplit] at h
    cases h
    rfl

end Steps

/-! ## Reading is parsing -/

/-- Every sequence of atoms is read. -/
theorem readFrom_of_items {t : Text} {as : List Atom} (h : Items t as) (p : ℕ) :
    readFrom p t = .ok as := by
  induction h generalizing p with
  | empty => rw [readFrom]
  | space hc _ ih => rw [readFrom_space hc, ih]
  | symbol hw hsep _ ih => rw [readFrom_symbol hw hsep, ih]; rfl
  | number hw hx hsep _ ih => rw [readFrom_number hw hx hsep, ih]; rfl
  | string hu _ ih => rw [readFrom_string hu, ih]; rfl
  | list hb _ _ ihw ihr => rw [readFrom_list hb, ihw, ihr]; rfl

theorem exists_of_bind_eq_ok {α β : Type} {x : Except ReadError α} {f : α → Except ReadError β}
    {b : β} (h : x >>= f = .ok b) : ∃ a, x = .ok a ∧ f a = .ok b := by
  cases x with
  | error e => cases h
  | ok a => exact ⟨a, rfl, h⟩

/-- Only sequences of atoms are read. -/
theorem items_of_readFrom {p : ℕ} {t : Text} {as : List Atom} (h : readFrom p t = .ok as) :
    Items t as := by
  fun_induction readFrom p t generalizing as with
  | case1 p =>
    cases h
    exact .empty
  | case2 p c r hc token rest =>
    rename_i ih
    obtain ⟨_, hend, h⟩ := exists_of_bind_eq_ok h
    obtain ⟨later, hlater, h⟩ := exists_of_bind_eq_ok h
    cases h
    have hitems := Items.symbol (isSymbol_takeWhile hc r) (checkEnd_eq_ok_iff.1 hend) (ih hlater)
    rwa [token_append] at hitems
  | case3 p c r _ hc token rest =>
    rename_i ih
    obtain ⟨_, hend, h⟩ := exists_of_bind_eq_ok h
    obtain ⟨number, hnumber, h⟩ := exists_of_bind_eq_ok h
    obtain ⟨later, hlater, h⟩ := exists_of_bind_eq_ok h
    cases h
    rw [readNumber] at hnumber
    split at hnumber
    · next x hx =>
      cases hnumber
      obtain ⟨hw, hnearest⟩ := (read?_eq_some_iff (run_takeWhile hc r)).1 hx
      have hitems := Items.number hw hnearest (checkEnd_eq_ok_iff.1 hend) (ih hlater)
      rwa [token_append] at hitems
    · cases hnumber
  | case4 p r hsplit => cases h
  | case5 p r inside rest hsplit _ _ ihinside ihrest =>
    obtain ⟨items, hitems, h⟩ := exists_of_bind_eq_ok h
    obtain ⟨later, hlater, h⟩ := exists_of_bind_eq_ok h
    cases h
    obtain ⟨rfl, hb⟩ := splitList?_eq_some_iff.1 hsplit
    exact .list hb (ihinside hitems) (ihrest hlater)
  | case6 p r hdrop => cases h
  | case7 p r d rest hdrop content =>
    rename_i ih
    obtain ⟨later, hlater, h⟩ := exists_of_bind_eq_ok h
    cases h
    obtain ⟨hr, hu⟩ := string_split hdrop
    rw [hr]
    exact .string hu (ih hlater)
  | case8 p c r _ _ _ _ hc ih => exact .space hc (ih h)
  | case9 p c r => cases h

/-- **The reader accepts exactly the grammar.** A text is read as a list of atoms if and only if it
is a sequence of these atoms, and no text is a sequence of two different lists of atoms. -/
theorem read_iff_items (t : Text) :
    (∀ as, read t = .ok as ↔ Items t as) ∧ {as | Items t as}.Subsingleton := by
  have hiff (as : List Atom) : read t = .ok as ↔ Items t as :=
    ⟨items_of_readFrom, fun h => readFrom_of_items h 0⟩
  refine ⟨hiff, fun as has bs hbs => ?_⟩
  have heq := ((hiff as).2 has).symm.trans ((hiff bs).2 hbs)
  exact Except.ok.inj heq

end SlotLisp
