import SlotLisp.Proofs.Parenthesized

/-!
# What is wrong with a text

`Misread p t e` says that `e` is what is wrong with the text `t`, which starts at position `p` of
the whole text. The reader gets over atoms and goes into lists that are closed, until it comes upon
something that it cannot read. So `Misread` is to errors what `Items` is to atoms.

**Theorem (`readFrom_eq_error_iff`).** A text is read with an error if and only if this is what is
wrong with it.
-/

namespace SlotLisp

open Reader

/-! ## The grammar of errors -/

/-- What the reader gets over in front of the rest `r`: a byte of white space, or an atom. -/
inductive Whole : Text → Text → Prop
  | space {c : Byte} (r : Text) (hc : Byte.isSpace c = true) : Whole [c] r
  | symbol {w r : Text} (hw : IsSymbol w) (hsep : Separated r) : Whole w r
  | number {w r : Text} (hw : IsNumeral w) (hsep : Separated r) : Whole w r
  | string {u : Text} (r : Text) (hu : Byte.quote ∉ u) :
      Whole (Byte.quote :: (u ++ [Byte.quote])) r
  | list {w : Text} {items : List Atom} (r : Text) (hb : Balanced w) (hw : Items w items) :
      Whole (Byte.openParen :: (w ++ [Byte.closeParen])) r

/-- A byte that no atom starts with, and no white space either. -/
structure StartsNothing (c : Byte) : Prop where
  symbol : Byte.startsSymbol c = false
  number : Byte.inNumber c = false
  list : c ≠ Byte.openParen
  string : c ≠ Byte.quote
  space : Byte.isSpace c = false

inductive Misread : ℕ → Text → ReadError → Prop
  /-- Behind what the reader gets over. -/
  | later {p : ℕ} {w r : Text} {e : ReadError} (hw : Whole w r)
      (hr : Misread (p + w.length) r e) : Misread p (w ++ r) e
  /-- Inside a list that is closed. -/
  | inside {p : ℕ} {w : Text} {e : ReadError} (r : Text) (hb : Balanced w)
      (hw : Misread (p + 1) w e) : Misread p (Byte.openParen :: (w ++ Byte.closeParen :: r)) e
  | start {p : ℕ} {c : Byte} (r : Text) (hc : StartsNothing c) :
      Misread p (c :: r) (.invalidCharacter c p)
  | symbolEnd {p : ℕ} {w : Text} {c : Byte} (r : Text) (hw : IsSymbol w)
      (hc : Byte.inSymbol c = false) (hspace : Byte.isSpace c = false) :
      Misread p (w ++ c :: r) (.invalidCharacter c (p + w.length))
  | numberEnd {p : ℕ} {w : Text} {c : Byte} (r : Text) (hne : w ≠ [])
      (hw : ∀ d ∈ w, Byte.isDigit d = true ∨ d = Byte.point) (hc : Byte.inNumber c = false)
      (hspace : Byte.isSpace c = false) :
      Misread p (w ++ c :: r) (.invalidCharacter c (p + w.length))
  | number {p : ℕ} {w r : Text} (hne : w ≠ [])
      (hw : ∀ d ∈ w, Byte.isDigit d = true ∨ d = Byte.point) (hnumeral : ¬IsNumeral w)
      (hsep : Separated r) : Misread p (w ++ r) (.badNumber w (p + w.length))
  | string {p : ℕ} {r : Text} (hr : Byte.quote ∉ r) :
      Misread p (Byte.quote :: r) (.unterminatedString p)
  /-- No closing parenthesis has a balanced text in front of it. -/
  | list {p : ℕ} {r : Text} (hr : ∀ u v, r = u ++ Byte.closeParen :: v → ¬Balanced u) :
      Misread p (Byte.openParen :: r) (.unterminatedList p)

/-! ## Failing steps -/

section Steps

variable {p : ℕ} {r w : Text} {e : ReadError}

theorem cases_of_bind_eq_error {α β : Type} {x : Except ReadError α}
    {f : α → Except ReadError β} (h : x >>= f = .error e) :
    x = .error e ∨ ∃ a, x = .ok a ∧ f a = .error e := by
  cases x with
  | error e' => exact .inl (by cases h; rfl)
  | ok a => exact .inr ⟨a, rfl, h⟩

/-- Putting an atom in front of what is read later does not fail. -/
theorem error_of_bind_pure {α β : Type} {x : Except ReadError α} {f : α → β}
    (h : (x >>= fun a => pure (f a)) = .error e) : x = .error e := by
  rcases cases_of_bind_eq_error h with hx | ⟨_, _, hpure⟩
  · exact hx
  · cases hpure

theorem checkEnd_eq_error_iff :
    checkEnd p r = .error e ↔
      ∃ c r', r = c :: r' ∧ Byte.isSpace c = false ∧ e = .invalidCharacter c p := by
  cases r with
  | nil => simp [checkEnd]
  | cons c r =>
    rw [checkEnd]
    split
    · next hc => simp [hc]
    · next hc => simpa [hc] using eq_comm

theorem readNumber_eq_error_iff (hw : ∀ d ∈ w, Byte.isDigit d = true ∨ d = Byte.point) :
    readNumber w p = .error e ↔ ¬IsNumeral w ∧ e = .badNumber w p := by
  rw [readNumber]
  cases hread : Binary32.read? w with
  | none =>
    have hnumeral : ¬IsNumeral w := by
      intro h
      obtain ⟨d, hd, -⟩ := read?_of_isNumeral h
      simp [Binary32.read?, hd] at hread
    simp [hnumeral, eq_comm]
  | some x => simp [((read?_eq_some_iff hw).1 hread).1]

theorem splitList?_eq_none_iff :
    splitList? {} r = none ↔ ∀ u v, r = u ++ Byte.closeParen :: v → ¬Balanced u := by
  constructor
  · intro h u v hr hb
    rw [splitList?_eq_some_iff (n := {}).2 ⟨hr, hb⟩] at h
    cases h
  · intro h
    by_contra hsplit
    obtain ⟨⟨u, v⟩, huv⟩ := Option.ne_none_iff_exists'.1 hsplit
    obtain ⟨hr, hb⟩ := splitList?_eq_some_iff.1 huv
    exact h u v hr hb

/-- The reader goes on behind what it gets over. -/
theorem Whole.readFrom (h : Whole w r) (p : ℕ) :
    ∃ f, Reader.readFrom p (w ++ r) = (Reader.readFrom (p + w.length) r).map f := by
  cases h with
  | space r hc =>
    refine ⟨id, ?_⟩
    rw [List.singleton_append, readFrom_space hc, List.length_singleton]
    cases Reader.readFrom (p + 1) r <;> rfl
  | symbol hw hsep => exact ⟨_, readFrom_symbol hw hsep⟩
  | number hw hsep =>
    obtain ⟨d, -, hd⟩ := read?_of_isNumeral hw
    exact ⟨_, readFrom_number hw hd hsep⟩
  | @string u r hu =>
    have hread := readFrom_string (p := p) (r := r) hu
    refine ⟨(.string u :: ·), ?_⟩
    simpa [Nat.add_assoc] using hread
  | @list v items r hb hv =>
    have hread := readFrom_list (p := p) (r := r) hb
    refine ⟨(.list items none :: ·), ?_⟩
    simp only [List.cons_append, List.append_assoc, List.nil_append, hread, readFrom_of_items hv,
      List.length_cons, List.length_append, List.length_nil, Nat.add_assoc]
    cases Reader.readFrom (p + (v.length + 2)) r <;> rfl

end Steps

/-! ## Reading fails -/

theorem Misread.readFrom {p : ℕ} {t : Text} {e : ReadError} (h : Misread p t e) :
    Reader.readFrom p t = .error e := by
  induction h with
  | later hw _ ih =>
    obtain ⟨f, hf⟩ := hw.readFrom _
    rw [hf, ih]
    rfl
  | inside r hb _ ih =>
    rw [readFrom_list hb, ih]
    rfl
  | start r hc =>
    rw [Reader.readFrom]
    simp [hc.symbol, hc.number, hc.list, hc.string, hc.space]
  | symbolEnd r hw hc hspace =>
    rw [readFrom_symbolToken hw (by simpa using hc),
      checkEnd_eq_error_iff.2 ⟨_, r, rfl, hspace, rfl⟩]
    rfl
  | numberEnd r hne hw hc hspace =>
    rw [readFrom_numberToken hne hw (by simpa using hc),
      checkEnd_eq_error_iff.2 ⟨_, r, rfl, hspace, rfl⟩]
    rfl
  | number hne hw hnumeral hsep =>
    rw [readFrom_numberToken hne hw fun d hd => not_inNumber_of_isSpace (hsep d hd),
      checkEnd_eq_ok_iff.2 hsep, (readNumber_eq_error_iff hw).2 ⟨hnumeral, rfl⟩]
    rfl
  | string hr => exact readFrom_unterminatedString hr
  | list hr =>
    rw [Reader.readFrom, if_neg (by decide), if_neg (by decide), if_pos rfl]
    split
    · rfl
    · next hsplit => simp [splitList?_eq_none_iff.2 hr] at hsplit

theorem misread_of_readFrom {p : ℕ} {t : Text} {e : ReadError} (h : readFrom p t = .error e) :
    Misread p t e := by
  fun_induction readFrom p t generalizing e with
  | case1 p => cases h
  | case2 p c r hc token rest =>
    rename_i ih
    have hw : IsSymbol token := isSymbol_takeWhile hc r
    rw [← token_append c r Byte.inSymbol]
    rcases cases_of_bind_eq_error h with hend | ⟨_, hend, h⟩
    · obtain ⟨d, r', (hrest : r.dropWhile Byte.inSymbol = d :: r'), hspace, rfl⟩ :=
        checkEnd_eq_error_iff.1 hend
      rw [hrest]
      exact .symbolEnd r' hw (stop_of_dropWhile hrest) hspace
    · exact .later (.symbol hw (checkEnd_eq_ok_iff.1 hend)) (ih (error_of_bind_pure h))
  | case3 p c r hsymbol hc token rest =>
    rename_i ih
    have hrun := run_takeWhile hc r
    have hne : token ≠ [] := List.cons_ne_nil c _
    rw [← token_append c r Byte.inNumber]
    rcases cases_of_bind_eq_error h with hend | ⟨_, hend, h⟩
    · obtain ⟨d, r', (hrest : r.dropWhile Byte.inNumber = d :: r'), hspace, rfl⟩ :=
        checkEnd_eq_error_iff.1 hend
      rw [hrest]
      exact .numberEnd r' hne hrun (stop_of_dropWhile hrest) hspace
    · have hsep := checkEnd_eq_ok_iff.1 hend
      rcases cases_of_bind_eq_error h with hnumber | ⟨number, hnumber, h⟩
      · obtain ⟨hnumeral, rfl⟩ := (readNumber_eq_error_iff hrun).1 hnumber
        exact .number hne hrun hnumeral hsep
      · have hw : IsNumeral token := by
          by_contra hnumeral
          rw [(readNumber_eq_error_iff hrun).2 ⟨hnumeral, rfl⟩] at hnumber
          cases hnumber
        exact .later (.number hw hsep) (ih (error_of_bind_pure h))
  | case4 p r hsplit =>
    cases h
    exact .list (splitList?_eq_none_iff.1 hsplit)
  | case5 p r inside rest hsplit _ _ ihinside ihrest =>
    obtain ⟨rfl, (hb : Balanced inside)⟩ := splitList?_eq_some_iff.1 hsplit
    rcases cases_of_bind_eq_error h with hinside | ⟨items, hitems, h⟩
    · exact .inside rest hb (ihinside hinside)
    · have hlist := Whole.list rest hb (items_of_readFrom hitems)
      have hlater := ihrest (error_of_bind_pure h)
      simpa using Misread.later hlist (by simpa [Nat.add_assoc] using hlater)
  | case6 p r hdrop =>
    cases h
    exact .string fun hmem => by simpa using List.dropWhile_eq_nil_iff.1 hdrop _ hmem
  | case7 p r d rest hdrop content =>
    rename_i ih
    obtain ⟨hr, hu⟩ := string_split hdrop
    have hlater := ih (error_of_bind_pure h)
    rw [hr]
    simpa using Misread.later (.string rest hu) (by simpa [Nat.add_assoc] using hlater)
  | case8 p c r _ _ _ _ hc ih => exact .later (.space r hc) (ih h)
  | case9 p c r hsymbol hnumber hopen hquote hspace =>
    cases h
    exact .start r ⟨by simpa using hsymbol, by simpa using hnumber, hopen, hquote,
      by simpa using hspace⟩

/-- Reading fails with an error exactly if this is what is wrong with the text. -/
theorem readFrom_eq_error_iff {p : ℕ} {t : Text} {e : ReadError} :
    readFrom p t = .error e ↔ Misread p t e :=
  ⟨misread_of_readFrom, Misread.readFrom⟩

end SlotLisp
