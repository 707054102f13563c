import SlotLisp.Proofs.Parenthesized

/-!
# Texts behind each other

**Theorem (`read_append`).** Behind a text that can be read and at least one byte of white space,
every text means what it means alone: its atoms follow those of the first text, and what is wrong
with it is wrong in the same way, only so many bytes later.

There are two parts to it. Where a text of whole atoms ends, nothing of it is left over that could
change how the rest is read (`readFrom_append`). And the position is only ever added to, never
looked at, also where the inside of a list is read as a text of its own (`readFrom_add`).
-/

namespace SlotLisp

open Reader

/-! ## Moving errors -/

namespace ReadError

/-- The same error, so many bytes later. -/
def moved (k : ℕ) : ReadError → ReadError
  | invalidCharacter c p => invalidCharacter c (p + k)
  | badNumber token p => badNumber token (p + k)
  | unterminatedString p => unterminatedString (p + k)
  | unterminatedList p => unterminatedList (p + k)

variable (k : ℕ) (e : ReadError)

@[simp] theorem position_moved : (e.moved k).position = e.position + k := by cases e <;> rfl

@[simp] theorem kindName_moved : (e.moved k).kindName = e.kindName := by cases e <;> rfl

@[simp] theorem detail_moved : (e.moved k).detail = e.detail := by cases e <;> rfl

end ReadError

theorem mapError_bind {ε ε' α β : Type} (g : ε → ε') (x : Except ε α) (f : α → Except ε β) :
    (x >>= f).mapError g = x.mapError g >>= fun a => (f a).mapError g := by
  cases x <;> rfl

theorem checkEnd_add (p k : ℕ) (r : Text) :
    checkEnd (p + k) r = (checkEnd p r).mapError (.moved k) := by
  cases r with
  | nil => rfl
  | cons c r =>
    by_cases hc : Byte.isSpace c = true <;> simp [checkEnd, hc, Except.mapError, ReadError.moved]

theorem readNumber_add (token : Text) (p k : ℕ) :
    readNumber token (p + k) = (readNumber token p).mapError (.moved k) := by
  unfold readNumber
  cases Binary32.read? token <;> rfl

/-- What is read does not depend on where the text starts, and errors move with it. -/
theorem readFrom_add (p k : ℕ) (t : Text) :
    readFrom (p + k) t = (readFrom p t).mapError (.moved k) := by
  fun_induction readFrom p t with
  | case1 p =>
    rw [readFrom]
    rfl
  | case2 p c r hc token rest =>
    rename_i ih
    rw [readFrom, if_pos hc]
    simp only [mapError_bind, ← ih, ← checkEnd_add, Nat.add_right_comm _ k]
    rfl
  | case3 p c r hsymbol hc token rest =>
    rename_i ih
    rw [readFrom, if_neg hsymbol, if_pos hc]
    simp only [mapError_bind, ← ih, ← checkEnd_add, ← readNumber_add, Nat.add_right_comm _ k]
    rfl
  | case4 p r hsplit =>
    rw [readFrom, if_neg (by decide), if_neg (by decide), if_pos rfl]
    split
    · rfl
    · next h => simp [h] at hsplit
  | case5 p r inside rest hsplit _ _ ihinside ihrest =>
    obtain ⟨rfl, hb⟩ := splitList?_eq_some_iff.1 hsplit
    rw [readFrom_list hb]
    simp only [mapError_bind, ← ihinside, ← ihrest, Nat.add_right_comm _ k]
    rfl
  | case6 p r hdrop =>
    have hquote : Byte.quote ∉ r := by
      intro hmem
      simpa using List.dropWhile_eq_nil_iff.1 hdrop _ hmem
    rw [readFrom_unterminatedString hquote]
    rfl
  | case7 p r d rest hdrop content =>
    rename_i ih
    rw [readFrom, if_neg (by decide), if_neg (by decide), if_neg (by decide), if_pos rfl]
    split
    · next h => simp [h] at hdrop
    · next h =>
      obtain ⟨rfl, rfl⟩ := List.cons.inj (hdrop.symm.trans h)
      simp only [mapError_bind, ← ih, Nat.add_right_comm _ k]
      rfl
  | case8 p c r _ _ _ _ hc ih => rw [readFrom_space hc, Nat.add_right_comm, ih]
  | case9 p c r hsymbol hnumber hopen hquote hspace =>
    rw [readFrom, if_neg hsymbol, if_neg hnumber, if_neg hopen, if_neg hquote, if_neg hspace]
    rfl

/-! ## Reading on -/

theorem Separated.append {u v : Text} (hu : Separated u) (hv : Separated v) :
    Separated (u ++ v) := by
  cases u with
  | nil => exact hv
  | cons c u => exact hu

theorem map_append_cons (x : Except ReadError (List Atom)) (a : Atom) (as : List Atom) :
    (x.map (as ++ ·)).map (a :: ·) = x.map (a :: as ++ ·) := by
  cases x <;> rfl

/-- Behind whole atoms, and separated from them, a text is read as if they were not there. -/
theorem readFrom_append {t r : Text} {as : List Atom} (h : Items t as) (hsep : Separated r)
    (p : ℕ) : readFrom p (t ++ r) = (readFrom (p + t.length) r).map (as ++ ·) := by
  induction h generalizing p with
  | empty =>
    simp only [List.nil_append, List.length_nil, Nat.add_zero]
    cases readFrom p r <;> rfl
  | space hc _ ih =>
    rw [List.cons_append, readFrom_space hc, ih, List.length_cons, Nat.add_right_comm,
      Nat.add_assoc]
  | @symbol w r' as hw hsep' _ ih =>
    rw [List.append_assoc, readFrom_symbol hw (hsep'.append hsep), ih, map_append_cons,
      List.length_append, Nat.add_assoc]
  | @number w r' x as hw hx hsep' _ ih =>
    rw [List.append_assoc, readFrom_number hw hx (hsep'.append hsep), ih, map_append_cons,
      List.length_append, Nat.add_assoc]
  | @string u r' as hu _ ih =>
    have hlength : p + u.length + 2 + r'.length =
        p + (Byte.quote :: (u ++ Byte.quote :: r')).length := by
      simp only [List.length_cons, List.length_append]
      omega
    rw [List.cons_append, List.append_assoc, List.cons_append, readFrom_string hu, ih,
      map_append_cons, hlength]
  | @list w r' items as hb hw _ _ ih =>
    have hlength : p + w.length + 2 + r'.length =
        p + (Byte.openParen :: (w ++ Byte.closeParen :: r')).length := by
      simp only [List.length_cons, List.length_append]
      omega
    rw [List.cons_append, List.append_assoc, List.cons_append, readFrom_list hb,
      readFrom_of_items hw, ih, hlength, ← map_append_cons]
    cases readFrom (p + (Byte.openParen :: (w ++ Byte.closeParen :: r')).length) r <;> rfl

theorem readFrom_spaces {w : Text} (hw : ∀ c ∈ w, Byte.isSpace c = true) (r : Text) (p : ℕ) :
    readFrom p (w ++ r) = readFrom (p + w.length) r := by
  induction w generalizing p with
  | nil => rfl
  | cons c w ih =>
    obtain ⟨hc, hw⟩ := List.forall_mem_cons.1 hw
    rw [List.cons_append, readFrom_space hc, ih hw, List.length_cons, Nat.add_right_comm,
      Nat.add_assoc]

theorem separated_of_spaces {w : Text} (hne : w ≠ []) (hw : ∀ c ∈ w, Byte.isSpace c = true)
    (r : Text) : Separated (w ++ r) := by
  cases w with
  | nil => exact absurd rfl hne
  | cons c w => exact separated_space (hw c List.mem_cons_self) _

/-- **Behind white space a text is read as if it were alone.** Let a text be read as atoms, and let
white space follow it. If the rest is read as atoms too, the whole is read as the ones followed by
the others. If the rest cannot be read, neither can the whole, and the error is of the same kind and
has the same detail. Its position is higher by exactly what stands in front of the rest. -/
theorem read_append {s₁ w s₂ : Text} {as : List Atom} (h : read s₁ = .ok as) (hne : w ≠ [])
    (hw : ∀ c ∈ w, Byte.isSpace c = true) :
    (∀ bs, read s₂ = .ok bs → read (s₁ ++ w ++ s₂) = .ok (as ++ bs)) ∧
      ∀ e, read s₂ = .error e → ∃ e', read (s₁ ++ w ++ s₂) = .error e' ∧
        e'.kindName = e.kindName ∧ e'.detail = e.detail ∧
        e'.position = e.position + (s₁.length + w.length) := by
  have hread : read (s₁ ++ w ++ s₂) =
      ((read s₂).mapError (.moved (s₁.length + w.length))).map (as ++ ·) := by
    calc read (s₁ ++ w ++ s₂)
        = (readFrom (0 + s₁.length) (w ++ s₂)).map (as ++ ·) := by
          rw [read, List.append_assoc,
            readFrom_append (items_of_readFrom h) (separated_of_spaces hne hw s₂)]
      _ = (readFrom (0 + (s₁.length + w.length)) s₂).map (as ++ ·) := by
          rw [readFrom_spaces hw, Nat.add_assoc]
      _ = ((read s₂).mapError (.moved (s₁.length + w.length))).map (as ++ ·) := by
          rw [readFrom_add, read]
  constructor
  · intro bs hbs
    rw [hread, hbs]
    rfl
  · intro e he
    refine ⟨e.moved (s₁.length + w.length), ?_, by simp, by simp, by simp⟩
    rw [hread, he]
    rfl

/-- Behind a list and a symbol, a list, and a list in a list with two points in a number. -/
theorem read_append_nested :
    let s₁ := ascii "(\"a)\") y"
    let w := ascii "\n "
    let s₂ := ascii "(b (1.2.3))"
    (read s₁ = .ok [.list [.string (ascii "a)")] none, .symbol (ascii "y")] ∧ w ≠ [] ∧
      (∀ c ∈ w, Byte.isSpace c = true)) ∧
    (read (ascii "()") = .ok [.list [] none] ∧ read (s₁ ++ w ++ ascii "()") =
      .ok [.list [.string (ascii "a)")] none, .symbol (ascii "y"), .list [] none]) ∧
    (read s₂ = .error (.badNumber (ascii "1.2.3") 9) ∧ ∃ e, read (s₁ ++ w ++ s₂) = .error e ∧
      e.kindName = ascii "NumberError" ∧ e.detail = ascii "invalid float literal '1.2.3'" ∧
      e.position = 19) := by
  have hfirst : read (ascii "(\"a)\") y") =
      .ok [.list [.string (ascii "a)")] none, .symbol (ascii "y")] := by with_unfolding_all rfl
  have hlist : read (ascii "()") = .ok [.list [] none] := by with_unfolding_all rfl
  have hbroken : read (ascii "(b (1.2.3))") = .error (.badNumber (ascii "1.2.3") 9) := by
    with_unfolding_all rfl
  intro s₁ w s₂
  have hspace : ∀ c ∈ w, Byte.isSpace c = true := List.all_eq_true.1 rfl
  refine ⟨⟨hfirst, by decide, hspace⟩, ⟨hlist, ?_⟩, hbroken, ?_⟩
  · exact (read_append hfirst (by decide) hspace).1 _ hlist
  · exact (read_append hfirst (by decide) hspace).2 _ hbroken

end SlotLisp
