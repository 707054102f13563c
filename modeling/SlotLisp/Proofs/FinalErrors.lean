import SlotLisp.Proofs.ErrorPositions

/-!
# Errors that no further text repairs

**Theorem (`read_append_of_final`).** An invalid character and a bad number that is not at the very
end of the text stay what is wrong, whatever is appended. So appending can only make a difference to
a text that ends inside a string or a list, or with a bad number.

A list is read when it is closed, so an error in it may be found after much of the text behind the
error has been seen. But what the reader has got over stays an atom when text is appended behind the
error (`Whole.append`), and a list that is closed stays as it is.
-/

namespace SlotLisp

open Reader

/-- An error that is certain already, in a text that ends at the position `n`. -/
def ReadError.IsFinal (n : ℕ) : ReadError → Prop
  | invalidCharacter _ _ => True
  | badNumber _ p => p < n
  | unterminatedString _ => False
  | unterminatedList _ => False

theorem Separated.append_of_ne_nil {r : Text} (h : Separated r) (hr : r ≠ []) (t : Text) :
    Separated (r ++ t) := by
  cases r with
  | nil => exact absurd rfl hr
  | cons c r => exact h

namespace Whole

variable {w r : Text}

theorem ne_nil (h : Whole w r) : w ≠ [] := by
  cases h with
  | symbol hw _ => cases hw; simp
  | number hw _ => exact hw.ne_nil
  | _ => simp

/-- What the reader gets over in front of a text that is not empty does not change by what follows
that text. -/
theorem append (h : Whole w r) (hr : r ≠ []) (t : Text) : Whole w (r ++ t) := by
  cases h with
  | space r hc => exact .space _ hc
  | symbol hw hsep => exact .symbol hw (hsep.append_of_ne_nil hr t)
  | number hw hsep => exact .number hw (hsep.append_of_ne_nil hr t)
  | string r hu => exact .string _ hu
  | list r hb hw => exact .list _ hb hw

end Whole

namespace Misread

variable {p : ℕ} {s : Text} {e : ReadError}

theorem ne_nil (h : Misread p s e) : s ≠ [] := by
  cases h with
  | later hw _ => simp [hw.ne_nil]
  | number hne _ _ _ => simp [hne]
  | _ => simp

/-- What is certainly wrong with a text is wrong with every text that starts with it. -/
theorem append (h : Misread p s e) (hfinal : e.IsFinal (p + s.length)) (t : Text) :
    Misread p (s ++ t) e := by
  induction h with
  | @later p w r e hw hr ih =>
    rw [List.length_append, ← Nat.add_assoc] at hfinal
    rw [List.append_assoc]
    exact .later (hw.append hr.ne_nil t) (ih hfinal)
  | inside r hb hw _ =>
    rw [List.cons_append, List.append_assoc]
    exact .inside (r ++ t) hb hw
  | start r hc => exact .start (r ++ t) hc
  | symbolEnd r hw hc hspace =>
    rw [List.append_assoc]
    exact .symbolEnd (r ++ t) hw hc hspace
  | numberEnd r hne hw hc hspace =>
    rw [List.append_assoc]
    exact .numberEnd (r ++ t) hne hw hc hspace
  | @number p w r hne hw hnumeral hsep =>
    have hr : r ≠ [] := by
      rintro rfl
      simp [ReadError.IsFinal] at hfinal
    rw [List.append_assoc]
    exact .number hne hw hnumeral (hsep.append_of_ne_nil hr t)
  | string _ => exact absurd hfinal id
  | list _ => exact absurd hfinal id

end Misread

theorem position_le_of_read {s w : Text} {p : ℕ} (h : read s = .error (.badNumber w p)) :
    p ≤ s.length := by
  obtain ⟨front, back, hs, hp, -⟩ := pointsAt_of_read h
  simp only [hs, hp, List.length_append]
  omega

/-- **Definite errors are final.** Let a text be read with an error. If it is an invalid character,
or a bad number at a position before the end of the text, then every text that starts with this one
is read with the same error. So if some text can be appended that makes a difference, a string or a
list is incomplete, or a bad number ends where the text does. -/
theorem read_append_of_final {s : Text} {e : ReadError} (h : read s = .error e) :
    (e.kindName = ascii "InvalidCharacter" ∨
        e.kindName = ascii "NumberError" ∧ e.position < s.length →
      ∀ t, read (s ++ t) = .error e) ∧
    ∀ t, read (s ++ t) ≠ .error e →
      e.kindName = ascii "IncompleteString" ∨ e.kindName = ascii "IncompleteList" ∨
        e.kindName = ascii "NumberError" ∧ e.position = s.length := by
  have hread (hfinal : e.IsFinal s.length) (t : Text) : read (s ++ t) = .error e :=
    ((readFrom_eq_error_iff.1 h).append (by simpa using hfinal) t).readFrom
  cases e with
  | invalidCharacter c p =>
    exact ⟨fun _ => hread trivial, fun t hchange => absurd (hread trivial t) hchange⟩
  | badNumber w p =>
    refine ⟨fun hkind => hread ?_, fun t hchange => ?_⟩
    · rcases hkind with hkind | ⟨-, hlt⟩
      · exact absurd hkind (by rw [ReadError.kindName]; decide)
      · exact hlt
    · refine .inr (.inr ⟨rfl, ?_⟩)
      by_contra hne
      exact hchange (hread (lt_of_le_of_ne (position_le_of_read h) hne) t)
  | unterminatedString p =>
    refine ⟨fun hkind => ?_, fun _ _ => .inl rfl⟩
    rcases hkind with hkind | ⟨hkind, -⟩ <;>
      exact absurd hkind (by rw [ReadError.kindName]; decide)
  | unterminatedList p =>
    refine ⟨fun hkind => ?_, fun _ _ => .inr (.inl rfl)⟩
    rcases hkind with hkind | ⟨hkind, -⟩ <;>
      exact absurd hkind (by rw [ReadError.kindName]; decide)

/-- Two points in a number of a list, in front of another list that is still open: whatever is
appended, the error stays. It does not stay for a lone point at the end, since a letter behind it is
the first thing wrong, nor for an open list, which can be closed. -/
theorem read_append_of_final_list :
    let s := ascii "(a 1.2.3) (b"
    let e : ReadError := .badNumber (ascii "1.2.3") 8
    let point : ReadError := .badNumber (ascii ".") 1
    (read s = .error e ∧ e.kindName = ascii "NumberError" ∧ e.position < s.length ∧
      ∀ t, read (s ++ t) = .error e) ∧
    (read (ascii ".") = .error point ∧ read (ascii "." ++ ascii "x") ≠ .error point ∧
      point.position = (ascii ".").length) ∧
    (read (ascii "(b") = .error (.unterminatedList 0) ∧
      read (ascii "(b" ++ ascii ")") = .ok [.list [.symbol (ascii "b")] none]) := by
  intro s e point
  have hread : read s = .error e := by with_unfolding_all rfl
  have hpoint : read (ascii ".") = .error point := by with_unfolding_all rfl
  have hletter : read (ascii "." ++ ascii "x") = .error (.invalidCharacter 120 1) := by
    with_unfolding_all rfl
  have hopen : read (ascii "(b") = .error (.unterminatedList 0) := by with_unfolding_all rfl
  have hclosed : read (ascii "(b" ++ ascii ")") = .ok [.list [.symbol (ascii "b")] none] := by
    with_unfolding_all rfl
  have hlt : e.position < s.length := by decide
  have hchange : read (ascii "." ++ ascii "x") ≠ .error point := by
    rw [hletter]
    exact fun h => ReadError.noConfusion (Except.error.inj h)
  refine ⟨⟨hread, rfl, hlt, (read_append_of_final hread).1 (.inr ⟨rfl, hlt⟩)⟩,
    ⟨hpoint, hchange, ?_⟩, hopen, hclosed⟩
  rcases (read_append_of_final hpoint).2 _ hchange with hkind | hkind | ⟨-, hposition⟩
  · exact absurd hkind (by decide)
  · exact absurd hkind (by decide)
  · exact hposition

end SlotLisp
