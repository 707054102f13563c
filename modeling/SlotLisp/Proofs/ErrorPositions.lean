import SlotLisp.Proofs.ReadErrors

/-!
# Where a text is wrong

An error tells a position of the whole text, also if it lies deep inside lists, whose insides are
read as texts of their own.

**Theorem (`read_error_position`).** The position is that of what is wrong: a byte that cannot stand
there, the end of a run of digits and points that is no numeral, the quote of a string without an
end, or the parenthesis of a list without an end.

The part of the text that is being read is its region: the whole text or the inside of a closed
list. A string or a list has no end if it has none up to the end of its region. `ComesTo` follows
the reader to the place of the error, with all that stands before and behind it, so that the
position is the length of the one (`pointsAt_of_misread`).
-/

namespace SlotLisp

open Reader

/-! ## The way of the reader -/

/-- Reading the text `t`, the reader comes to a place between atoms. What stands before it is
`front`, what is left of the region is `rest`, and `behind` follows the region. -/
inductive ComesTo (t : Text) : Text → Text → Text → Prop
  | start : ComesTo t [] t []
  | past {front w rest behind : Text} (h : ComesTo t front (w ++ rest) behind)
      (hw : Whole w rest) : ComesTo t (front ++ w) rest behind
  | inside {front w rest behind : Text}
      (h : ComesTo t front (Byte.openParen :: (w ++ Byte.closeParen :: rest)) behind)
      (hb : Balanced w) :
      ComesTo t (front ++ [Byte.openParen]) w (Byte.closeParen :: (rest ++ behind))

/-- The region ends with the text, or in front of the parenthesis that closes the list around it. -/
def RegionEnds (front rest behind : Text) : Prop :=
  behind = [] ∨ ∃ outer inner later, front = outer ++ Byte.openParen :: inner ∧
    behind = Byte.closeParen :: later ∧ Balanced (inner ++ rest)

namespace ComesTo

variable {t front rest behind : Text}

theorem eq_append (h : ComesTo t front rest behind) : t = front ++ (rest ++ behind) := by
  induction h with
  | start => simp
  | past _ _ ih => simp [ih]
  | inside _ _ ih => simp [ih]

theorem regionEnds (h : ComesTo t front rest behind) : RegionEnds front rest behind := by
  induction h with
  | start => exact .inl rfl
  | @past front w rest behind _ _ ih =>
    rcases ih with hend | ⟨outer, inner, later, rfl, hbehind, hb⟩
    · exact .inl hend
    · exact .inr ⟨outer, inner ++ w, later, by simp, hbehind, by simpa using hb⟩
  | @inside front w rest behind _ hb _ =>
    exact .inr ⟨front, [], rest ++ behind, rfl, rfl, hb⟩

theorem head?_behind (h : ComesTo t front rest behind) {c : Byte} (hc : c ∈ behind.head?) :
    c = Byte.closeParen := by
  rcases h.regionEnds with rfl | ⟨outer, inner, later, -, rfl, -⟩
  · cases hc
  · exact (Option.some.inj hc).symm

end ComesTo

/-- What may stand right before an atom. -/
def Precedes (c : Byte) : Prop :=
  Byte.isSpace c = true ∨ c = Byte.openParen ∨ c = Byte.closeParen ∨ c = Byte.quote

/-- Symbols and numbers are followed by white space, so no atom stands right behind them. -/
theorem Whole.precedes {w r : Text} {c : Byte} (h : Whole w (c :: r))
    (hc : Byte.isSpace c = false) : ∃ v d, w = v ++ [d] ∧ Precedes d := by
  cases h with
  | space _ hspace => exact ⟨[], _, rfl, .inl hspace⟩
  | symbol _ hsep => simp [hsep c rfl] at hc
  | number _ hsep => simp [hsep c rfl] at hc
  | @string u _ _ => exact ⟨Byte.quote :: u, Byte.quote, rfl, .inr (.inr (.inr rfl))⟩
  | @list v _ _ _ _ => exact ⟨Byte.openParen :: v, Byte.closeParen, rfl, .inr (.inr (.inl rfl))⟩

theorem ComesTo.precedes {t front r behind : Text} {c : Byte}
    (h : ComesTo t front (c :: r) behind) (hc : Byte.isSpace c = false) :
    ∀ d ∈ front.getLast?, Precedes d := by
  cases h with
  | start => simp
  | past _ hw =>
    obtain ⟨v, d, rfl, hd⟩ := hw.precedes hc
    simpa [← List.append_assoc] using hd
  | inside _ _ => simp [Precedes]

/-! ## The place of an error -/

/-- What an error tells about the text. -/
def PointsAt (t : Text) : ReadError → Prop
  | .invalidCharacter c p => t[p]? = some c ∧ Byte.isSpace c = false
  | .badNumber w p => ∃ front back, t = front ++ (w ++ back) ∧ p = front.length + w.length ∧
      w ≠ [] ∧ (∀ c ∈ w, Byte.isDigit c = true ∨ c = Byte.point) ∧ ¬IsNumeral w ∧
      (∀ c ∈ front.getLast?, Precedes c) ∧
      ∀ c ∈ back.head?, Byte.isSpace c = true ∨ c = Byte.closeParen
  | .unterminatedString p => ∃ front rest behind,
      ComesTo t front (Byte.quote :: rest) behind ∧ p = front.length ∧ Byte.quote ∉ rest
  | .unterminatedList p => ∃ front rest behind,
      ComesTo t front (Byte.openParen :: rest) behind ∧ p = front.length ∧
        ∀ u v, rest = u ++ Byte.closeParen :: v → ¬Balanced u

theorem getElem?_of_comesTo {t front w r behind : Text} {c : Byte}
    (h : ComesTo t front (w ++ c :: r) behind) : t[front.length + w.length]? = some c := by
  rw [h.eq_append]
  simp

theorem ComesTo.head?_append {t front w r behind : Text}
    (h : ComesTo t front (w ++ r) behind) (hsep : Separated r) :
    ∀ c ∈ (r ++ behind).head?, Byte.isSpace c = true ∨ c = Byte.closeParen := by
  intro c hc
  cases r with
  | nil => exact .inr (h.head?_behind hc)
  | cons d r => exact .inl (hsep c hc)

theorem pointsAt_of_misread {t r front behind : Text} {e : ReadError}
    (hr : ComesTo t front r behind) (h : Misread front.length r e) : PointsAt t e := by
  generalize hp : front.length = p at h
  induction h generalizing front behind with
  | later hw _ ih => exact ih (hr.past hw) (by simp [hp])
  | inside _ hb _ ih => exact ih (hr.inside hb) (by simp [hp])
  | start r hc =>
    subst hp
    exact ⟨getElem?_of_comesTo (w := []) hr, hc.space⟩
  | symbolEnd r _ _ hspace =>
    subst hp
    exact ⟨getElem?_of_comesTo hr, hspace⟩
  | numberEnd r _ _ _ hspace =>
    subst hp
    exact ⟨getElem?_of_comesTo hr, hspace⟩
  | @number p w r hne hw hnumeral hsep =>
    subst hp
    refine ⟨front, r ++ behind, by simp [hr.eq_append], rfl, hne, hw, hnumeral, ?_,
      hr.head?_append hsep⟩
    obtain ⟨c, u, rfl⟩ := List.exists_cons_of_ne_nil hne
    refine hr.precedes ?_
    cases hspace : Byte.isSpace c with
    | false => rfl
    | true =>
      have hnumber := not_inNumber_of_isSpace hspace
      rw [(inNumber_iff c).2 (hw c List.mem_cons_self)] at hnumber
      cases hnumber
  | @string p r hquote => exact ⟨front, r, behind, hr, hp.symm, hquote⟩
  | @list p r hclose => exact ⟨front, r, behind, hr, hp.symm, hclose⟩

theorem pointsAt_of_read {t : Text} {e : ReadError} (h : read t = .error e) : PointsAt t e :=
  pointsAt_of_misread .start (readFrom_eq_error_iff.1 h)

/-- A run of digits and points is no numeral if there is no digit in it or there are two points. -/
theorem not_isNumeral_cases {w : Text} (hw : ∀ c ∈ w, Byte.isDigit c = true ∨ c = Byte.point)
    (h : ¬IsNumeral w) : (∀ c ∈ w, Byte.isDigit c = false) ∨ 2 ≤ w.count Byte.point := by
  by_contra hcases
  rw [not_or, not_forall] at hcases
  obtain ⟨⟨c, hc⟩, hcount⟩ := hcases
  rw [Classical.not_imp, Bool.not_eq_false] at hc
  exact h ⟨hw, ⟨c, hc⟩, by omega⟩

/-- **Errors point at what is wrong.** Let a text be read with an error.

* An invalid character is the byte at the position, and it is not white space.
* A bad number is a run of digits and points that ends at the position, in which there is no digit
  or at least two points. It stands at the start of the text or behind white space, a parenthesis or
  a quote, and in front of white space, a closing parenthesis or the end of the text. The detail
  quotes it.
* At the position of an incomplete string there is a quote, and no other one up to the end of the
  region.
* At the position of an incomplete list there is an opening parenthesis, and none up to the end of
  the region that closes it.

The region is what the reader is reading when it comes to the position: the whole text, or what is
inside a list that is closed. -/
theorem read_error_position {t : Text} {e : ReadError} (h : read t = .error e) :
    (e.kindName = ascii "InvalidCharacter" →
      ∃ c, t[e.position]? = some c ∧ Byte.isSpace c = false ∧ e.detail = []) ∧
    (e.kindName = ascii "NumberError" →
      ∃ front w back, t = front ++ (w ++ back) ∧ e.position = front.length + w.length ∧ w ≠ [] ∧
        (∀ c ∈ w, Byte.isDigit c = true ∨ c = Byte.point) ∧
        ((∀ c ∈ w, Byte.isDigit c = false) ∨ 2 ≤ w.count Byte.point) ∧
        (∀ c ∈ front.getLast?, Precedes c) ∧
        (∀ c ∈ back.head?, Byte.isSpace c = true ∨ c = Byte.closeParen) ∧
        e.detail = ascii "invalid float literal '" ++ w ++ ascii "'") ∧
    (e.kindName = ascii "IncompleteString" →
      ∃ front rest behind, t = front ++ Byte.quote :: (rest ++ behind) ∧
        e.position = front.length ∧ Byte.quote ∉ rest ∧
        ComesTo t front (Byte.quote :: rest) behind ∧
        RegionEnds front (Byte.quote :: rest) behind) ∧
    (e.kindName = ascii "IncompleteList" →
      ∃ front rest behind, t = front ++ Byte.openParen :: (rest ++ behind) ∧
        e.position = front.length ∧
        (∀ u v, rest = u ++ Byte.closeParen :: v → ¬Balanced u) ∧
        ComesTo t front (Byte.openParen :: rest) behind ∧
        RegionEnds front (Byte.openParen :: rest) behind) := by
  have hpoints := pointsAt_of_read h
  cases e with
  | invalidCharacter c p =>
    refine ⟨fun _ => ⟨c, hpoints.1, hpoints.2, rfl⟩, fun hkind => ?_, fun hkind => ?_,
      fun hkind => ?_⟩ <;> exact absurd hkind (by rw [ReadError.kindName]; decide)
  | badNumber w p =>
    obtain ⟨front, back, ht, hp, hne, hw, hnumeral, hbefore, hafter⟩ := hpoints
    refine ⟨fun hkind => ?_, fun _ => ⟨front, w, back, ht, hp, hne, hw,
      not_isNumeral_cases hw hnumeral, hbefore, hafter, rfl⟩, fun hkind => ?_, fun hkind => ?_⟩ <;>
      exact absurd hkind (by rw [ReadError.kindName]; decide)
  | unterminatedString p =>
    obtain ⟨front, rest, behind, hcomes, hp, hquote⟩ := hpoints
    refine ⟨fun hkind => ?_, fun hkind => ?_, fun _ => ⟨front, rest, behind, hcomes.eq_append, hp,
      hquote, hcomes, hcomes.regionEnds⟩, fun hkind => ?_⟩ <;>
      exact absurd hkind (by rw [ReadError.kindName]; decide)
  | unterminatedList p =>
    obtain ⟨front, rest, behind, hcomes, hp, hclose⟩ := hpoints
    refine ⟨fun hkind => ?_, fun hkind => ?_, fun hkind => ?_, fun _ => ⟨front, rest, behind,
      hcomes.eq_append, hp, hclose, hcomes, hcomes.regionEnds⟩⟩ <;>
      exact absurd hkind (by rw [ReadError.kindName]; decide)

/-- Errors inside lists: a closing parenthesis that nothing opened behind a list, two points in a
number of a nested list, and a string and a list that have no end in a list because a quote in a
symbol hides one. -/
theorem read_error_position_nested :
    let t₁ := ascii "((a)) )"
    let t₂ := ascii "(a (\"b\" 1.2.3))"
    let t₃ := ascii "(x\" \"y)"
    let t₄ := ascii "(x\" (y\")"
    (read t₁ = .error (.invalidCharacter Byte.closeParen 6) ∧
      t₁[6]? = some Byte.closeParen ∧ Byte.isSpace Byte.closeParen = false) ∧
    (read t₂ = .error (.badNumber (ascii "1.2.3") 13) ∧
      ∃ front w back, t₂ = front ++ (w ++ back) ∧ 13 = front.length + w.length ∧
        (∀ c ∈ front.getLast?, Precedes c) ∧
        ascii "invalid float literal '1.2.3'" = ascii "invalid float literal '" ++ w ++ ascii "'") ∧
    (read t₃ = .error (.unterminatedString 4) ∧
      ∃ front rest behind, t₃ = front ++ Byte.quote :: (rest ++ behind) ∧ 4 = front.length ∧
        Byte.quote ∉ rest ∧ RegionEnds front (Byte.quote :: rest) behind) ∧
    (read t₄ = .error (.unterminatedList 4) ∧
      ∃ front rest behind, t₄ = front ++ Byte.openParen :: (rest ++ behind) ∧ 4 = front.length ∧
        (∀ u v, rest = u ++ Byte.closeParen :: v → ¬Balanced u) ∧
        RegionEnds front (Byte.openParen :: rest) behind) := by
  intro t₁ t₂ t₃ t₄
  have hread₁ : read t₁ = .error (.invalidCharacter Byte.closeParen 6) := by with_unfolding_all rfl
  have hread₂ : read t₂ = .error (.badNumber (ascii "1.2.3") 13) := by with_unfolding_all rfl
  have hread₃ : read t₃ = .error (.unterminatedString 4) := by with_unfolding_all rfl
  have hread₄ : read t₄ = .error (.unterminatedList 4) := by with_unfolding_all rfl
  obtain ⟨c, hc, hspace, -⟩ := (read_error_position hread₁).1 rfl
  obtain ⟨front₂, w, back, ht₂, hp₂, -, -, -, hbefore, -, hdetail⟩ :=
    (read_error_position hread₂).2.1 rfl
  obtain ⟨front₃, rest₃, behind₃, ht₃, hp₃, hquote, -, hends₃⟩ :=
    (read_error_position hread₃).2.2.1 rfl
  obtain ⟨front₄, rest₄, behind₄, ht₄, hp₄, hclose, -, hends₄⟩ :=
    (read_error_position hread₄).2.2.2 rfl
  obtain rfl : Byte.closeParen = c := Option.some.inj hc
  exact ⟨⟨hread₁, hc, hspace⟩, ⟨hread₂, front₂, w, back, ht₂, hp₂, hbefore, hdetail⟩,
    ⟨hread₃, front₃, rest₃, behind₃, ht₃, hp₃, hquote, hends₃⟩,
    hread₄, front₄, rest₄, behind₄, ht₄, hp₄, hclose, hends₄⟩

end SlotLisp
