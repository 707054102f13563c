import Mathlib.Data.List.Infix
import SlotLisp.Proofs.Parenthesized

/-!
# Texts that end inside a list

The interactive program asks for more input while the count of open parentheses is positive. It
counts without reading, so the count and the reader may disagree about a quote in a symbol: for the
count it opens a string.

**Theorem (`parenDepth_of_read`).** Where the reader comes upon no quote in a symbol, the count is
right. It is zero for a text of whole atoms and never negative on the way, it is positive for a text
that ends inside a list, and it is zero for one that ends inside a string.

The count is that of `scan?`, and `EndsLike` says where the scan of a text ends that is read with a
given result. A list is only read when it is closed, and then its inside is balanced. So what is
wrong inside is never that something has no end, and an error of that kind is about the end of the
whole text.
-/

namespace SlotLisp

open Reader

/-! ## The symbols that the reader comes upon -/

/-- Reading the text, the reader comes upon the symbol `w`, in the text itself or in a list of it.
It gets to what stands behind a token only if the token can be read, and it goes into a list as soon
as the list is closed. -/
inductive MeetsSymbol : Text → Text → Prop
  | here {c : Byte} (r : Text) (hc : Byte.startsSymbol c = true) :
      MeetsSymbol (c :: r) (c :: r.takeWhile Byte.inSymbol)
  | space {c : Byte} {r w : Text} (hc : Byte.isSpace c = true) (hr : MeetsSymbol r w) :
      MeetsSymbol (c :: r) w
  | symbol {v r w : Text} (hv : IsSymbol v) (hsep : Separated r) (hr : MeetsSymbol r w) :
      MeetsSymbol (v ++ r) w
  | number {v r w : Text} (hv : IsNumeral v) (hsep : Separated r) (hr : MeetsSymbol r w) :
      MeetsSymbol (v ++ r) w
  | string {u r w : Text} (hu : Byte.quote ∉ u) (hr : MeetsSymbol r w) :
      MeetsSymbol (Byte.quote :: (u ++ Byte.quote :: r)) w
  | inside {v w : Text} (r : Text) (hb : Balanced v) (hv : MeetsSymbol v w) :
      MeetsSymbol (Byte.openParen :: (v ++ Byte.closeParen :: r)) w
  | list {v r w : Text} {items : List Atom} (hb : Balanced v) (hv : Items v items)
      (hr : MeetsSymbol r w) : MeetsSymbol (Byte.openParen :: (v ++ Byte.closeParen :: r)) w

/-- No symbol that the reader comes upon has a quote in it. -/
def PlainSymbols (t : Text) : Prop := ∀ w, MeetsSymbol t w → Byte.quote ∉ w

/-- The symbol `w` stands somewhere in the text, and is as long as it can be there. -/
def StandsIn (w t : Text) : Prop :=
  ∃ c r, (c :: r) <:+ t ∧ Byte.startsSymbol c = true ∧ w = c :: r.takeWhile Byte.inSymbol

theorem StandsIn.of_suffix {w t t' : Text} (h : StandsIn w t) (ht : t <:+ t') : StandsIn w t' := by
  obtain ⟨c, r, hsuffix, hw⟩ := h
  exact ⟨c, r, hsuffix.trans ht, hw⟩

theorem MeetsSymbol.standsIn {t w : Text} (h : MeetsSymbol t w) : StandsIn w t := by
  induction h with
  | here r hc => exact ⟨_, r, List.suffix_rfl, hc, rfl⟩
  | space _ _ ih => exact ih.of_suffix (List.suffix_cons _ _)
  | symbol _ _ _ ih => exact ih.of_suffix (List.suffix_append _ _)
  | number _ _ _ ih => exact ih.of_suffix (List.suffix_append _ _)
  | @string u _ _ _ _ ih => exact ih.of_suffix ⟨Byte.quote :: (u ++ [Byte.quote]), by simp⟩
  | inside rest _ _ ih =>
    obtain ⟨c, r, ⟨front, rfl⟩, hc, rfl⟩ := ih
    refine ⟨c, r ++ Byte.closeParen :: rest, ⟨Byte.openParen :: front, by simp⟩, hc, ?_⟩
    -- The parenthesis ends the symbol, if nothing did before.
    rw [List.takeWhile_append, List.takeWhile_cons_of_neg (by decide), List.append_nil]
    split_ifs with hall
    · rw [(List.takeWhile_prefix _).eq_of_length hall]
    · rfl
  | @list v _ _ _ _ _ _ ih =>
    exact ih.of_suffix ⟨Byte.openParen :: (v ++ [Byte.closeParen]), by simp⟩

/-! ## The end of a scan -/

/-- How the scan of a text ends that is read with the given result. Nothing is said about texts in
which a byte or a number is wrong. -/
def EndsLike : Except ReadError (List Atom) → Option (ℕ × Bool) → Prop
  | .ok _, place => place = some (0, false)
  | .error (.unterminatedString _), place => place = some (0, true)
  | .error (.unterminatedList _), place => ∃ depth quoted, place = some (depth + 1, quoted)
  | .error _, _ => True

section EndsLike

variable {p : ℕ} {r w : Text} {place : Option (ℕ × Bool)}

theorem EndsLike.behind {x : Except ReadError (List Atom)} (h : EndsLike x (scan? 0 false r))
    (hw : Balanced w) (f : List Atom → List Atom) :
    EndsLike (x >>= fun as => pure (f as)) (scan? 0 false (w ++ r)) := by
  rw [scan?_append, hw, Option.bind_some]
  cases x with
  | error e => exact h
  | ok as => exact h

theorem endsLike_checkEnd {f : Unit → Except ReadError (List Atom)}
    (h : Separated r → EndsLike (f ()) place) : EndsLike (checkEnd p r >>= f) place := by
  by_cases hsep : Separated r
  · rw [checkEnd_eq_ok_iff.2 hsep]
    exact h hsep
  · cases r with
    | nil => exact absurd separated_nil hsep
    | cons c r =>
      have hc : ¬Byte.isSpace c = true := fun hc => hsep (separated_space hc r)
      rw [checkEnd, if_neg hc]
      trivial

theorem endsLike_readNumber {f : Atom → Except ReadError (List Atom)}
    (h : ∀ x, Binary32.read? w = some x → EndsLike (f (.number x)) place) :
    EndsLike (readNumber w p >>= f) place := by
  rw [readNumber]
  cases hread : Binary32.read? w with
  | none => trivial
  | some x => exact h x hread

end EndsLike

theorem exists_scan?_of_splitList? {n : Nesting} {t : Text} (h : splitList? n t = none) :
    ∃ p, scan? n.depth n.quoted t = some p := by
  induction t generalizing n with
  | nil => exact ⟨_, rfl⟩
  | cons c r ih =>
    rw [splitList?] at h
    cases hcloses : n.closes c with
    | true => simp [hcloses] at h
    | false =>
      rw [hcloses, if_neg Bool.false_ne_true, Option.map_eq_none_iff] at h
      rw [scan?_cons hcloses]
      exact ih h

theorem endsLike_readFrom (p : ℕ) (t : Text) (ht : PlainSymbols t) :
    EndsLike (readFrom p t) (scan? 0 false t) := by
  fun_induction readFrom p t with
  | case1 p => rfl
  | case2 p c r hc token rest =>
    rename_i ih
    have hw : IsSymbol token := isSymbol_takeWhile hc r
    have hsplit : c :: r = token ++ rest := (token_append c r _).symm
    have hquote : Byte.quote ∉ token := ht token (.here r hc)
    rw [hsplit] at ht ⊢
    refine endsLike_checkEnd fun hsep => ?_
    exact (ih fun w hmeets => ht w (.symbol hw hsep hmeets)).behind (balanced_symbol hw hquote) _
  | case3 p c r hsymbol hc token rest =>
    rename_i ih
    have hsplit : c :: r = token ++ rest := (token_append c r _).symm
    rw [hsplit] at ht ⊢
    refine endsLike_checkEnd fun hsep => endsLike_readNumber fun x hx => ?_
    have hw : IsNumeral token := ((read?_eq_some_iff (run_takeWhile hc r)).1 hx).1
    exact (ih fun w hmeets => ht w (.number hw hsep hmeets)).behind (balanced_numeral hw) _
  | case4 p r hsplit =>
    obtain ⟨⟨depth, quoted⟩, hscan⟩ := exists_scan?_of_splitList? hsplit
    exact ⟨depth, quoted, scan?_add hscan 1⟩
  | case5 p r inside rest hsplit _ _ ihinside ihrest =>
    obtain ⟨rfl, (hb : Balanced inside)⟩ := splitList?_eq_some_iff.1 hsplit
    have hinside := ihinside fun w hmeets => ht w (.inside rest hb hmeets)
    have hlist : Byte.openParen :: (inside ++ Byte.closeParen :: rest) =
        Byte.openParen :: (inside ++ [Byte.closeParen]) ++ rest := by simp
    cases hitems : readFrom (p + 1) inside with
    | ok items =>
      have hrest := ihrest fun w hmeets => ht w (.list hb (items_of_readFrom hitems) hmeets)
      rw [hlist]
      exact hrest.behind hb.list _
    | error e =>
      -- The inside is balanced, so it breaks off nowhere.
      rw [hitems, hb] at hinside
      cases e with
      | invalidCharacter c q => trivial
      | badNumber token q => trivial
      | unterminatedString q => simp [EndsLike] at hinside
      | unterminatedList q => simp [EndsLike] at hinside
  | case6 p r hdrop =>
    have hr : Byte.quote ∉ r := fun hmem => by
      simpa using List.dropWhile_eq_nil_iff.1 hdrop _ hmem
    exact scan?_inside_string hr 0
  | case7 p r d rest hdrop content =>
    rename_i ih
    obtain ⟨hsplit, hu⟩ := string_split hdrop
    have hstring : Byte.quote :: (content ++ Byte.quote :: rest) =
        Byte.quote :: (content ++ [Byte.quote]) ++ rest := by simp
    rw [hsplit] at ht ⊢
    rw [hstring]
    exact (ih fun w hmeets => ht w (.string hu hmeets)).behind (balanced_string hu) _
  | case8 p c r _ _ _ _ hc ih =>
    have hblank : Balanced [c] := balanced_of_no_marks (by simpa using isMark_of_isSpace hc)
    have hrest := ih fun w hmeets => ht w (.space hc hmeets)
    rwa [← List.singleton_append, scan?_append, hblank]
  | case9 p c r => trivial

/-! ## The count -/

theorem Balanced.parenDepth_prefix {t u : Text} (h : Balanced t) (hu : u <+: t) :
    0 ≤ parenDepth u := by
  obtain ⟨v, rfl⟩ := hu
  rw [Balanced, scan?_append, Option.bind_eq_some_iff] at h
  obtain ⟨⟨depth, quoted⟩, hscan, -⟩ := h
  rw [parenDepth_of_scan? hscan]
  exact Int.natCast_nonneg depth

/-- **The count is positive exactly where a list is open.** Let the reader come upon no quote in a
symbol. If the text is read as atoms, its count is zero, and on the way it is never negative. If a
list has no end, the count is at least one. If a string has no end, it is zero. -/
theorem parenDepth_of_read {t : Text} (ht : PlainSymbols t) :
    (∀ as, read t = .ok as → parenDepth t = 0 ∧ ∀ u, u <+: t → 0 ≤ parenDepth u) ∧
      (∀ p, read t = .error (.unterminatedList p) → 1 ≤ parenDepth t) ∧
      ∀ p, read t = .error (.unterminatedString p) → parenDepth t = 0 := by
  have hends : EndsLike (read t) (scan? 0 false t) := endsLike_readFrom 0 t ht
  refine ⟨fun as hread => ?_, fun p hread => ?_, fun p hread => ?_⟩
  · rw [hread] at hends
    have hb : Balanced t := hends
    exact ⟨hb.parenDepth_eq_zero, fun u hu => hb.parenDepth_prefix hu⟩
  · rw [hread] at hends
    obtain ⟨depth, quoted, hscan⟩ := hends
    rw [parenDepth_of_scan? hscan]
    omega
  · rw [hread] at hends
    exact parenDepth_of_scan? hends

/-- No symbol has a quote in it if no quote stands right behind a byte of a symbol. -/
theorem plainSymbols_of_tails {t : Text}
    (h : ∀ s ∈ t.tails, ∀ c ∈ s.head?, Byte.startsSymbol c = true →
      Byte.quote ∉ s.tail.takeWhile Byte.inSymbol) : PlainSymbols t := by
  intro w hmeets hmem
  obtain ⟨c, r, hsuffix, hc, rfl⟩ := hmeets.standsIn
  rcases List.mem_cons.1 hmem with rfl | hmem
  · cases hc
  · exact h (c :: r) ((List.mem_tails _ _).2 hsuffix) c rfl hc hmem

/-- A text with a parenthesis in a string, one that ends inside a list of a list, and one that ends
inside a string. -/
theorem parenDepth_of_read_string :
    let t₁ := ascii "(f \"a(\" (g)) x"
    let t₂ := ascii "(f \")\" (g 1"
    let t₃ := ascii "(f) \"(g "
    (PlainSymbols t₁ ∧ (∃ as, read t₁ = .ok as) ∧ parenDepth t₁ = 0) ∧
    (PlainSymbols t₂ ∧ read t₂ = .error (.unterminatedList 0) ∧ 1 ≤ parenDepth t₂) ∧
    (PlainSymbols t₃ ∧ read t₃ = .error (.unterminatedString 4) ∧ parenDepth t₃ = 0) := by
  intro t₁ t₂ t₃
  have hread₁ : read t₁ = .ok [.list [.symbol (ascii "f"), .string (ascii "a("),
      .list [.symbol (ascii "g")] none] none, .symbol (ascii "x")] := by with_unfolding_all rfl
  have hread₂ : read t₂ = .error (.unterminatedList 0) := by with_unfolding_all rfl
  have hread₃ : read t₃ = .error (.unterminatedString 4) := by with_unfolding_all rfl
  have h₁ : PlainSymbols t₁ := plainSymbols_of_tails (by decide +kernel)
  have h₂ : PlainSymbols t₂ := plainSymbols_of_tails (by decide +kernel)
  have h₃ : PlainSymbols t₃ := plainSymbols_of_tails (by decide +kernel)
  exact ⟨⟨h₁, ⟨_, hread₁⟩, ((parenDepth_of_read h₁).1 _ hread₁).1⟩,
    ⟨h₂, hread₂, (parenDepth_of_read h₂).2.1 _ hread₂⟩,
    h₃, hread₃, (parenDepth_of_read h₃).2.2 _ hread₃⟩

end SlotLisp
