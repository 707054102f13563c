import SlotLisp.Printer
import SlotLisp.Proofs.Balance
import SlotLisp.Proofs.Equality
import SlotLisp.Proofs.NumberText

/-!
# Debug text tells atoms apart

**Theorem (`debug_eq_iff`).** Atoms have the same debug text exactly if they are equal, provided
that there is no NaN in them, no closing parenthesis in a name and no quote in a string.

Nothing is escaped in debug text, so it has to be shown that it can be read in one way only. The
text of an atom can be split off the front of any text that starts with it: its first two letters
tell its kind, and each of its parts ends at the first byte that cannot stand in it. So what follows
an atom never matters, and the items of a row are found one after the other
(`beq_of_debug_append`).
-/

namespace SlotLisp

/-! ## Texts up to a byte -/

/-- Texts that end at the first place of a byte. -/
theorem append_stop_inj {c : Byte} {u v r r' : Text} (hu : c ∉ u) (hv : c ∉ v)
    (h : u ++ c :: r = v ++ c :: r') : u = v ∧ r = r' := by
  obtain ⟨u', rfl, hr⟩ := exists_of_append_eq hu h
  cases u' with
  | nil => simpa using hr
  | cons d u' =>
    obtain ⟨rfl, -⟩ := List.cons.inj hr
    simp at hv

theorem Text.ofNat_injective : Function.Injective Text.ofNat :=
  Function.LeftInverse.injective Text.digitsValue_ofNat

theorem Text.not_mem_ofNat {c : Byte} (hc : Byte.isDigit c = false) (n : ℕ) :
    c ∉ Text.ofNat n := by
  intro h
  simp [Text.isDigit_of_mem_ofNat h] at hc

/-! ## Numbers -/

theorem mem_dropWhile_of_not {c : Byte} {p : Byte → Bool} {t : Text} (hc : p c = false)
    (h : c ∈ t) : c ∈ t.dropWhile p := by
  rw [← List.takeWhile_append_dropWhile (p := p) (l := t), List.mem_append] at h
  rcases h with h | h
  · simp [List.mem_takeWhile_imp h] at hc
  · exact h

namespace Decimal

theorem closeParen_mem_splitSign {t : Text} (h : Byte.closeParen ∈ t) :
    Byte.closeParen ∈ (Text.splitSign t).2 := by
  unfold Text.splitSign
  split
  · exact List.mem_of_ne_of_mem (by decide) h
  · exact List.mem_of_ne_of_mem (by decide) h
  · exact h

theorem closeParen_not_mem_of_readExponent? {t : Text} {e : ℤ} (h : readExponent? t = some e) :
    Byte.closeParen ∉ t := by
  intro hmem
  cases t with
  | nil => cases hmem
  | cons c r =>
    simp only [readExponent?] at h
    split at h
    · next hc =>
      simp only [Bool.and_eq_true, Bool.or_eq_true, decide_eq_true_eq, List.all_eq_true] at hc
      have hne : Byte.closeParen ≠ c := by
        rintro rfl
        exact absurd hc.1.1 (by decide)
      cases hc.2 _ (closeParen_mem_splitSign (List.mem_of_ne_of_mem hne hmem))
    · cases h

/-- What is read as a number has no parenthesis in it. -/
theorem closeParen_not_mem_of_read? {t : Text} {d : Decimal} (h : read? t = some d) :
    Byte.closeParen ∉ t := by
  intro hmem
  have hrest := mem_dropWhile_of_not (p := Byte.isDigit) rfl (closeParen_mem_splitSign hmem)
  simp only [read?] at h
  split_ifs at h
  obtain ⟨e, he, -⟩ := Option.map_eq_some_iff.1 h
  refine closeParen_not_mem_of_readExponent? he ?_
  split
  · next r heq =>
    rw [heq] at hrest
    exact mem_dropWhile_of_not rfl (List.mem_of_ne_of_mem (by decide) hrest)
  · exact hrest

end Decimal

namespace Binary32

variable {x y : Binary32}

/-- A number that is not a NaN is finite, or it is infinite and not written with digits. -/
theorem isFinite_or_toText (hx : x.isNaN = false) :
    x.isFinite = true ∨ x.magnitude = infiniteMagnitude ∧ x.toText = x.signText ++ ascii "inf" := by
  by_cases hfinite : x.isFinite = true
  · exact .inl hfinite
  · have hmagnitude : x.magnitude = infiniteMagnitude := by
      simp only [isNaN, isFinite, decide_eq_true_eq, decide_eq_false_iff_not] at hx hfinite
      omega
    refine .inr ⟨hmagnitude, ?_⟩
    simp [toText, isZero, isNaN, isInfinite, hmagnitude, infiniteMagnitude]

theorem read?_infinite (x : Binary32) : read? (x.signText ++ ascii "inf") = none := by
  unfold signText
  split_ifs <;> rfl

theorem closeParen_not_mem_toText (hx : x.isNaN = false) : Byte.closeParen ∉ x.toText := by
  rcases isFinite_or_toText hx with hfinite | ⟨-, htext⟩
  · obtain ⟨d, hd, -⟩ := Option.map_eq_some_iff.1 (read?_toText hfinite)
    exact Decimal.closeParen_not_mem_of_read? hd
  · rw [htext, signText]
    split_ifs <;> decide

/-- Equal numbers have the same text. -/
theorem toText_of_beq (h : (x == y) = true) : x.toText = y.toText := by
  obtain ⟨-, -, rfl | ⟨hx, hy⟩⟩ := beq_iff.1 h
  · rfl
  · simp [toText, hx, hy]

/-- Different numbers have different texts. -/
theorem beq_of_toText (hx : x.isNaN = false) (hy : y.isNaN = false) (h : x.toText = y.toText) :
    (x == y) = true := by
  refine beq_iff.2 ⟨hx, hy, ?_⟩
  rcases isFinite_or_toText hx with hfinite | ⟨hinfinite, htext⟩
  · have hread := read?_toText hfinite
    rcases isFinite_or_toText hy with hfinite' | ⟨-, htext'⟩
    · rw [h, read?_toText hfinite', Option.some.injEq] at hread
      split_ifs at hread with hzero' hzero
      · exact .inr ⟨hzero, hzero'⟩
      · exact absurd (hread ▸ rfl : x.isZero = true) hzero
      · exact absurd (hread ▸ rfl : y.isZero = true) hzero'
      · exact .inl hread.symm
    · rw [h, htext', read?_infinite] at hread
      cases hread
  · rcases isFinite_or_toText hy with hfinite' | ⟨hinfinite', htext'⟩
    · have hread := read?_toText hfinite'
      rw [← h, htext, read?_infinite] at hread
      cases hread
    · have hsign : x.isNegative = y.isNegative := by
        rw [htext, htext', List.append_left_inj] at h
        cases hneg : x.isNegative <;> cases hneg' : y.isNegative <;>
          simp [signText, hneg, hneg', ascii] at h ⊢
      left
      rw [← ofMagnitude_magnitude x, ← ofMagnitude_magnitude y, hsign, hinfinite, hinfinite']

end Binary32

/-! ## Kinds -/

namespace Atom

/-- The first two letters of the debug text: `Sy`, `Nu`, `St`, `Li`, `Bo`, `Ni`, `Er`, `Up`, `Cl`
and `Na`. -/
def initials : Atom → Text
  | symbol _ => [83, 121]
  | number _ => [78, 117]
  | string _ => [83, 116]
  | list _ _ => [76, 105]
  | bool _ => [66, 111]
  | nil => [78, 105]
  | error _ => [69, 114]
  | upvalue _ _ => [85, 112]
  | closure _ => [67, 108]
  | native _ => [78, 97]

theorem take_debug (a : Atom) (r : Text) : (a.debug ++ r).take 2 = a.initials := by
  cases a <;> rfl

theorem sameKind_of_debug {a b : Atom} {r r' : Text} (h : a.debug ++ r = b.debug ++ r') :
    SameKind a b := by
  have hinitials : a.initials = b.initials := by rw [← take_debug a r, h, take_debug]
  cases a <;> cases b <;> first | constructor | simp [initials] at hinitials

/-! ## Rows -/

/-- What follows an item of a row: the later items, and the bracket that closes the row. -/
def laterDebug : List Atom → Text
  | [] => ascii "]"
  | a :: as => ascii ", " ++ (a.debug ++ laterDebug as)

theorem bracketed_nil : bracketed (debugAll []) = ascii "[" ++ ascii "]" := rfl

theorem bracketed_cons (a : Atom) (as : List Atom) :
    bracketed (debugAll (a :: as)) = ascii "[" ++ (a.debug ++ laterDebug as) := by
  have hitems : (ascii ", ").intercalate (debugAll (a :: as)) ++ ascii "]" =
      a.debug ++ laterDebug as := by
    induction as generalizing a with
    | nil => simp [debugAll, laterDebug]
    | cons b as ih =>
      rw [debugAll, debugAll, List.intercalate_cons_cons, ← debugAll, List.append_assoc,
        List.append_assoc, ih, laterDebug]
  rw [bracketed, List.append_assoc, hitems]

/-- No item of a row starts with the bracket that closes it. -/
theorem close_ne_debug (a : Atom) (r r' : Text) : ascii "]" ++ r' ≠ a.debug ++ r := by
  intro h
  have hinitials := take_debug a r
  rw [← h] at hinitials
  cases a <;> cases hinitials

/-- The debug text of the slots of a closure. -/
def slotsDebug (slots : List Atom) : Text :=
  if slots.isEmpty then ascii "None" else bracketed (debugAll slots)

theorem debug_closure (slots code : List Atom) (i j : Tag) :
    (closure ⟨slots, code, i, j⟩).debug =
      ascii "Closure \x7b upvalues: " ++ slotsDebug slots ++ ascii ", code: " ++
        bracketed (debugAll code) ++ ascii " \x7d" := rfl

/-- Slots are told apart by what they hold, as other rows are. -/
theorem bracketed_of_slotsDebug {slots slots' : List Atom} {r r' : Text}
    (h : slotsDebug slots ++ r = slotsDebug slots' ++ r') :
    bracketed (debugAll slots) ++ r = bracketed (debugAll slots') ++ r' := by
  cases slots with
  | nil =>
    cases slots' with
    | nil => rw [List.append_cancel_left h]
    | cons => cases h
  | cons =>
    cases slots' with
    | nil => cases h
    | cons => exact h

/-! ## Fields -/

theorem quoted_injective : Function.Injective quoted := by
  intro s t h
  simpa [quoted] using h

theorem not_mem_quoted {c : Byte} {s : Text} (hc : c ≠ Byte.quote) (h : c ∉ s) : c ∉ quoted s := by
  change c ∉ [Byte.quote] ++ s ++ [Byte.quote]
  simp [hc, h]

theorem boolText_injective : Function.Injective boolText := by
  intro b b' h
  cases b <;> cases b' <;> first | rfl | exact absurd h (by decide)

theorem name_injective : Function.Injective EvalError.name := by
  intro e e' h
  cases e <;> cases e' <;> first | rfl | exact absurd h (by decide)

/-- A field without parentheses is known from what it is put in. -/
theorem field_inj {k u v r r' : Text} (hu : Byte.closeParen ∉ u) (hv : Byte.closeParen ∉ v)
    (h : k ++ u ++ ascii ")" ++ r = k ++ v ++ ascii ")" ++ r') : u = v ∧ r = r' := by
  simp only [List.append_assoc, List.append_cancel_left_eq] at h
  exact append_stop_inj hu hv h

/-! ## Reading debug text -/

mutual

/-- No NaN, no closing parenthesis in a name and no quote in a string, at any depth. -/
def unambiguous : Atom → Bool
  | symbol s => Byte.closeParen ∉ s
  | number x => !x.isNaN
  | string s => Byte.quote ∉ s
  | list items _ => unambiguousAll items
  | upvalue _ s => Byte.closeParen ∉ s
  | closure ⟨slots, code, _, _⟩ => unambiguousAll slots && unambiguousAll code
  | _ => true

def unambiguousAll : List Atom → Bool
  | [] => true
  | a :: as => unambiguous a && unambiguousAll as

end

mutual

/-- The debug text of an atom can be split off the front of a text in one way only, up to equality.
What follows it is arbitrary, which makes the induction go through inside rows. -/
theorem beq_of_debug_append (a b : Atom) (ha : a.unambiguous = true) (hb : b.unambiguous = true)
    {r r' : Text} (h : a.debug ++ r = b.debug ++ r') : a.beq b = true ∧ r = r' := by
  have hkind := sameKind_of_debug h
  cases a with
  | symbol s =>
    cases hkind with
    | @symbol _ t =>
      simp only [unambiguous, decide_eq_true_eq] at ha hb
      rw [debug, debug] at h
      obtain ⟨hst, rfl⟩ := field_inj (not_mem_quoted (by decide) ha)
        (not_mem_quoted (by decide) hb) h
      simp [beq, quoted_injective hst]
  | number x =>
    cases hkind with
    | @number _ y =>
      simp only [unambiguous, Bool.not_eq_true'] at ha hb
      rw [debug, debug] at h
      obtain ⟨hxy, rfl⟩ := field_inj (Binary32.closeParen_not_mem_toText ha)
        (Binary32.closeParen_not_mem_toText hb) h
      simp [beq, Binary32.beq_of_toText ha hb hxy]
  | string s =>
    cases hkind with
    | @string _ t =>
      simp only [unambiguous, decide_eq_true_eq] at ha hb
      simp only [debug, quoted, List.append_assoc, List.append_cancel_left_eq] at h
      obtain ⟨rfl, hr⟩ := append_stop_inj ha hb h
      simpa [beq] using hr
  | list as i =>
    cases hkind with
    | @list _ bs _ j =>
      rw [unambiguous] at ha hb
      rw [debug, debug, List.append_assoc, List.append_assoc, List.append_cancel_left_eq] at h
      exact beqRow_of_bracketed (i.same j) as bs ha hb h
  | bool b =>
    cases hkind with
    | @bool _ b' =>
      have hfield (b : Bool) : Byte.closeParen ∉ boolText b := by cases b <;> decide
      rw [debug, debug] at h
      obtain ⟨hbb, rfl⟩ := field_inj (hfield b) (hfield b') h
      simp [beq, boolText_injective hbb]
  | nil =>
    cases hkind with
    | nil => exact ⟨rfl, List.append_cancel_left h⟩
  | error e =>
    cases hkind with
    | @error _ e' =>
      have hfield (e : EvalError) : Byte.closeParen ∉ e.name := by cases e <;> decide
      rw [debug, debug] at h
      obtain ⟨hee, rfl⟩ := field_inj (hfield e) (hfield e') h
      simp [beq, name_injective hee]
  | upvalue i s =>
    cases hkind with
    | @upvalue _ j _ t =>
      simp only [unambiguous, decide_eq_true_eq] at ha hb
      have hfield (n : ℕ) {u : Text} (hu : Byte.closeParen ∉ u) :
          Byte.closeParen ∉ Text.ofNat n ++ (ascii ", " ++ quoted u) := by
        rw [List.mem_append, List.mem_append, not_or, not_or]
        exact ⟨Text.not_mem_ofNat rfl n, by decide, not_mem_quoted (by decide) hu⟩
      obtain ⟨hfields, rfl⟩ := field_inj (k := ascii "Upvalue(") (hfield i ha) (hfield j hb)
        (by simpa only [debug, List.append_assoc] using h)
      -- The index ends at the comma.
      obtain ⟨hij, hst⟩ := append_stop_inj (Text.not_mem_ofNat rfl i) (Text.not_mem_ofNat rfl j)
        hfields
      simp [beq, Text.ofNat_injective hij, quoted_injective (List.cons.inj hst).2]
  | closure c =>
    cases hkind with
    | @closure _ d =>
      obtain ⟨slots, code, i, k⟩ := c
      obtain ⟨slots', code', j, l⟩ := d
      rw [unambiguous, Bool.and_eq_true] at ha hb
      simp only [debug_closure, List.append_assoc, List.append_cancel_left_eq] at h
      obtain ⟨hslots, hcode⟩ := beqRow_of_bracketed (i.same j) slots slots' ha.1 hb.1
        (bracketed_of_slotsDebug h)
      rw [List.append_cancel_left_eq] at hcode
      obtain ⟨hcode, hr⟩ := beqRow_of_bracketed (k.same l) code code' ha.2 hb.2 hcode
      exact ⟨by simp [beq, hslots, hcode], List.append_cancel_left hr⟩
  | native f =>
    cases hkind with
    | native => exact ⟨rfl, List.append_cancel_left h⟩

theorem beqRow_of_bracketed (same : Bool) (as bs : List Atom) (has : unambiguousAll as = true)
    (hbs : unambiguousAll bs = true) {r r' : Text}
    (h : bracketed (debugAll as) ++ r = bracketed (debugAll bs) ++ r') :
    beqRow same as bs = true ∧ r = r' := by
  cases as with
  | nil =>
    cases bs with
    | nil => exact ⟨rfl, List.append_cancel_left h⟩
    | cons b bs =>
      simp only [bracketed_nil, bracketed_cons, List.append_assoc, List.append_cancel_left_eq] at h
      exact absurd h (close_ne_debug b _ _)
  | cons a as =>
    cases bs with
    | nil =>
      simp only [bracketed_nil, bracketed_cons, List.append_assoc, List.append_cancel_left_eq] at h
      exact absurd h.symm (close_ne_debug a _ _)
    | cons b bs =>
      rw [unambiguousAll, Bool.and_eq_true] at has hbs
      simp only [bracketed_cons, List.append_assoc, List.append_cancel_left_eq] at h
      obtain ⟨hab, hlater⟩ := beq_of_debug_append a b has.1 hbs.1 h
      obtain ⟨hrow, hr⟩ := beqRow_of_laterDebug same as bs has.2 hbs.2 hlater
      exact ⟨by simp [beqRow, hab, hrow], hr⟩

theorem beqRow_of_laterDebug (same : Bool) (as bs : List Atom) (has : unambiguousAll as = true)
    (hbs : unambiguousAll bs = true) {r r' : Text}
    (h : laterDebug as ++ r = laterDebug bs ++ r') : beqRow same as bs = true ∧ r = r' := by
  cases as with
  | nil =>
    cases bs with
    | nil => exact ⟨rfl, List.append_cancel_left h⟩
    | cons b bs => cases h
  | cons a as =>
    cases bs with
    | nil => cases h
    | cons b bs =>
      rw [unambiguousAll, Bool.and_eq_true] at has hbs
      simp only [laterDebug, List.append_assoc, List.append_cancel_left_eq] at h
      obtain ⟨hab, hlater⟩ := beq_of_debug_append a b has.1 hbs.1 h
      obtain ⟨hrow, hr⟩ := beqRow_of_laterDebug same as bs has.2 hbs.2 hlater
      exact ⟨by simp [beqRow, hab, hrow], hr⟩

end

/-! ## Equal atoms -/

theorem debug_of_sameNaN {a b : Atom} (h : sameNaN a b = true) : a.debug = b.debug := by
  rw [(sameNaN_iff.1 h).1]

mutual

/-- Equal atoms have the same debug text, even with a NaN in them. -/
theorem debug_of_beq (a b : Atom) (h : a.beq b = true) : a.debug = b.debug := by
  have hkind := sameKind_of_beq h
  cases a with
  | list as i =>
    cases hkind with
    | @list _ bs _ j =>
      rw [beq] at h
      rw [debug, debug, debugAll_of_beqRow (i.same j) as bs h]
  | closure c =>
    cases hkind with
    | @closure _ d =>
      obtain ⟨slots, code, i, k⟩ := c
      obtain ⟨slots', code', j, l⟩ := d
      rw [beq, Bool.and_eq_true] at h
      have hslots := debugAll_of_beqRow (i.same j) slots slots' h.1
      have hempty : slots.isEmpty = slots'.isEmpty := by
        rw [debugAll_eq_map, debugAll_eq_map] at hslots
        simpa using congrArg List.isEmpty hslots
      rw [debug_closure, debug_closure, slotsDebug, slotsDebug, hempty, hslots,
        debugAll_of_beqRow (k.same l) code code' h.2]
  | number x =>
    cases hkind with
    | number =>
      rw [beq] at h
      rw [debug, debug, Binary32.toText_of_beq h]
  | _ =>
    cases hkind
    simp_all [beq, debug]

theorem debugAll_of_beqRow (same : Bool) (as bs : List Atom) (h : beqRow same as bs = true) :
    debugAll as = debugAll bs := by
  cases as with
  | nil =>
    cases bs with
    | nil => rfl
    | cons => cases h
  | cons a as =>
    cases bs with
    | nil => cases h
    | cons b bs =>
      rw [beqRow, Bool.and_eq_true, Bool.or_eq_true, Bool.and_eq_true] at h
      have hitem : a.debug = b.debug := by
        rcases h.1 with hab | ⟨-, hab⟩
        · exact debug_of_beq a b hab
        · exact debug_of_sameNaN hab
      rw [debugAll, debugAll, hitem, debugAll_of_beqRow same as bs h.2]

end

/-! ## Atoms that were read -/

theorem unambiguousAll_of_items {t : Text} {as : List Atom} (h : Items t as) :
    unambiguousAll as = true := by
  induction h with
  | empty => rfl
  | space _ _ ih => exact ih
  | symbol hw _ _ ih =>
    have hname : Byte.closeParen ∉ _ := fun hmem => by cases hw.inSymbol hmem
    simp [unambiguousAll, unambiguous, hname, ih]
  | number _ hx _ _ ih => simp [unambiguousAll, unambiguous, hx.isNaN, ih]
  | string hu _ ih => simp [unambiguousAll, unambiguous, hu, ih]
  | list _ _ _ ihw ih => simp [unambiguousAll, unambiguous, ihw, ih]

/-- **Debug text tells atoms apart.** Where there is no NaN, no closing parenthesis in the name of a
symbol or an upvalue, and no quote in a string, at any depth of lists and closures, two atoms have
the same debug text if and only if they are equal. All atoms that are read from a text are such. -/
theorem debug_eq_iff :
    (∀ a b : Atom, a.unambiguous = true → b.unambiguous = true →
      (a.debug = b.debug ↔ (a == b) = true)) ∧
    ∀ (t : Text) (as : List Atom), read t = .ok as → unambiguousAll as = true := by
  refine ⟨fun a b ha hb => ⟨fun h => ?_, fun h => debug_of_beq a b h⟩, fun t as h => ?_⟩
  · have happend : a.debug ++ [] = b.debug ++ [] := by rw [h]
    exact (beq_of_debug_append a b ha hb happend).1
  · exact unambiguousAll_of_items (items_of_readFrom h)

/-- Closures with the largest 64-bit index in their code. Two of them differ in a sign of zero and
in a builtin only, and are equal; the third differs in the index. And a text with a quote in a
symbol and a parenthesis in a string. -/
theorem debug_eq_iff_closures :
    let c (zero : Binary32) (f : Builtin) (i : ℕ) : Atom := .closure ⟨[.symbol (ascii "x\""),
      .list [.number zero, .string (ascii "a)")] none],
      [.upvalue i (ascii "x\""), .native f, .error .notASymbol], none, none⟩
    let a := c ⟨0⟩ .sum 0xffffffffffffffff
    let b := c ⟨0x80000000⟩ .print 0xffffffffffffffff
    let d := c ⟨0⟩ .sum 0xfffffffffffffffe
    let as : List Atom := [.symbol (ascii "x\""), .string (ascii "a)")]
    (a.unambiguous = true ∧ b.unambiguous = true ∧ d.unambiguous = true) ∧
      (a.debug = b.debug ∧ (a == b) = true) ∧ (a.debug ≠ d.debug ∧ (a == d) = false) ∧
      read (ascii "x\" \"a)\"") = .ok as ∧ unambiguousAll as = true := by
  have hread : read (ascii "x\" \"a)\"") =
      .ok [.symbol (ascii "x\""), .string (ascii "a)")] := by with_unfolding_all rfl
  intro c a b d as
  have ha : a.unambiguous = true := by decide
  have hb : b.unambiguous = true := by decide
  have hd : d.unambiguous = true := by decide
  have hab : (a == b) = true := by decide
  have had : (a == d) = false := by decide
  refine ⟨⟨ha, hb, hd⟩, ⟨(debug_eq_iff.1 a b ha hb).2 hab, hab⟩, ⟨fun h => ?_, had⟩, hread,
    debug_eq_iff.2 _ as hread⟩
  rw [(debug_eq_iff.1 a d ha hd).1 h] at had
  cases had

end Atom

end SlotLisp
