import SlotLisp.Proofs.Numeral
import SlotLisp.Proofs.SourceIsolation

/-!
# Which texts set the limit

The limit on nested evaluations can be given in the environment or by an option of the batch
program. Both are meant for positive numbers. A text that is none leaves the standard limit, or ends
the program with status one.

**Theorem (`takenAsWritten_iff`).** A text sets the limit to the positive number that it writes, and
all other texts are refused, with two exceptions. A negative number is taken modulo `2 ^ 64`, so
that `-1` gives the largest limit there is. And numbers from `2 ^ 64` on are taken for the largest
limit.

Texts are judged by how integers are spelled (`Written`). Reading finds the spelling of a text if it
has one (`written_iff`), and the sign and the size only come in when the word is made of it.
-/

namespace SlotLisp.DepthLimit

/-! ## Spelled integers -/

/-- At least one digit, and nothing else. -/
structure IsDigits (digits : Text) : Prop where
  ne_nil : digits ≠ []
  isDigit : ∀ c ∈ digits, Byte.isDigit c = true

/-- How a sign is written. A plus sign can be left out. -/
def signTexts : Bool → List Text
  | false => [[], [43]]
  | true => [[45]]

/-- An integer as it is written: white space, a sign and digits. The number is the absolute value,
and the flag tells whether the sign is a minus. -/
inductive Written (negative : Bool) : ℕ → Text → Prop
  | intro {blanks sign digits : Text} (hblanks : ∀ c ∈ blanks, Byte.isSpace c = true)
      (hsign : sign ∈ signTexts negative) (hdigits : IsDigits digits) :
      Written negative (Text.digitsValue digits) (blanks ++ (sign ++ digits))

variable {t : Text} {negative : Bool} {v n : ℕ}

theorem isDigits_iff {digits : Text} :
    (!digits.isEmpty && digits.all Byte.isDigit) = true ↔ IsDigits digits := by
  rw [Bool.and_eq_true, List.all_eq_true]
  constructor
  · intro h
    exact ⟨by simpa using h.1, h.2⟩
  · intro h
    exact ⟨by simpa using h.ne_nil, h.isDigit⟩

theorem not_isSpace_of_isDigit {c : Byte} (h : Byte.isDigit c = true) : Byte.isSpace c = false := by
  simp only [Byte.isDigit, Byte.isSpace, Bool.and_eq_true, decide_eq_true_eq, Bool.or_eq_false_iff,
    Bool.and_eq_false_iff, decide_eq_false_iff_not] at h ⊢
  omega

/-- Neither a sign nor a digit is white space. -/
theorem not_isSpace_head {sign digits : Text} (hsign : sign ∈ signTexts negative)
    (hdigits : IsDigits digits) : ∀ c ∈ (sign ++ digits).head?, Byte.isSpace c = false := by
  intro c hc
  have hdigit (hc : c ∈ digits.head?) : Byte.isSpace c = false :=
    not_isSpace_of_isDigit (hdigits.isDigit c (List.mem_of_mem_head? hc))
  cases negative with
  | false =>
    rcases List.mem_pair.1 hsign with rfl | rfl
    · exact hdigit hc
    · cases hc
      decide
  | true =>
    cases List.mem_singleton.1 hsign
    cases hc
    decide

theorem splitSign_written {sign digits : Text} (hsign : sign ∈ signTexts negative)
    (hdigits : IsDigits digits) : Text.splitSign (sign ++ digits) = (negative, digits) := by
  cases negative with
  | false =>
    rcases List.mem_pair.1 hsign with rfl | rfl
    · exact splitSign_run fun c hc => .inl (hdigits.isDigit c hc)
    · rfl
  | true =>
    cases List.mem_singleton.1 hsign
    rfl

/-- A text is a spelled integer if digits remain without the white space and the sign. -/
theorem written_iff :
    Written negative v t ↔
      ∃ digits, Text.splitSign (t.dropWhile Byte.isSpace) = (negative, digits) ∧
        IsDigits digits ∧ Text.digitsValue digits = v := by
  constructor
  · intro h
    cases h with
    | @intro blanks sign digits hblanks hsign hdigits =>
      rw [dropWhile_append_stop hblanks (not_isSpace_head hsign hdigits)]
      exact ⟨digits, splitSign_written hsign hdigits, hdigits, rfl⟩
  · intro h
    obtain ⟨digits, hsplit, hdigits, rfl⟩ := h
    have hblanks : ∀ c ∈ t.takeWhile Byte.isSpace, Byte.isSpace c = true :=
      fun c hc => List.mem_takeWhile_imp hc
    have hsign : ∃ sign ∈ signTexts negative, t.dropWhile Byte.isSpace = sign ++ digits := by
      unfold Text.splitSign at hsplit
      split at hsplit
      · next heq =>
        cases hsplit
        exact ⟨[43], by decide, heq⟩
      · next heq =>
        cases hsplit
        exact ⟨[45], by decide, heq⟩
      · cases hsplit
        exact ⟨[], by decide, rfl⟩
    obtain ⟨sign, hsign, hrest⟩ := hsign
    rw [← t.takeWhile_append_dropWhile (p := Byte.isSpace), hrest]
    exact .intro hblanks hsign hdigits

/-- There is no zero byte in a spelled integer, so it is not cut short. -/
theorem Written.upToNul (h : Written negative v t) : t.upToNul = t := by
  have hsigns : ∀ sign ∈ signTexts negative, (0 : Byte) ∉ sign := by
    cases negative <;> simp [signTexts]
  rw [Text.upToNul, List.takeWhile_eq_self_iff]
  intro c hc
  rw [decide_eq_true_eq]
  rintro rfl
  cases h with
  | intro hblanks hsign hdigits =>
    rw [List.mem_append, List.mem_append] at hc
    rcases hc with hc | hc | hc
    · cases hblanks 0 hc
    · exact hsigns _ hsign hc
    · cases hdigits.isDigit 0 hc

theorem Written.ne_nil (h : Written negative v t) : t ≠ [] := by
  cases h with
  | intro _ _ hdigits => simp [hdigits.ne_nil]

/-- A text spells at most one integer. -/
theorem Written.unique {negative' : Bool} {v' : ℕ} (h : Written negative v t)
    (h' : Written negative' v' t) : negative' = negative ∧ v' = v := by
  obtain ⟨digits, hsplit, -, rfl⟩ := written_iff.1 h
  obtain ⟨digits', hsplit', -, rfl⟩ := written_iff.1 h'
  rw [hsplit, Prod.mk.injEq] at hsplit'
  obtain ⟨rfl, rfl⟩ := hsplit'
  exact ⟨rfl, rfl⟩

/-! ## Reading a limit -/

theorem word_pos_iff : 0 < word negative v ↔ 0 < v := by
  unfold word wordSize
  split_ifs with hlarge hminus <;> omega

/-- A limit is read from every spelled integer other than zero. -/
theorem read?_eq_some_iff_written :
    read? t = some n ↔ ∃ negative v, Written negative v t ∧ 0 < v ∧ word negative v = n := by
  rcases hsplit : Text.splitSign (t.dropWhile Byte.isSpace) with ⟨negative, digits⟩
  simp only [read?, hsplit, Option.ite_none_right_eq_some, Option.some.injEq]
  rw [Bool.and_eq_true, decide_eq_true_eq, isDigits_iff, word_pos_iff]
  constructor
  · intro h
    obtain ⟨⟨hdigits, hpos⟩, hn⟩ := h
    exact ⟨negative, _, written_iff.2 ⟨digits, hsplit, hdigits, rfl⟩, hpos, hn⟩
  · intro h
    obtain ⟨negative', v, hwritten, hpos, hn⟩ := h
    obtain ⟨digits', hsplit', hdigits, rfl⟩ := written_iff.1 hwritten
    rw [hsplit, Prod.mk.injEq] at hsplit'
    obtain ⟨rfl, rfl⟩ := hsplit'
    exact ⟨⟨hdigits, hpos⟩, hn⟩

/-! ## Taking a limit -/

/-- The text sets the limit to `n`, in the environment and in an option of the batch program. The
options before it have led to some settings, and those after it find the limit changed. -/
structure Gives (t : Text) (n : ℕ) : Prop where
  environment : ∀ h : Host, h.lookup? "NLISP_MAX_DEPTH" = some t → ofHost h = (n, [])
  option : ∀ (h : Host) (s s' : Batch.Settings) (before after : List (Batch.Flag × Text)),
    Batch.applyOptions h s before = .ok s' →
      Batch.applyOptions h s (before ++ (.maxDepth, t) :: after) =
        Batch.applyOptions h { s' with limit := n } after

/-- The text is no limit. In the environment it leaves the standard limit, with a warning unless it
is empty. As an option of the batch program, if those before it are accepted, it ends the program
with status one. -/
structure Refused (t : Text) : Prop where
  environment : ∀ h : Host, h.lookup? "NLISP_MAX_DEPTH" = some t →
    ofHost h = (standard, if t.isEmpty then [] else [warning t])
  option : ∀ (h : Host) (level : LogLevel) (args : List Text) (openFile : Text → Option Text)
    (input : Text) (s : Batch.Settings) (before after : List (Batch.Flag × Text)),
    (Batch.commandLine h args).options = before ++ (.maxDepth, t) :: after →
      Batch.applyOptions h (.start h level) before = .ok s →
        (∃ stop, Batch.plan h (.start h level) args = .error stop) ∧
          (Batch.run h level args openFile input).2 = 1

theorem gives_of_read? (hread : read? t = some n) : Gives t n where
  environment h hlookup := by
    have hne : t.isEmpty = false := by
      cases t with
      | nil => cases hread
      | cons c t => rfl
    rw [ofHost, hlookup]
    simp only [hne, hread, Bool.false_eq_true, if_false]
  option h s s' before after hbefore := by
    rw [Batch.applyOptions_append, hbefore]
    simp only [Except.bind, Batch.applyOptions, hread]

theorem refused_of_read? (hread : read? t = none) : Refused t where
  environment h hlookup := by
    rw [ofHost, hlookup]
    cases t with
    | nil => rfl
    | cons c t => simp only [hread, List.isEmpty_cons, Bool.false_eq_true, if_false]
  option h level args openFile input s before after hoptions hbefore := by
    have hstop : ∃ stop, Batch.plan h (.start h level) args = .error stop ∧ stop.status = 1 := by
      have happly : ∃ stop, Batch.applyOptions h (.start h level)
          (Batch.commandLine h args).options = .error stop ∧ stop.status = 1 := by
        rw [hoptions, Batch.applyOptions_append, hbefore]
        simp only [Except.bind, Batch.applyOptions, hread]
        exact ⟨_, rfl, rfl⟩
      obtain ⟨stop, happly, hstatus⟩ := happly
      refine ⟨stop, ?_, hstatus⟩
      rw [Batch.plan, happly]
      rfl
    obtain ⟨stop, hplan, hstatus⟩ := hstop
    refine ⟨⟨stop, hplan⟩, ?_⟩
    simp only [Batch.run, hplan, hstatus]

/-! ## Limits as they are written -/

/-- A positive number that a limit can be, written without a sign or with a plus sign. -/
def IsPositive (t : Text) (n : ℕ) : Prop := Written false n t ∧ 0 < n ∧ n < 2 ^ 64

/-- The text is taken as it is written: a positive number sets the limit to this number, and
anything else is refused. -/
structure TakenAsWritten (t : Text) : Prop where
  gives : ∀ n, IsPositive t n → Gives t n
  refused : (∀ n, ¬IsPositive t n) → Refused t

/-- No spelled integer is both taken and refused, since only what is refused is warned of. -/
theorem Gives.not_refused (h : Gives t n) (hwritten : Written negative v t) : ¬Refused t := by
  intro hrefused
  have hlookup : ({ environment := [(ascii "NLISP_MAX_DEPTH", t)] } : Host).lookup?
      "NLISP_MAX_DEPTH" = some t := by
    rw [Host.lookup?, List.lookup_cons_self, Option.map_some, hwritten.upToNul]
  have heq := (h.environment _ hlookup).symm.trans (hrefused.environment _ hlookup)
  rw [Prod.mk.injEq, if_neg (by simpa using hwritten.ne_nil)] at heq
  cases heq.2

theorem gives_word (h : Written negative v t) (hpos : 0 < v) : Gives t (word negative v) :=
  gives_of_read? (read?_eq_some_iff_written.2 ⟨negative, v, h, hpos, rfl⟩)

theorem word_of_le (negative : Bool) (h : 2 ^ 64 ≤ v) : word negative v = 2 ^ 64 - 1 := if_pos h

theorem word_of_lt (h : v < 2 ^ 64) : word false v = v := if_neg (Nat.not_le.2 h)

theorem word_true (hpos : 0 < v) (h : v < 2 ^ 64) : word true v = 2 ^ 64 - v := by
  have hlt : ¬wordSize ≤ v := Nat.not_le.2 h
  rw [word, if_neg hlt, if_pos rfl]
  exact Nat.mod_eq_of_lt (Nat.sub_lt (by decide) hpos)

/-- **Which texts are taken as they are written.** They are all but the negative numbers and the
numbers from `2 ^ 64` on. Of a negative number greater than `-2 ^ 64` the limit is the remainder
modulo `2 ^ 64`, and otherwise it is `2 ^ 64 - 1`. -/
theorem takenAsWritten_iff (t : Text) :
    (TakenAsWritten t ↔
      ∀ negative v, Written negative v t → 0 < v → negative = false ∧ v < 2 ^ 64) ∧
    (∀ v, Written true v t → 0 < v → v < 2 ^ 64 → Gives t (2 ^ 64 - v)) ∧
    ∀ negative v, Written negative v t → 2 ^ 64 ≤ v → Gives t (2 ^ 64 - 1) := by
  refine ⟨⟨?_, ?_⟩, ?_, ?_⟩
  · intro h negative v hwritten hpos
    by_contra hnot
    refine (gives_word hwritten hpos).not_refused hwritten (h.refused ?_)
    intro n hn
    obtain ⟨rfl, rfl⟩ := hwritten.unique hn.1
    exact hnot ⟨rfl, hn.2.2⟩
  · intro h
    refine ⟨?_, ?_⟩
    · intro n hn
      obtain ⟨hwritten, hpos, hlt⟩ := hn
      have hgives := gives_word hwritten hpos
      rwa [word_of_lt hlt] at hgives
    · intro hnone
      refine refused_of_read? ?_
      rw [Option.eq_none_iff_forall_ne_some]
      intro n hread
      obtain ⟨negative, v, hwritten, hpos, -⟩ := read?_eq_some_iff_written.1 hread
      obtain ⟨rfl, hlt⟩ := h negative v hwritten hpos
      exact hnone v ⟨hwritten, hpos, hlt⟩
  · intro v hwritten hpos hlt
    rw [← word_true hpos hlt]
    exact gives_word hwritten hpos
  · intro negative v hwritten hle
    rw [← word_of_le negative hle]
    exact gives_word hwritten (lt_of_lt_of_le (by decide) hle)

/-- The text `-1` is no positive number, and yet it sets the largest limit, in the environment and
as an option. -/
theorem takenAsWritten_minus_one :
    let t := ascii "-1"
    let h : Host := { environment := [(ascii "NLISP_MAX_DEPTH", t)] }
    let settings : Batch.Settings := ⟨.notice, 2 ^ 64 - 1, []⟩
    ¬TakenAsWritten t ∧ (∀ n, ¬IsPositive t n) ∧ ofHost h = (2 ^ 64 - 1, []) ∧
      Batch.plan {} (.start {} .notice) [ascii "-m", t] = .ok ⟨settings, []⟩ := by
  intro t h settings
  have hsplit : Text.splitSign (t.dropWhile Byte.isSpace) = (true, [49]) := rfl
  have hnone : ∀ n, ¬IsPositive t n := by
    intro n hn
    obtain ⟨digits, hsplit', -⟩ := written_iff.1 hn.1
    rw [hsplit] at hsplit'
    cases hsplit'
  have htaken : ofHost h = (2 ^ 64 - 1, []) := rfl
  refine ⟨?_, hnone, htaken, rfl⟩
  intro hwritten
  have hkept := (hwritten.refused hnone).environment h rfl
  rw [htaken] at hkept
  cases hkept

end SlotLisp.DepthLimit
