import Mathlib.Data.List.Infix
import SlotLisp.Batch
import SlotLisp.Proofs.Numeral

/-!
# The spellings of options

An option is given by its letter or by its long name. Its value stands in the same argument or in
the next one.

**Theorem (`read_of_spelled`).** All spellings of an option are read alike, and what follows them on
the command line is read as if they were not there.

So letters can be joined (`read_joined`), and the batch program is given a text by `-e TEXT`,
`--eval TEXT` or `--eval=TEXT` (`commandLine_eval`).
-/

namespace SlotLisp

namespace CommandLine

variable {α : Type}

/-- The letter is that of the option. A dash is none, since two dashes begin a long name. -/
structure IsLetter (specs : List (OptionSpec α)) (spec : OptionSpec α) : Prop where
  ne_dash : spec.letter ≠ 45
  find : specs.find? (·.letter = spec.letter) = some spec

/-- The text is the long name of the option, or shortens it and no other one. -/
structure IsName (specs : List (OptionSpec α)) (spec : OptionSpec α) (name : Text) : Prop where
  ne_nil : name ≠ []
  no_equals : 61 ∉ name
  unambiguous :
    (spec ∈ specs ∧ spec.longName = name ∧ ∀ other ∈ specs, other.longName = name → other = spec) ∨
    ((∀ other ∈ specs, other.longName ≠ name) ∧
      specs.filter (fun other => name.isPrefixOf other.longName) = [spec])

/-- The arguments that give an option, with its value if it takes one. -/
inductive Spelled (specs : List (OptionSpec α)) (spec : OptionSpec α) : Text → List Text → Prop
  /-- As in `-d`. -/
  | letter (hletter : IsLetter specs spec) (hvalue : spec.takesValue = false) :
      Spelled specs spec [] [[45, spec.letter]]
  /-- As in `--debug`. -/
  | name {name : Text} (hname : IsName specs spec name) (hvalue : spec.takesValue = false) :
      Spelled specs spec [] [45 :: 45 :: name]
  /-- As in `-e1`. -/
  | letterValue {value : Text} (hletter : IsLetter specs spec) (hvalue : spec.takesValue = true)
      (hne : value ≠ []) : Spelled specs spec value [45 :: spec.letter :: value]
  /-- As in `-e 1`. -/
  | letterThenValue {value : Text} (hletter : IsLetter specs spec)
      (hvalue : spec.takesValue = true) : Spelled specs spec value [[45, spec.letter], value]
  /-- As in `--eval=1`. -/
  | nameValue {name value : Text} (hname : IsName specs spec name)
      (hvalue : spec.takesValue = true) :
      Spelled specs spec value [45 :: 45 :: (name ++ 61 :: value)]
  /-- As in `--eval 1`. -/
  | nameThenValue {name value : Text} (hname : IsName specs spec name)
      (hvalue : spec.takesValue = true) : Spelled specs spec value [45 :: 45 :: name, value]

variable {specs : List (OptionSpec α)} {spec : OptionSpec α} {name value : Text}

/-! ## Names and letters -/

theorem IsName.candidates_eq (h : IsName specs spec name) : candidates specs name = [spec] := by
  rcases h.unambiguous with ⟨hmem, hspec, honly⟩ | ⟨hnone, hfilter⟩
  · have hfind : (specs.find? (·.longName = name)).isSome := by
      rw [List.find?_isSome]
      exact ⟨spec, hmem, by simpa using hspec⟩
    obtain ⟨found, hfound⟩ := Option.isSome_iff_exists.1 hfind
    have hname : found.longName = name := by simpa using List.find?_some hfound
    rw [candidates, hfound, honly found (List.mem_of_find?_eq_some hfound) hname]
  · have hfind : specs.find? (·.longName = name) = none := by simpa using hnone
    rw [candidates, hfind]
    exact hfilter

theorem IsName.ne_equals (h : IsName specs spec name) : ∀ c ∈ name, (c != 61) = true := by
  intro c hc
  simpa using ne_of_mem_of_not_mem hc h.no_equals

theorem readName_of_isName (h : IsName specs spec name) :
    readName specs name =
      if spec.takesValue then ([], .value spec.meaning (.nameWithoutValue spec.longName))
      else ([(spec.meaning, [])], .nothing) := by
  have htake : name.takeWhile (· != 61) = name := List.takeWhile_eq_self_iff.2 h.ne_equals
  have hdrop : name.dropWhile (· != 61) = [] := List.dropWhile_eq_nil_iff.2 h.ne_equals
  rw [readName, htake, hdrop, h.candidates_eq]
  cases hvalue : spec.takesValue <;> simp [hvalue]

theorem readName_of_isName_value (h : IsName specs spec name) (hvalue : spec.takesValue = true) :
    readName specs (name ++ 61 :: value) = ([(spec.meaning, value)], .nothing) := by
  have hstop : ∀ c ∈ (61 :: value : Text).head?, (c != 61) = false := by simp
  rw [readName, takeWhile_append_stop h.ne_equals hstop,
    dropWhile_append_stop h.ne_equals hstop, h.candidates_eq]
  simp [hvalue]

/-! ## Arguments -/

theorem readFrom_name (hne : name ≠ []) (mixed : Bool) (args : List Text) :
    readFrom specs mixed .nothing ((45 :: 45 :: name) :: args) =
      addOptions (readName specs name).1
        (readFrom specs mixed (readName specs name).2 args) := by
  cases name with
  | nil => exact absurd rfl hne
  | cons c name => rfl

theorem readFrom_letters {c : Byte} (hc : c ≠ 45) (letters : Text) (mixed : Bool)
    (args : List Text) :
    readFrom specs mixed .nothing ((45 :: c :: letters) :: args) =
      addOptions (readLetters specs (c :: letters)).1
        (readFrom specs mixed (readLetters specs (c :: letters)).2 args) := by
  simp [readFrom, hc]

/-- **All spellings of an option are read alike.** -/
theorem read_of_spelled {words : List Text} (h : Spelled specs spec value words) (mixed : Bool)
    (args : List Text) :
    read specs mixed (words ++ args) =
      addOptions [(spec.meaning, value)] (read specs mixed args) := by
  unfold read
  cases h with
  | letter hletter hvalue =>
    rw [List.singleton_append, readFrom_letters hletter.ne_dash]
    simp [readLetters, hletter.find, hvalue]
  | name hname hvalue =>
    rw [List.singleton_append, readFrom_name hname.ne_nil, readName_of_isName hname]
    simp [hvalue]
  | letterValue hletter hvalue hne =>
    rw [List.singleton_append, readFrom_letters hletter.ne_dash]
    simp [readLetters, hletter.find, hvalue, hne]
  | letterThenValue hletter hvalue =>
    rw [List.cons_append, readFrom_letters hletter.ne_dash]
    simp [readLetters, hletter.find, hvalue, readFrom, addOptions]
  | nameValue hname hvalue =>
    rw [List.singleton_append, readFrom_name (by simp), readName_of_isName_value hname hvalue]
  | nameThenValue hname hvalue =>
    rw [List.cons_append, readFrom_name hname.ne_nil, readName_of_isName hname]
    simp [hvalue, readFrom, addOptions]

/-- Letters of options without values can be joined. -/
theorem read_joined (hletter : IsLetter specs spec) (hvalue : spec.takesValue = false) {c : Byte}
    (hc : c ≠ 45) (letters : Text) (mixed : Bool) (args : List Text) :
    read specs mixed ((45 :: spec.letter :: c :: letters) :: args) =
      read specs mixed ([45, spec.letter] :: (45 :: c :: letters) :: args) := by
  have hfirst := read_of_spelled (.letter hletter hvalue) mixed ((45 :: c :: letters) :: args)
  rw [List.singleton_append] at hfirst
  rw [hfirst, read, read, readFrom_letters hletter.ne_dash, readFrom_letters hc]
  simp [readLetters, hletter.find, hvalue, addOptions]

end CommandLine

/-! ## Texts for the batch program -/

namespace Batch

open CommandLine

theorem commandLine_of_spelled {spec : OptionSpec Flag} {value : Text} {words : List Text}
    (hwords : Spelled flags spec value words) (hnul : ∀ w ∈ words, 0 ∉ w) (h : Host)
    (args : List Text) :
    commandLine h (words ++ args) = addOptions [(spec.meaning, value)] (commandLine h args) := by
  have hmap : words.map Text.upToNul = words := by
    have hid : ∀ w ∈ words, w.upToNul = id w := by
      intro w hw
      refine List.takeWhile_eq_self_iff.2 fun c hc => ?_
      simpa using ne_of_mem_of_not_mem hc (hnul w hw)
    rw [List.map_congr_left hid, List.map_id]
  rw [commandLine, List.map_append, hmap, read_of_spelled hwords]
  rfl

theorem isLetter_flags {spec : OptionSpec Flag} (hspec : spec ∈ flags) : IsLetter flags spec := by
  have hall : ∀ spec ∈ flags, spec.letter ≠ 45 ∧
      flags.find? (·.letter = spec.letter) = some spec := by decide
  exact ⟨(hall spec hspec).1, (hall spec hspec).2⟩

/-- No two options begin alike, so that every shortening of a name is unambiguous. -/
theorem isName_flags {spec : OptionSpec Flag} (hspec : spec ∈ flags) {name : Text}
    (hne : name ≠ []) (hname : name <+: spec.longName) : IsName flags spec name := by
  have hall : ∀ spec ∈ flags, ∀ name ∈ spec.longName.inits, name ≠ [] →
      61 ∉ name ∧
      ((spec.longName = name ∧ ∀ other ∈ flags, other.longName = name → other = spec) ∨
        ((∀ other ∈ flags, other.longName ≠ name) ∧
          flags.filter (fun other => name.isPrefixOf other.longName) = [spec])) := by
    decide +kernel
  obtain ⟨hequals, hexact | hshort⟩ := hall spec hspec name ((List.mem_inits _ _).2 hname) hne
  · exact ⟨hne, hequals, .inl ⟨hspec, hexact⟩⟩
  · exact ⟨hne, hequals, .inr hshort⟩

/-- A text is given to the program by a letter, by a name or by a shortened name. -/
theorem commandLine_eval {name t : Text} (hne : name ≠ []) (hname : name <+: ascii "eval")
    (ht : 0 ∉ t) {words : List Text}
    (hwords : words ∈ [[ascii "-e", t], [ascii "--" ++ name, t],
      [ascii "--" ++ name ++ ascii "=" ++ t]])
    (h : Host) (args : List Text) :
    commandLine h (words ++ args) = addOptions [(.eval, t)] (commandLine h args) := by
  have hspec : (⟨101, ascii "eval", true, .eval⟩ : OptionSpec Flag) ∈ flags := by decide
  have hlong := isName_flags hspec hne hname
  have hnul : 0 ∉ name := fun hzero => absurd (hname.subset hzero) (by decide)
  simp only [List.mem_cons, List.not_mem_nil, or_false] at hwords
  rcases hwords with rfl | rfl | rfl
  · exact commandLine_of_spelled (.letterThenValue (isLetter_flags hspec) rfl)
      (by simp [ht]) h args
  · exact commandLine_of_spelled (.nameThenValue hlong rfl) (by simp [hnul, ht]) h args
  · rw [List.append_assoc]
    exact commandLine_of_spelled (.nameValue hlong rfl) (by simp [hnul, ht]) h args

end Batch

end SlotLisp
