/-!
# Byte texts

Source texts, names and everything written are sequences of bytes. A text need not be valid in any
encoding, and it may hold zero bytes.
-/

namespace SlotLisp

abbrev Byte := UInt8

abbrev Text := List Byte

/-- The bytes of a string of ASCII characters. -/
def ascii (s : String) : Text := s.toList.map Char.toUInt8

namespace Text

/-- The part before the first zero byte: all that a zero-terminated text shows. -/
def upToNul (t : Text) : Text := t.takeWhile (· ≠ 0)

/-- The decimal numeral of a number, without leading zeros. -/
def ofNat (n : Nat) : Text := (Nat.toDigits 10 n).map Char.toUInt8

def ofInt : Int → Text
  | .ofNat n => ofNat n
  | .negSucc n => ascii "-" ++ ofNat (n + 1)

/-- The value of a run of digits, read from the left. -/
def digitsValue (t : Text) : Nat := t.foldl (fun n c => 10 * n + (c.toNat - 48)) 0

theorem toNat_toUInt8 {c : Char} (h : c.isDigit) : c.toUInt8.toNat = c.toNat := by
  have hc : 48 ≤ c.toNat ∧ c.toNat ≤ 57 := Char.isDigit_iff_toNat.1 h
  have he : c.toUInt8.toNat = c.toNat % 256 := rfl
  omega

theorem foldl_digits {l : List Char} (h : ∀ c ∈ l, c.isDigit) (n : Nat) :
    (l.map Char.toUInt8).foldl (fun n c => 10 * n + (c.toNat - 48)) n =
      Nat.ofDigitChars 10 l n := by
  induction l generalizing n with
  | nil => rfl
  | cons c l ih =>
    rw [List.map_cons, List.foldl_cons, Nat.ofDigitChars_cons,
      toNat_toUInt8 (h c List.mem_cons_self), ih fun d hd => h d (List.mem_cons_of_mem c hd)]
    rfl

/-- A numeral reads back as the number. -/
@[simp] theorem digitsValue_ofNat (n : Nat) : digitsValue (ofNat n) = n := by
  rw [digitsValue, ofNat,
    foldl_digits fun c hc => Nat.isDigit_of_mem_toDigits (by decide) (by decide) hc,
    Nat.ofDigitChars_toDigits (by decide) (by decide)]

/-- Splits an optional sign off a numeral: whether it is a minus, and what follows. -/
def splitSign : Text → Bool × Text
  | 43 :: r => (false, r)
  | 45 :: r => (true, r)
  | t => (false, t)

/-- The lines of a text. A newline ends a line, so nothing follows the last one. -/
def lines : Text → List Text
  | [] => []
  | c :: r =>
    if c = 10 then [] :: lines r
    else match lines r with
      | [] => [[c]]
      | l :: ls => (c :: l) :: ls

/-- Whether `t` contains `part` as a contiguous piece. -/
def contains (part : Text) : Text → Bool
  | [] => part.isEmpty
  | c :: r => part.isPrefixOf (c :: r) || contains part r

/-- Fills up with blanks on the left to a width. -/
def padLeft (width : Nat) (t : Text) : Text := List.replicate (width - t.length) 32 ++ t

end Text

/-!
## Classes of bytes

The reader tells bytes apart by these classes. Those up to `0x7f` are classified as ASCII
characters. Bytes from `0x80` on count as letters, so names in any multi-byte encoding are accepted.
-/

namespace Byte

abbrev quote : Byte := 34

abbrev openParen : Byte := 40

abbrev closeParen : Byte := 41

abbrev point : Byte := 46

def isDigit (c : Byte) : Bool := 48 ≤ c.toNat && c.toNat ≤ 57

/-- Blank, tab, newline, vertical tab, form feed and carriage return. -/
def isSpace (c : Byte) : Bool := c.toNat = 32 || (9 ≤ c.toNat && c.toNat ≤ 13)

def isLetter (c : Byte) : Bool :=
  (65 ≤ c.toNat && c.toNat ≤ 90) || (97 ≤ c.toNat && c.toNat ≤ 122) || 128 ≤ c.toNat

/-- The visible ASCII characters that are neither letters nor digits. -/
def isPunctuation (c : Byte) : Bool :=
  (33 ≤ c.toNat && c.toNat ≤ 47) || (58 ≤ c.toNat && c.toNat ≤ 64) ||
    (91 ≤ c.toNat && c.toNat ≤ 96) || (123 ≤ c.toNat && c.toNat ≤ 126)

/-- The bytes that a symbol consists of: all visible ones except the parentheses. -/
def inSymbol (c : Byte) : Bool :=
  isLetter c || isDigit c || (isPunctuation c && c != openParen && c != closeParen)

/-- The bytes that open a symbol. A digit or a point opens a number instead, a quote a string. -/
def startsSymbol (c : Byte) : Bool := inSymbol c && !isDigit c && c != point && c != quote

/-- The bytes that a number consists of. -/
def inNumber (c : Byte) : Bool := isDigit c || c = point

end Byte

end SlotLisp
