import SlotLisp.Atom
import SlotLisp.Decimal

/-!
# Reading atoms

`read` turns a text into the atoms written in it.

Symbols and numbers end at white space or at the end of the text; strings and lists end at their
closing delimiter, and anything may follow it. The extent of a list is found first, by counting
parentheses outside quotes, and what stands between is then read as a text of its own. So within a
list a quote hides parentheses even where it belongs to a symbol.
-/

namespace SlotLisp

/-!
## Why a text cannot be read

Positions count bytes from the start of the whole text, also for errors inside nested lists.
-/

inductive ReadError where
  /-- A byte that cannot stand where it does. -/
  | invalidCharacter (byte : Byte) (position : Nat)
  /-- A run of digits and points that is no numeral. The position is that of its end. -/
  | badNumber (token : Text) (position : Nat)
  /-- A string without its closing quote. -/
  | unterminatedString (start : Nat)
  /-- A list without its closing parenthesis. -/
  | unterminatedList (start : Nat)
deriving DecidableEq, Repr

namespace ReadError

def kindName : ReadError → Text
  | invalidCharacter _ _ => ascii "InvalidCharacter"
  | badNumber _ _ => ascii "NumberError"
  | unterminatedString _ => ascii "IncompleteString"
  | unterminatedList _ => ascii "IncompleteList"

def position : ReadError → Nat
  | invalidCharacter _ p => p
  | badNumber _ p => p
  | unterminatedString p => p
  | unterminatedList p => p

/-- What is known beyond kind and position. -/
def detail : ReadError → Text
  | badNumber token _ => ascii "invalid float literal '" ++ token ++ ascii "'"
  | _ => []

/-- The message for the user. -/
def message (e : ReadError) : Text :=
  let text := match e with
    | invalidCharacter _ _ => ascii "invalid character at position "
    | badNumber _ _ => e.detail ++ ascii " at position "
    | unterminatedString _ => ascii "unterminated string starting at position "
    | unterminatedList _ => ascii "unterminated list starting at position "
  text ++ Text.ofNat e.position

/-- The message for the debug log. -/
def diagnostic : ReadError → Text
  | invalidCharacter c p =>
    ascii "parse: invalid character '" ++ c :: ascii "' at " ++ Text.ofNat p
  | badNumber token p => ascii "parse: bad number '" ++ token ++ ascii "' at " ++ Text.ofNat p
  | unterminatedString p => ascii "parse: unterminated string starting at " ++ Text.ofNat p
  | unterminatedList p => ascii "parse: unterminated list starting at " ++ Text.ofNat p

end ReadError

namespace Reader

/-- Where a scan stands inside a list: how many inner lists are open, and whether parentheses are
hidden by a quote. -/
structure Nesting where
  depth : Nat := 0
  quoted : Bool := false
deriving DecidableEq, Repr

/-- Whether a byte closes the list that is being scanned. -/
def Nesting.closes (n : Nesting) (c : Byte) : Bool :=
  !n.quoted && n.depth = 0 && c = Byte.closeParen

def Nesting.step (n : Nesting) (c : Byte) : Nesting :=
  if c = Byte.quote then { n with quoted := !n.quoted }
  else if n.quoted then n
  else if c = Byte.openParen then { n with depth := n.depth + 1 }
  else if c = Byte.closeParen then { n with depth := n.depth - 1 }
  else n

/-- Splits a text inside a list at the parenthesis that closes the list: what stands before it and
what comes after it. -/
def splitList? (n : Nesting) : Text → Option (Text × Text)
  | [] => none
  | c :: r =>
    if n.closes c then some ([], r)
    else (splitList? (n.step c) r).map fun p => (c :: p.1, p.2)

theorem splitList?_eq_some {n : Nesting} {t inside rest : Text}
    (h : splitList? n t = some (inside, rest)) : t = inside ++ Byte.closeParen :: rest := by
  induction t generalizing n inside with
  | nil => simp [splitList?] at h
  | cons c r ih =>
    rw [splitList?] at h
    split at h
    · next hc => simp_all [Nesting.closes]
    · simp only [Option.map_eq_some_iff, Prod.mk.injEq] at h
      obtain ⟨p, hp, rfl, rfl⟩ := h
      simp [ih hp]

theorem length_of_splitList? {n : Nesting} {t inside rest : Text}
    (h : splitList? n t = some (inside, rest)) :
    t.length = inside.length + (rest.length + 1) := by
  rw [splitList?_eq_some h, List.length_append, List.length_cons]

/-- A symbol or number must be followed by white space or nothing. -/
def checkEnd (position : Nat) : Text → Except ReadError Unit
  | [] => .ok ()
  | c :: _ => if Byte.isSpace c then .ok () else .error (.invalidCharacter c position)

/-- The number that a run of digits and points ending at a position stands for. -/
def readNumber (token : Text) (position : Nat) : Except ReadError Atom :=
  match Binary32.read? token with
  | some x => .ok (.number x)
  | none => .error (.badNumber token position)

/-- Reads the atoms of a text that starts at a position of the whole text. -/
def readFrom (position : Nat) (t : Text) : Except ReadError (List Atom) :=
  match t with
  | [] => .ok []
  | c :: r =>
    if Byte.startsSymbol c then do
      let token := c :: r.takeWhile Byte.inSymbol
      let rest := r.dropWhile Byte.inSymbol
      checkEnd (position + token.length) rest
      let later ← readFrom (position + token.length) rest
      return .symbol token :: later
    else if Byte.inNumber c then do
      let token := c :: r.takeWhile Byte.inNumber
      let rest := r.dropWhile Byte.inNumber
      checkEnd (position + token.length) rest
      let number ← readNumber token (position + token.length)
      let later ← readFrom (position + token.length) rest
      return number :: later
    else if c = Byte.openParen then
      match h : splitList? {} r with
      | none => .error (.unterminatedList position)
      | some (inside, rest) => do
        let items ← readFrom (position + 1) inside
        let later ← readFrom (position + inside.length + 2) rest
        return .list items none :: later
    else if c = Byte.quote then
      match h : r.dropWhile (· != Byte.quote) with
      | [] => .error (.unterminatedString position)
      | _ :: rest => do
        let content := r.takeWhile (· != Byte.quote)
        let later ← readFrom (position + content.length + 2) rest
        return .string content :: later
    else if Byte.isSpace c then readFrom (position + 1) r
    else .error (.invalidCharacter c position)
termination_by t.length
decreasing_by
  · exact Nat.lt_succ_of_le (r.dropWhile_sublist _).length_le
  · exact Nat.lt_succ_of_le (r.dropWhile_sublist _).length_le
  · have := length_of_splitList? h
    simp only [List.length_cons]
    omega
  · have := length_of_splitList? h
    simp only [List.length_cons]
    omega
  · have := (r.dropWhile_sublist (· != Byte.quote)).length_le
    rw [h] at this
    exact Nat.lt_succ_of_lt this
  · exact Nat.lt_succ_self _

end Reader

/-- Reads the atoms of a text. -/
def read (t : Text) : Except ReadError (List Atom) := Reader.readFrom 0 t

end SlotLisp
