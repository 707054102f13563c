import SlotLisp.Atom
import SlotLisp.Decimal

/-!
# How numbers and atoms are written
-/

namespace SlotLisp

/-!
## The text of a number

Whole numbers below `10 ^ 15` are written out in full, and both zeros as `0`. Any other finite
number is written with the fewest significant digits, from six on, that read back as the same
number. Nine digits always suffice.
-/

namespace Binary32

/-- The number nearest to `10 ^ 15`. Whole numbers from here on are written like fractions. -/
def plainLimit : Binary32 := ⟨0x58635fa9⟩

def isWhole (x : Binary32) : Bool := x.isFinite && x.units % unitsPerOne = 0

def signText (x : Binary32) : Text := if x.isNegative then ascii "-" else []

/-- The general notation of a finite nonzero number with `p` significant digits. -/
def generalText (p : Nat) (x : Binary32) : Text := (x.significant p).general p

/-- Whether a text reads back as `x`. -/
def readsBack (x : Binary32) (t : Text) : Bool :=
  match read? t with
  | some y => y == x
  | none => false

def toText (x : Binary32) : Text :=
  if x.isZero then ascii "0"
  else if x.isNaN then x.signText ++ ascii "nan"
  else if x.isInfinite then x.signText ++ ascii "inf"
  else if x.isWhole && x.magnitude < plainLimit.magnitude then
    x.signText ++ Text.ofNat (x.units / unitsPerOne)
  else
    (([6, 7, 8].map (generalText · x)).find? x.readsBack).getD (generalText 9 x)

end Binary32

/-!
## The two notations of atoms

Value notation shows a result as it would be typed where that is possible. Debug notation shows
every atom with its type and all that it holds, closures included.
-/

namespace Atom

def quoted (t : Text) : Text := ascii "\"" ++ t ++ ascii "\""

def boolText (b : Bool) : Text := if b then ascii "true" else ascii "false"

/-! ### Debug notation -/

/-- A row of written items in brackets. -/
def bracketed (items : List Text) : Text :=
  ascii "[" ++ (ascii ", ").intercalate items ++ ascii "]"

mutual

def debug : Atom → Text
  | symbol s => ascii "Symbol(" ++ quoted s ++ ascii ")"
  | number x => ascii "Number(" ++ x.toText ++ ascii ")"
  | string s => ascii "String(" ++ quoted s ++ ascii ")"
  | list items _ => ascii "List" ++ bracketed (debugAll items)
  | bool b => ascii "Bool(" ++ boolText b ++ ascii ")"
  | nil => ascii "Nil"
  | error e => ascii "Error(" ++ e.name ++ ascii ")"
  | upvalue i s => ascii "Upvalue(" ++ Text.ofNat i ++ ascii ", " ++ quoted s ++ ascii ")"
  | closure ⟨slots, code, _, _⟩ =>
    ascii "Closure \x7b upvalues: " ++
      (if slots.isEmpty then ascii "None" else bracketed (debugAll slots)) ++
      ascii ", code: " ++ bracketed (debugAll code) ++ ascii " \x7d"
  | native _ => ascii "NativeFunction"

def debugAll : List Atom → List Text
  | [] => []
  | a :: as => debug a :: debugAll as

end

theorem debugAll_eq_map (items : List Atom) : debugAll items = items.map debug := by
  induction items with
  | nil => rfl
  | cons a as ih => rw [debugAll, ih, List.map_cons]

/-- The debug notation of a row of atoms. -/
def debugRow (items : List Atom) : Text := bracketed (debugAll items)

/-! ### Value notation -/

mutual

def render : Atom → Text
  | symbol s => s
  | number x => x.toText
  | string s => quoted s
  | list items _ => ascii "(" ++ (ascii " ").intercalate (renderAll items) ++ ascii ")"
  | bool b => boolText b
  | nil => ascii "nil"
  | error e => ascii "#<error:" ++ e.name ++ ascii ">"
  | upvalue _ s => ascii "#<upvalue:" ++ s ++ ascii ">"
  | closure c => ascii "#<closure/" ++ Text.ofNat c.slots.length ++ ascii ">"
  | native _ => ascii "#<native>"

def renderAll : List Atom → List Text
  | [] => []
  | a :: as => render a :: renderAll as

end

theorem renderAll_eq_map (items : List Atom) : renderAll items = items.map render := by
  induction items with
  | nil => rfl
  | cons a as ih => rw [renderAll, ih, List.map_cons]

end Atom

end SlotLisp
