import SlotLisp.Binary32
import SlotLisp.Text

/-!
# Atoms

An atom is a value of the language, and programs are lists of atoms too.

**Closures.** A closure is code whose parameters are read from numbered slots. Inside the code a
parameter is an `upvalue`, which names its slot. A closure without slots is called thin.

**Rows and tags.** A row is the items of a list, the slots of a closure or the code of a closure.
Atoms are values, but a row is also an object: copies of an atom share its rows, and a row built
anew is another object even if it holds the same atoms. The difference shows only in comparisons
of rows that hold a NaN, since a NaN equals itself in one and the same row and nowhere else. So
only such a row carries a tag, which is unique to the object.
-/

namespace SlotLisp

/-! ## Builtin functions and evaluation errors -/

/-- Why an evaluation fails. -/
inductive EvalError where
  | nonEvaluable
  | notAFunction
  | invalidUsage
  | notASymbol
  | depthExceeded
deriving DecidableEq, Repr

def EvalError.name : EvalError → Text
  | .nonEvaluable => ascii "NonEvaluable"
  | .notAFunction => ascii "NotAFunction"
  | .invalidUsage => ascii "InvalidUsage"
  | .notASymbol => ascii "NotASymbol"
  | .depthExceeded => ascii "DepthExceeded"

/-- The functions that every machine starts with. -/
inductive Builtin where
  | print
  | printRaw
  | branch
  | lambda
  | quote
  | typeOf
  | global
  | resolve
  | eval
  | map
  | sum
  | product
  | equal
  | negate
deriving DecidableEq, Repr

namespace Builtin

/-- The global name that a builtin is bound to at the start. -/
def name : Builtin → Text
  | .print => ascii "print"
  | .printRaw => ascii "printd"
  | .branch => ascii "if"
  | .lambda => ascii "lambda"
  | .quote => ascii "quote"
  | .typeOf => ascii "type"
  | .global => ascii "global"
  | .resolve => ascii "resolve"
  | .eval => ascii "eval"
  | .map => ascii "map"
  | .sum => ascii "+"
  | .product => ascii "*"
  | .equal => ascii "="
  | .negate => ascii "neg"

def all : List Builtin :=
  [.print, .printRaw, .branch, .lambda, .quote, .typeOf, .global, .resolve, .eval, .map, .sum,
    .product, .equal, .negate]

end Builtin

/-! ## Atoms -/

/-- The identity of a row that holds a NaN. -/
abbrev Tag := Option Nat

structure ClosureOf (α : Type) where
  slots : List α
  code : List α
  slotsTag : Tag := none
  codeTag : Tag := none
deriving Repr

inductive Atom where
  | symbol (name : Text)
  | number (value : Binary32)
  | string (text : Text)
  | list (items : List Atom) (tag : Tag)
  | bool (value : Bool)
  | nil
  | error (cause : EvalError)
  | upvalue (index : Nat) (name : Text)
  | closure (c : ClosureOf Atom)
  | native (f : Builtin)
deriving Repr

abbrev Closure := ClosureOf Atom

namespace Atom

instance : Inhabited Atom := ⟨nil⟩

/-- The name of an atom's type, as the builtin `type` tells it. -/
def typeName : Atom → Text
  | symbol _ => ascii "Symbol"
  | number _ => ascii "Number"
  | string _ => ascii "String"
  | list _ _ => ascii "List"
  | bool _ => ascii "Bool"
  | nil => ascii "Nil"
  | error e => ascii "Error:" ++ e.name
  | upvalue _ _ => ascii "Upvalue"
  | closure _ => ascii "Closure"
  | native _ => ascii "NativeFunction"

def isList : Atom → Bool
  | list _ _ => true
  | _ => false

def isNaN : Atom → Bool
  | number x => x.isNaN
  | _ => false

/-- Only `nil` and `false` count as false. -/
def isTruthy : Atom → Bool
  | nil => false
  | bool b => b
  | _ => true

def symbolName? : Atom → Option Text
  | symbol s => some s
  | _ => none

/-- An atom as an operand of arithmetic: what is not a number counts as zero. -/
def operand : Atom → Binary32
  | number x => x
  | _ => .zero

end Atom

/-!
## Tagging new rows

Tags are drawn from a counter, so no two objects get the same one. A row needs a tag only if it
holds a NaN directly: a NaN further inside is in a row of its own.
-/

namespace Atom

/-- A tag for a new row. -/
def tagRow (items : List Atom) : StateM Nat Tag :=
  if items.any isNaN then modifyGet fun n => (some n, n + 1) else pure none

/-- A new list. -/
def newList (items : List Atom) : StateM Nat Atom := do
  return list items (← tagRow items)

mutual

/-- Tags the untagged lists in an atom. Closures in it have been tagged when they were made. -/
def identify : Atom → StateM Nat Atom
  | list items none => do newList (← identifyAll items)
  | a => pure a

def identifyAll : List Atom → StateM Nat (List Atom)
  | [] => pure []
  | a :: as => do return (← identify a) :: (← identifyAll as)

end

/-- A new closure: its slots and its code are new rows, and so are the untagged lists in them. -/
def newClosure (c : Closure) : StateM Nat Closure := do
  let slots ← identifyAll c.slots
  let code ← identifyAll c.code
  return ⟨slots, code, ← tagRow slots, ← tagRow code⟩

end Atom

/-!
## Equality of atoms

Atoms are equal if they are of one kind and hold the same data. Numbers compare numerically, so a
NaN differs from itself, except inside a row that is compared with itself. All builtins are equal.
-/

/-- Whether two rows are one and the same object. Rows without a tag may be, but for them it makes
no difference. -/
def Tag.same : Tag → Tag → Bool
  | some i, some j => i = j
  | _, _ => false

namespace Atom

/-- The same NaN, bit for bit. -/
def sameNaN : Atom → Atom → Bool
  | number x, number y => x.isNaN && x.bits = y.bits
  | _, _ => false

mutual

def beq : Atom → Atom → Bool
  | symbol s, symbol t => s = t
  | number x, number y => x == y
  | string s, string t => s = t
  | list xs i, list ys j => beqRow (i.same j) xs ys
  | bool a, bool b => a = b
  | nil, nil => true
  | error e, error f => e = f
  | upvalue i s, upvalue j t => i = j && s = t
  | closure ⟨xs, code, i, k⟩, closure ⟨ys, code', j, l⟩ =>
    beqRow (i.same j) xs ys && beqRow (k.same l) code code'
  | native _, native _ => true
  | _, _ => false

/-- Equality of rows, which are one object or not. -/
def beqRow (same : Bool) : List Atom → List Atom → Bool
  | [], [] => true
  | x :: xs, y :: ys => (beq x y || (same && sameNaN x y)) && beqRow same xs ys
  | _, _ => false

end

instance : BEq Atom := ⟨beq⟩

end Atom

/-- Equality of closures. Unlike two copies of a closure atom, two closures never share their
slots. -/
def ClosureOf.beq (c d : Closure) : Bool :=
  Atom.beqRow false c.slots d.slots && Atom.beqRow (c.codeTag.same d.codeTag) c.code d.code

instance : BEq Closure := ⟨ClosureOf.beq⟩

end SlotLisp
