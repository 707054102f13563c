import Mathlib.Data.Nat.Notation
import SlotLisp.Proofs.Outcome

/-!
# Pure expressions

A pure expression is built from numbers, strings, the constants and parameters by calls of `+`,
`*`, `=`, `neg` and `if`. Its meaning is plain call by value: `Expression.value`.

`Expression.Spelled` says which atoms are an expression written down.
-/

namespace SlotLisp

/-! ## Values -/

/-- What pure expressions evaluate to. -/
inductive Value where
  | number (x : Binary32)
  | string (t : Text)
  | bool (b : Bool)
  | nil
deriving DecidableEq, Repr

namespace Value

def toAtom : Value → Atom
  | number x => .number x
  | string t => .string t
  | bool b => .bool b
  | nil => .nil

/-- What is not a number counts as zero. -/
def operand : Value → Binary32
  | number x => x
  | _ => .zero

def isTruthy : Value → Bool
  | nil => false
  | bool b => b
  | _ => true

/-- Values of different kinds differ, and numbers compare numerically. -/
def equals : Value → Value → Bool
  | number x, number y => x == y
  | string s, string t => s = t
  | bool a, bool b => a = b
  | nil, nil => true
  | _, _ => false

/-- The branch that a condition selects. A branch that is not there is `nil`. -/
def select (condition : Value) (branches : List Value) : Value :=
  match condition.isTruthy, branches with
  | true, v :: _ => v
  | false, _ :: v :: _ => v
  | _, _ => nil

@[simp] theorem toAtom_number (x : Binary32) : (number x).toAtom = .number x := rfl

@[simp] theorem toAtom_bool (b : Bool) : (bool b).toAtom = .bool b := rfl

@[simp] theorem toAtom_nil : nil.toAtom = .nil := rfl

@[simp] theorem operand_toAtom (v : Value) : v.toAtom.operand = v.operand := by
  cases v <;> rfl

@[simp] theorem isTruthy_toAtom (v : Value) : v.toAtom.isTruthy = v.isTruthy := by
  cases v <;> rfl

@[simp] theorem isList_toAtom (v : Value) : v.toAtom.isList = false := by
  cases v <;> rfl

@[simp] theorem beq_toAtom (v w : Value) : (v.toAtom == w.toAtom) = v.equals w := by
  show Atom.beq v.toAtom w.toAtom = v.equals w
  cases v <;> cases w <;> simp [toAtom, Atom.beq, equals]

@[simp] theorem meaning_toAtom (c : Closure) (g : Globals) (v : Value) :
    c.meaning g v.toAtom = v.toAtom := by
  cases v <;> rfl

end Value

/-! ## Expressions -/

/-- The constants that every machine starts with. -/
inductive Constant where
  | true
  | false
  | nil
  | pi
deriving DecidableEq, Repr

namespace Constant

def name : Constant → Text
  | true => ascii "true"
  | false => ascii "false"
  | nil => ascii "nil"
  | pi => ascii "pi"

def value : Constant → Value
  | true => .bool Bool.true
  | false => .bool Bool.false
  | nil => .nil
  | pi => .number ⟨0x40490fdb⟩

def all : List Constant := [true, false, nil, pi]

end Constant

/-- The pure functions that take any number of arguments. -/
inductive Operator where
  | sum
  | product
  | equal
  | negate
deriving DecidableEq, Repr

namespace Operator

def builtin : Operator → Builtin
  | sum => .sum
  | product => .product
  | equal => .equal
  | negate => .negate

def apply : Operator → List Value → Value
  | sum, vs => .number (vs.foldl (fun x v => x + v.operand) .zero)
  | product, vs => .number (vs.foldl (fun x v => x * v.operand) .zero)
  | equal, [] => .bool true
  | equal, v :: vs => .bool (vs.all fun w => w.equals v)
  | negate, [] => .nil
  | negate, .number x :: _ => .number (-x)
  | negate, v :: _ => v

end Operator

/-- Pure expressions with `n` parameters. An `if` always has a condition. -/
inductive Expression (n : ℕ) where
  | number (x : Binary32)
  | string (t : Text)
  | constant (c : Constant)
  | param (i : Fin n)
  | call (f : Operator) (args : List (Expression n))
  | branch (condition : Expression n) (branches : List (Expression n))

namespace Expression

variable {n : ℕ}

mutual

/-- The value of an expression, call by value. -/
def value (env : Fin n → Value) : Expression n → Value
  | number x => .number x
  | string t => .string t
  | constant c => c.value
  | param i => env i
  | call f args => f.apply (valueAll env args)
  | branch condition branches => (value env condition).select (valueAll env branches)

def valueAll (env : Fin n → Value) : List (Expression n) → List Value
  | [] => []
  | e :: es => value env e :: valueAll env es

end

mutual

/-- How deeply calls are nested. A call without calls inside has height one. -/
def height : Expression n → ℕ
  | call _ args => heightAll args + 1
  | branch condition branches => max (height condition) (heightAll branches) + 1
  | _ => 0

def heightAll : List (Expression n) → ℕ
  | [] => 0
  | e :: es => max (height e) (heightAll es)

end

mutual

/-- Whether an atom is the expression written down, where the `i`-th parameter is written `p i`.
The rows of the atom may have any tags. -/
def Spelled (p : Fin n → Atom) : Expression n → Atom → Prop
  | number x, a => a = .number x
  | string t, a => a = .string t
  | constant c, a => a = .symbol c.name
  | param i, a => a = p i
  | call f args, a =>
    ∃ items tag, a = .list (.symbol f.builtin.name :: items) tag ∧ SpelledAll p args items
  | branch condition branches, a =>
    ∃ item items tag, a = .list (.symbol Builtin.branch.name :: item :: items) tag ∧
      Spelled p condition item ∧ SpelledAll p branches items

def SpelledAll (p : Fin n → Atom) : List (Expression n) → List Atom → Prop
  | [], items => items = []
  | e :: es, items => ∃ a as, items = a :: as ∧ Spelled p e a ∧ SpelledAll p es as

end

end Expression

end SlotLisp
