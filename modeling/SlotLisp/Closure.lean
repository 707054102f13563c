import SlotLisp.Atom

/-!
# Compiling and binding closures

Compiling a code row with parameter names turns every symbol that is a name, at any depth of
nested lists, into an upvalue. The slots hold the names themselves until arguments are bound.
Binding fills the slots from the left and keeps the code. Freezing goes the other way: it replaces
upvalues by what the slots hold.

Lists that are built anew here are new objects, and are tagged by whoever puts them to use.
-/

namespace SlotLisp

namespace Atom

mutual

/-- Turns the symbols among `names` into upvalues. A repeated name means its first place. -/
def capture (names : List Text) : Atom → Atom
  | symbol s => match names.idxOf? s with
    | some i => upvalue i s
    | none => symbol s
  | list items _ => list (captureAll names items) none
  | a => a

def captureAll (names : List Text) : List Atom → List Atom
  | [] => []
  | a :: as => capture names a :: captureAll names as

end

theorem captureAll_eq_map (names : List Text) (items : List Atom) :
    captureAll names items = items.map (capture names) := by
  induction items with
  | nil => rfl
  | cons a as ih => rw [captureAll, ih, List.map_cons]

end Atom

namespace ClosureOf

/-- The closure without slots and without code. -/
def empty : Closure := ⟨[], [], none, none⟩

def isThin (c : Closure) : Bool := c.slots.isEmpty

def arity (c : Closure) : Nat := c.slots.length

/-- The closure of `code` with parameters `names`. Without names the code is taken as it is. -/
def compile (code : List Atom) (names : List Text) : Closure :=
  if names.isEmpty then ⟨[], code, none, none⟩
  else ⟨names.map .symbol, Atom.captureAll names code, none, none⟩

/-- Fills the slots with arguments, as far as both go. -/
def bind (c : Closure) (args : List Atom) : Closure :=
  { c with slots := args.take c.slots.length ++ c.slots.drop args.length, slotsTag := none }

@[simp] theorem code_bind (c : Closure) (args : List Atom) : (c.bind args).code = c.code := rfl

@[simp] theorem arity_bind (c : Closure) (args : List Atom) : (c.bind args).arity = c.arity := by
  simp only [arity, bind, List.length_append, List.length_take, List.length_drop]
  omega

/-- What a slot holds, and `nil` where there is none. -/
def slot (c : Closure) (i : Nat) : Atom := c.slots[i]?.getD .nil

/-- The meaning of an atom in a closure: an upvalue is what its slot holds. -/
def resolve (c : Closure) : Atom → Atom
  | .upvalue i _ => c.slot i
  | a => a

end ClosureOf

namespace Atom

mutual

/-- Replaces upvalues, at any depth of nested lists, by what the slots of `c` hold. -/
def freeze (c : Closure) : Atom → Atom
  | list items _ => list (freezeAll c items) none
  | a => c.resolve a

def freezeAll (c : Closure) : List Atom → List Atom
  | [] => []
  | a :: as => freeze c a :: freezeAll c as

end

theorem freezeAll_eq_map (c : Closure) (items : List Atom) :
    freezeAll c items = items.map (freeze c) := by
  induction items with
  | nil => rfl
  | cons a as ih => rw [freezeAll, ih, List.map_cons]

end Atom

end SlotLisp
