import SlotLisp.Atom

/-!
# Global bindings

The table of globals lists its bindings in the byte order of their names.
-/

namespace SlotLisp

structure Globals where
  entries : List (Text × Atom) := []
deriving Repr

namespace Globals

def find? (g : Globals) (name : Text) : Option Atom := g.entries.lookup name

def size (g : Globals) : Nat := g.entries.length

/-- Puts a binding in its place, instead of an earlier one of the same name. -/
def insert (name : Text) (value : Atom) : List (Text × Atom) → List (Text × Atom)
  | [] => [(name, value)]
  | (k, v) :: r =>
    if name = k then (name, value) :: r
    else if name < k then (name, value) :: (k, v) :: r
    else (k, v) :: insert name value r

def bind (g : Globals) (name : Text) (value : Atom) : Globals := ⟨insert name value g.entries⟩

theorem lookup_insert_self (name : Text) (value : Atom) (l : List (Text × Atom)) :
    (insert name value l).lookup name = some value := by
  induction l with
  | nil => simp [insert]
  | cons e r ih =>
    obtain ⟨k, v⟩ := e
    rw [insert]
    split
    · simp
    · split
      · simp
      · next h _ => rw [List.lookup_cons, beq_false_of_ne h, ih]

theorem lookup_insert_of_ne {name other : Text} (h : other ≠ name) (value : Atom)
    (l : List (Text × Atom)) : (insert name value l).lookup other = l.lookup other := by
  induction l with
  | nil => simp [insert, h]
  | cons e r ih =>
    obtain ⟨k, v⟩ := e
    rw [insert]
    split
    · next hk => simp [← hk, List.lookup_cons, beq_false_of_ne h]
    · split
      · rw [List.lookup_cons, beq_false_of_ne h]
      · rw [List.lookup_cons, List.lookup_cons, ih]

@[simp] theorem find?_bind_self (g : Globals) (name : Text) (value : Atom) :
    (g.bind name value).find? name = some value :=
  lookup_insert_self name value g.entries

theorem find?_bind_of_ne (g : Globals) {name other : Text} (h : other ≠ name) (value : Atom) :
    (g.bind name value).find? other = g.find? other :=
  lookup_insert_of_ne h value g.entries

/-- The meaning of a global name: the value it is bound to, and else the symbol itself. -/
def valueOf (g : Globals) (name : Text) : Atom := (g.find? name).getD (.symbol name)

def constants : List (Text × Atom) :=
  [(ascii "pi", .number ⟨0x40490fdb⟩), (ascii "true", .bool true), (ascii "false", .bool false),
    (ascii "nil", .nil)]

def functions : List (Text × Atom) := Builtin.all.map fun f => (f.name, .native f)

/-- The bindings that every machine starts with. -/
def initial : Globals :=
  (constants ++ functions).foldl (fun (g : Globals) e => g.bind e.1 e.2) {}

end Globals

end SlotLisp
