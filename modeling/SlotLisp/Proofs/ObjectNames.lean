import Mathlib.Logic.Function.Basic
import SlotLisp.Proofs.Outcome

/-!
# The names of objects

A tag names the object that a row is. Only that two tags are the same matters, and not which ones
they are. So the tags in atoms, rows, closures and globals can be renamed by any injective map `ρ`.

Each operation on such data gives renamed data from renamed data. A comparison has the same answer,
and a written text is the same. New tags are drawn from a counter, and where `ρ` takes those that
one counter has still to give to those of another (`Fresh`), what is drawn from them is renamed too.
-/

namespace SlotLisp

/-! ## Renaming -/

namespace Atom

mutual

/-- The atom with its objects renamed. -/
def rename (ρ : Nat → Nat) : Atom → Atom
  | list items tag => list (renameAll ρ items) (tag.map ρ)
  | closure ⟨slots, code, i, k⟩ =>
    closure ⟨renameAll ρ slots, renameAll ρ code, i.map ρ, k.map ρ⟩
  | a => a

def renameAll (ρ : Nat → Nat) : List Atom → List Atom
  | [] => []
  | a :: as => rename ρ a :: renameAll ρ as

end

theorem renameAll_eq_map (ρ : Nat → Nat) (as : List Atom) : renameAll ρ as = as.map (rename ρ) := by
  induction as with
  | nil => rfl
  | cons a as ih => rw [renameAll, ih, List.map_cons]

end Atom

def ClosureOf.rename (ρ : Nat → Nat) (c : Closure) : Closure :=
  ⟨Atom.renameAll ρ c.slots, Atom.renameAll ρ c.code, c.slotsTag.map ρ, c.codeTag.map ρ⟩

def Globals.rename (ρ : Nat → Nat) (g : Globals) : Globals :=
  ⟨g.entries.map fun e => (e.1, e.2.rename ρ)⟩

/-- Data that holds tags. -/
class HasTags (α : Type) where
  rename : (Nat → Nat) → α → α

instance : HasTags Atom := ⟨Atom.rename⟩

instance : HasTags (List Atom) := ⟨Atom.renameAll⟩

instance : HasTags Closure := ⟨ClosureOf.rename⟩

instance : HasTags Tag := ⟨Option.map⟩

instance : HasTags Unit := ⟨fun _ a => a⟩

variable {ρ : Nat → Nat}

namespace Atom

@[simp] theorem rename_list (items : List Atom) (tag : Tag) :
    rename ρ (list items tag) = list (renameAll ρ items) (tag.map ρ) := rfl

@[simp] theorem isList_rename (a : Atom) : (rename ρ a).isList = a.isList := by
  cases a <;> rfl

@[simp] theorem isNaN_rename (a : Atom) : (rename ρ a).isNaN = a.isNaN := by
  cases a <;> rfl

@[simp] theorem isTruthy_rename (a : Atom) : (rename ρ a).isTruthy = a.isTruthy := by
  cases a <;> rfl

@[simp] theorem symbolName?_rename (a : Atom) : (rename ρ a).symbolName? = a.symbolName? := by
  cases a <;> rfl

@[simp] theorem typeName_rename (a : Atom) : (rename ρ a).typeName = a.typeName := by
  cases a <;> rfl

@[simp] theorem operand_rename (a : Atom) : (rename ρ a).operand = a.operand := by
  cases a <;> rfl

end Atom

/-! ## Globals -/

namespace Globals

/-- Names of globals are texts, so a renaming of objects leaves them as they are. -/
theorem lookup_rename (name : Text) (entries : List (Text × Atom)) :
    (entries.map fun e => (e.1, e.2.rename ρ)).lookup name =
      (entries.lookup name).map (Atom.rename ρ) := by
  induction entries with
  | nil => rfl
  | cons e entries ih =>
    obtain ⟨k, v⟩ := e
    rw [List.map_cons, List.lookup_cons, List.lookup_cons, ih]
    cases name == k <;> rfl

theorem valueOf_rename (g : Globals) (name : Text) :
    (g.rename ρ).valueOf name = (g.valueOf name).rename ρ := by
  rw [valueOf, valueOf, find?, find?, rename, lookup_rename]
  cases g.entries.lookup name <;> rfl

theorem insert_rename (name : Text) (value : Atom) (entries : List (Text × Atom)) :
    insert name (value.rename ρ) (entries.map fun e => (e.1, e.2.rename ρ)) =
      (insert name value entries).map fun e => (e.1, e.2.rename ρ) := by
  induction entries with
  | nil => rfl
  | cons e entries ih =>
    obtain ⟨k, v⟩ := e
    simp only [List.map_cons, insert, ih]
    split
    · rfl
    · split <;> rfl

theorem bind_rename (g : Globals) (name : Text) (value : Atom) :
    (g.rename ρ).bind name (value.rename ρ) = (g.bind name value).rename ρ :=
  congrArg Globals.mk (insert_rename name value g.entries)

/-- The function that a head stands for is renamed, and it is the same builtin if it is one. -/
theorem callee_rename (g : Globals) (head : Atom) :
    (g.rename ρ).callee (head.rename ρ) = (g.callee head).rename ρ := by
  cases head with
  | symbol name => exact valueOf_rename g name
  | _ => rfl

end Globals

/-! ## Closures -/

namespace ClosureOf

/-- A slot that a closure does not have is `nil`, which holds no objects. -/
theorem slot_rename (c : Closure) (i : Nat) : (c.rename ρ).slot i = (c.slot i).rename ρ := by
  rw [slot, slot, rename, Atom.renameAll_eq_map, List.getElem?_map]
  cases c.slots[i]? <;> rfl

theorem resolve_rename (c : Closure) (a : Atom) :
    (c.rename ρ).resolve (a.rename ρ) = (c.resolve a).rename ρ := by
  cases a with
  | upvalue i name => exact slot_rename c i
  | _ => rfl

/-- What an atom means is looked up in the slots and the globals, and both are renamed. -/
theorem meaning_rename (c : Closure) (g : Globals) (a : Atom) :
    (c.rename ρ).meaning (g.rename ρ) (a.rename ρ) = (c.meaning g a).rename ρ := by
  cases a with
  | symbol name => exact Globals.valueOf_rename g name
  | upvalue i name => exact slot_rename c i
  | _ => rfl

theorem bind_rename (c : Closure) (args : List Atom) :
    (c.rename ρ).bind (Atom.renameAll ρ args) = (c.bind args).rename ρ := by
  simp [bind, rename, Atom.renameAll_eq_map, List.map_take, List.map_drop]

end ClosureOf

namespace Atom

mutual

/-- Capturing replaces symbols and keeps the objects that they stand in. -/
theorem capture_rename (names : List Text) (a : Atom) :
    capture names (rename ρ a) = rename ρ (capture names a) := by
  cases a with
  | symbol name =>
    rw [show rename ρ (symbol name) = symbol name from rfl, capture]
    split <;> rfl
  | list items tag =>
    rw [rename_list, capture, capture, captureAll_rename names items]
    rfl
  | _ => rfl

theorem captureAll_rename (names : List Text) (as : List Atom) :
    captureAll names (renameAll ρ as) = renameAll ρ (captureAll names as) := by
  cases as with
  | nil => rfl
  | cons a as =>
    rw [renameAll, captureAll, captureAll, renameAll, capture_rename names a,
      captureAll_rename names as]

end

mutual

/-- Freezing puts the contents of slots into code, each with its own objects. -/
theorem freeze_rename (c : Closure) (a : Atom) :
    freeze (c.rename ρ) (rename ρ a) = rename ρ (freeze c a) := by
  cases a with
  | list items tag =>
    rw [rename_list, freeze, freeze, freezeAll_rename c items]
    rfl
  | upvalue i name => exact ClosureOf.slot_rename c i
  | _ => rfl

theorem freezeAll_rename (c : Closure) (as : List Atom) :
    freezeAll (c.rename ρ) (renameAll ρ as) = renameAll ρ (freezeAll c as) := by
  cases as with
  | nil => rfl
  | cons a as =>
    rw [renameAll, freezeAll, freezeAll, renameAll, freeze_rename c a, freezeAll_rename c as]

end

end Atom

/-- A closure that is compiled has new rows, which have no tags yet. -/
theorem ClosureOf.compile_rename (code : List Atom) (names : List Text) :
    compile (Atom.renameAll ρ code) names = (compile code names).rename ρ := by
  rw [compile, compile]
  split
  · rfl
  · have hnames : Atom.renameAll ρ (names.map .symbol) = names.map .symbol := by
      rw [Atom.renameAll_eq_map, List.map_map]
      rfl
    rw [Atom.captureAll_rename, rename, hnames]
    rfl

/-! ## Texts and comparisons -/

namespace Atom

mutual

/-- Texts do not show tags. -/
theorem debug_rename (a : Atom) : debug (rename ρ a) = debug a := by
  cases a with
  | list items tag => rw [rename_list, debug, debug, debugAll_rename items]
  | closure c =>
    obtain ⟨slots, code, i, k⟩ := c
    have hempty : (renameAll ρ slots).isEmpty = slots.isEmpty := by cases slots <;> rfl
    rw [rename, debug, debug, debugAll_rename slots, debugAll_rename code, hempty]
  | _ => rfl

theorem debugAll_rename (as : List Atom) : debugAll (renameAll ρ as) = debugAll as := by
  cases as with
  | nil => rfl
  | cons a as => rw [renameAll, debugAll, debugAll, debug_rename a, debugAll_rename as]

end

theorem debugRow_rename (as : List Atom) : debugRow (renameAll ρ as) = debugRow as := by
  rw [debugRow, debugAll_rename, debugRow]

end Atom

/-- Only here it matters that no two objects get the same name. -/
theorem Tag.same_rename (hρ : Function.Injective ρ) (i j : Tag) :
    Tag.same (i.map ρ) (j.map ρ) = i.same j := by
  cases i <;> cases j <;> simp [same, hρ.eq_iff]

namespace Atom

theorem sameNaN_rename (a b : Atom) : sameNaN (rename ρ a) (rename ρ b) = sameNaN a b := by
  cases a <;> cases b <;> rfl

mutual

/-- A comparison asks for tags only to find that two rows are one object. -/
theorem beq_rename (hρ : Function.Injective ρ) (a b : Atom) :
    beq (rename ρ a) (rename ρ b) = beq a b := by
  cases a with
  | list as i =>
    cases b with
    | list bs j =>
      rw [rename_list, rename_list, beq, beq, Tag.same_rename hρ, beqRow_rename hρ _ as bs]
    | _ => rfl
  | closure c =>
    cases b with
    | closure d =>
      obtain ⟨slots, code, i, k⟩ := c
      obtain ⟨slots', code', j, l⟩ := d
      rw [rename, rename, beq, beq, Tag.same_rename hρ, Tag.same_rename hρ,
        beqRow_rename hρ _ slots slots', beqRow_rename hρ _ code code']
    | _ => rfl
  | _ => cases b <;> rfl

theorem beqRow_rename (hρ : Function.Injective ρ) (same : Bool) (as bs : List Atom) :
    beqRow same (renameAll ρ as) (renameAll ρ bs) = beqRow same as bs := by
  cases as with
  | nil => cases bs <;> rfl
  | cons a as =>
    cases bs with
    | nil => rfl
    | cons b bs =>
      rw [renameAll, renameAll, beqRow, beqRow, beq_rename hρ a b, sameNaN_rename,
        beqRow_rename hρ same as bs]

end

end Atom

/-! ## New objects -/

/-- The tags that the counter `n'` has still to give are those of the counter `n` renamed, in the
same order. -/
def Fresh (ρ : Nat → Nat) (n n' : Nat) : Prop := ∀ k, ρ (n + k) = n' + k

/-- One tag is drawn from each of the counters. -/
theorem Fresh.succ {n n' : Nat} (h : Fresh ρ n n') : Fresh ρ (n + 1) (n' + 1) := by
  intro k
  rw [Nat.add_assoc, Nat.add_assoc]
  exact h (1 + k)

/-- From counters that match, the computations draw tags that match and give the same otherwise. -/
def DrawAlike (ρ : Nat → Nat) {α : Type} [HasTags α] (m m' : StateM Nat α) : Prop :=
  ∀ n n', Fresh ρ n n' → (m'.run n').1 = HasTags.rename ρ (m.run n).1 ∧
    Fresh ρ (m.run n).2 (m'.run n').2

section Draw

variable {α β : Type} [HasTags α] [HasTags β]

theorem DrawAlike.pure (a : α) : DrawAlike ρ (pure a) (pure (HasTags.rename ρ a)) :=
  fun _ _ h => ⟨rfl, h⟩

/-- What is drawn first is renamed, and what follows it draws alike from there on. -/
theorem DrawAlike.bind {m m' : StateM Nat α} {f f' : α → StateM Nat β} (hm : DrawAlike ρ m m')
    (hf : ∀ a, DrawAlike ρ (f a) (f' (HasTags.rename ρ a))) :
    DrawAlike ρ (m >>= f) (m' >>= f') := by
  intro n n' h
  obtain ⟨hvalue, hfresh⟩ := hm n n' h
  have hnext := hf (m.run n).1 _ _ hfresh
  rw [← hvalue] at hnext
  exact hnext

end Draw

namespace Atom

/-- A row takes a tag if it holds a NaN, and a renaming does not change whether it does. -/
theorem tagRow_rename (items : List Atom) :
    DrawAlike ρ (tagRow items) (tagRow (renameAll ρ items)) := by
  have hany : (renameAll ρ items).any isNaN = items.any isNaN := by
    rw [renameAll_eq_map, List.any_map]
    congr 1
    funext a
    exact isNaN_rename a
  rw [tagRow, tagRow, hany]
  split
  · intro n n' h
    exact ⟨congrArg some (h 0).symm, h.succ⟩
  · exact .pure _

theorem newList_rename (items : List Atom) :
    DrawAlike ρ (newList items) (newList (renameAll ρ items)) :=
  (tagRow_rename items).bind fun tag => .pure (list items tag)

mutual

/-- A list that has a tag is an object already and draws none. -/
theorem identify_rename (a : Atom) : DrawAlike ρ (identify a) (identify (rename ρ a)) := by
  cases a with
  | list items tag =>
    cases tag with
    | none => exact (identifyAll_rename items).bind fun items => newList_rename items
    | some i => exact .pure _
  | _ => exact .pure _

theorem identifyAll_rename (as : List Atom) :
    DrawAlike ρ (identifyAll as) (identifyAll (renameAll ρ as)) := by
  cases as with
  | nil => exact .pure _
  | cons a as =>
    exact (identify_rename a).bind fun b => (identifyAll_rename as).bind fun bs => .pure (b :: bs)

end

/-- The tags of the two rows of a closure are drawn after those in them. -/
theorem newClosure_rename (c : Closure) :
    DrawAlike ρ (newClosure c) (newClosure (c.rename ρ)) :=
  (identifyAll_rename c.slots).bind fun slots => (identifyAll_rename c.code).bind fun code =>
    (tagRow_rename slots).bind fun i => (tagRow_rename code).bind fun k =>
      .pure (⟨slots, code, i, k⟩ : Closure)

end Atom

/-! ## Objects that there are already -/

namespace Atom

mutual

/-- All tags in the atom have been drawn from a counter that has come to `n`. -/
def drawn (n : Nat) : Atom → Bool
  | list items tag => tag.all (· < n) && drawnAll n items
  | closure ⟨slots, code, i, k⟩ =>
    i.all (· < n) && k.all (· < n) && drawnAll n slots && drawnAll n code
  | _ => true

def drawnAll (n : Nat) : List Atom → Bool
  | [] => true
  | a :: as => drawn n a && drawnAll n as

end

variable {n : Nat}

theorem map_of_drawn (hρ : ∀ i, i < n → ρ i = i) {tag : Tag} (h : tag.all (· < n) = true) :
    tag.map ρ = tag := by
  cases tag with
  | none => rfl
  | some i => exact congrArg some (hρ i (of_decide_eq_true h))

mutual

/-- A renaming that keeps the tags drawn so far keeps all atoms that there are. -/
theorem rename_of_drawn (hρ : ∀ i, i < n → ρ i = i) (a : Atom) (h : a.drawn n = true) :
    a.rename ρ = a := by
  cases a with
  | list items tag =>
    rw [drawn, Bool.and_eq_true] at h
    rw [rename_list, map_of_drawn hρ h.1, renameAll_of_drawn hρ items h.2]
  | closure c =>
    obtain ⟨slots, code, i, k⟩ := c
    rw [drawn, Bool.and_eq_true, Bool.and_eq_true, Bool.and_eq_true] at h
    obtain ⟨⟨⟨hi, hk⟩, hslots⟩, hcode⟩ := h
    rw [rename, map_of_drawn hρ hi, map_of_drawn hρ hk, renameAll_of_drawn hρ slots hslots,
      renameAll_of_drawn hρ code hcode]
  | _ => rfl

theorem renameAll_of_drawn (hρ : ∀ i, i < n → ρ i = i) (as : List Atom)
    (h : drawnAll n as = true) : renameAll ρ as = as := by
  cases as with
  | nil => rfl
  | cons a as =>
    rw [drawnAll, Bool.and_eq_true] at h
    rw [renameAll, rename_of_drawn hρ a h.1, renameAll_of_drawn hρ as h.2]

end

end Atom

end SlotLisp
