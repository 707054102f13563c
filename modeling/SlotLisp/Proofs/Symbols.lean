import SlotLisp.Evaluation.Builtins

/-!
# Symbols

The symbols in an atom are those that evaluation can come to look up or to bind: in lists, and in
the slots and the code of closures, to any depth. The name that an upvalue carries is not among
them, since an upvalue is never looked up by its name.

`SymbolsIn N` says that all symbols in an atom, a row or a closure have a property `N`. Whatever is
made of such data by resolving, capturing, freezing, compiling, binding or tagging has only symbols
with the property again: no symbol comes from nowhere.
-/

namespace SlotLisp

/-! ## The symbols in atoms, rows and closures -/

namespace Atom

mutual

/-- The names of the symbols in an atom, in the order in which they stand there. -/
def symbols : Atom → List Text
  | symbol name => [name]
  | list items _ => symbolsAll items
  | closure ⟨slots, code, _, _⟩ => symbolsAll slots ++ symbolsAll code
  | _ => []

def symbolsAll : List Atom → List Text
  | [] => []
  | a :: as => symbols a ++ symbolsAll as

end

end Atom

def ClosureOf.symbols (c : Closure) : List Text := Atom.symbolsAll c.slots ++ Atom.symbolsAll c.code

/-- Data that holds symbols. -/
class HasSymbols (α : Type) where
  symbols : α → List Text

instance : HasSymbols Atom := ⟨Atom.symbols⟩

instance : HasSymbols (List Atom) := ⟨Atom.symbolsAll⟩

instance : HasSymbols Closure := ⟨ClosureOf.symbols⟩

instance : HasSymbols Unit := ⟨fun _ => []⟩

/-- All symbols have the property. -/
def SymbolsIn {α : Type} [HasSymbols α] (N : Text → Prop) (x : α) : Prop :=
  ∀ name ∈ HasSymbols.symbols x, N name

section Properties

variable {N : Text → Prop}

/-- For atoms such as numbers and builtins there is nothing to show. -/
theorem symbolsIn_of_no_symbols {α : Type} [HasSymbols α] {x : α}
    (h : HasSymbols.symbols x = []) : SymbolsIn N x := by
  intro name hname
  rw [h] at hname
  cases hname

theorem symbolsIn_true {α : Type} [HasSymbols α] (x : α) : SymbolsIn (fun _ => True) x :=
  fun _ _ => trivial

@[simp] theorem symbolsIn_nil : SymbolsIn N ([] : List Atom) := symbolsIn_of_no_symbols rfl

@[simp] theorem symbolsIn_cons {a : Atom} {as : List Atom} :
    SymbolsIn N (a :: as) ↔ SymbolsIn N a ∧ SymbolsIn N as := List.forall_mem_append

theorem symbolsIn_row {as : List Atom} : SymbolsIn N as ↔ ∀ a ∈ as, SymbolsIn N a := by
  induction as with
  | nil => simp
  | cons a as ih => rw [symbolsIn_cons, ih, List.forall_mem_cons]

@[simp] theorem symbolsIn_symbol {name : Text} : SymbolsIn N (Atom.symbol name) ↔ N name :=
  List.forall_mem_singleton

@[simp] theorem symbolsIn_list {items : List Atom} {tag : Tag} :
    SymbolsIn N (Atom.list items tag) ↔ SymbolsIn N items := Iff.rfl

theorem symbolsIn_closure {c : Closure} :
    SymbolsIn N c ↔ SymbolsIn N c.slots ∧ SymbolsIn N c.code := List.forall_mem_append

@[simp] theorem symbolsIn_closure_atom {c : Closure} :
    SymbolsIn N (Atom.closure c) ↔ SymbolsIn N c := Iff.rfl

end Properties

/-! ## Slots -/

namespace ClosureOf

variable {N : Text → Prop} {c : Closure}

theorem symbolsIn_empty : SymbolsIn N empty := symbolsIn_of_no_symbols rfl

/-- A slot holds an atom of the closure, or `nil` if there is no such slot. -/
theorem symbolsIn_slot (hc : SymbolsIn N c) (i : Nat) : SymbolsIn N (c.slot i) := by
  rw [slot]
  cases h : c.slots[i]? with
  | none => exact symbolsIn_of_no_symbols rfl
  | some a => exact symbolsIn_row.1 (symbolsIn_closure.1 hc).1 a (List.mem_of_getElem? h)

theorem symbolsIn_resolve (hc : SymbolsIn N c) {a : Atom} (ha : SymbolsIn N a) :
    SymbolsIn N (c.resolve a) := by
  cases a with
  | upvalue i name => exact symbolsIn_slot hc i
  | _ => exact ha

/-- A bound closure has the arguments in its first slots. -/
theorem symbolsIn_bind (hc : SymbolsIn N c) {args : List Atom} (hargs : SymbolsIn N args) :
    SymbolsIn N (c.bind args) := by
  obtain ⟨hslots, hcode⟩ := symbolsIn_closure.1 hc
  refine symbolsIn_closure.2 ⟨symbolsIn_row.2 fun a ha => ?_, hcode⟩
  rcases List.mem_append.1 ha with ha | ha
  · exact symbolsIn_row.1 hargs a (List.mem_of_mem_take ha)
  · exact symbolsIn_row.1 hslots a (List.mem_of_mem_drop ha)

end ClosureOf

/-! ## Compiling and freezing -/

namespace Atom

variable {N : Text → Prop} {c : Closure}

mutual

/-- Capturing only takes symbols away, since an upvalue has none. -/
theorem symbolsIn_capture (names : List Text) (a : Atom) (ha : SymbolsIn N a) :
    SymbolsIn N (capture names a) := by
  cases a with
  | symbol name =>
    rw [capture]
    split
    · exact symbolsIn_of_no_symbols rfl
    · exact ha
  | list items tag =>
    rw [capture, symbolsIn_list]
    exact symbolsIn_captureAll names items (symbolsIn_list.1 ha)
  | _ => exact ha

theorem symbolsIn_captureAll (names : List Text) (as : List Atom) (has : SymbolsIn N as) :
    SymbolsIn N (captureAll names as) := by
  cases as with
  | nil => exact has
  | cons a as =>
    rw [symbolsIn_cons] at has
    rw [captureAll, symbolsIn_cons]
    exact ⟨symbolsIn_capture names a has.1, symbolsIn_captureAll names as has.2⟩

end

mutual

/-- Freezing brings in the symbols of the slots. -/
theorem symbolsIn_freeze (hc : SymbolsIn N c) (a : Atom) (ha : SymbolsIn N a) :
    SymbolsIn N (freeze c a) := by
  cases a with
  | list items tag =>
    rw [freeze, symbolsIn_list]
    exact symbolsIn_freezeAll hc items (symbolsIn_list.1 ha)
  | _ => exact ClosureOf.symbolsIn_resolve hc ha

theorem symbolsIn_freezeAll (hc : SymbolsIn N c) (as : List Atom) (has : SymbolsIn N as) :
    SymbolsIn N (freezeAll c as) := by
  cases as with
  | nil => exact has
  | cons a as =>
    rw [symbolsIn_cons] at has
    rw [freezeAll, symbolsIn_cons]
    exact ⟨symbolsIn_freeze hc a has.1, symbolsIn_freezeAll hc as has.2⟩

end

end Atom

/-- The names that are bound become the contents of the slots, so they count as well. -/
theorem ClosureOf.symbolsIn_compile {N : Text → Prop} {code : List Atom} {names : List Text}
    (hcode : SymbolsIn N code) (hnames : ∀ name ∈ names, N name) :
    SymbolsIn N (compile code names) := by
  rw [compile]
  split
  · exact symbolsIn_closure.2 ⟨symbolsIn_nil, hcode⟩
  · refine symbolsIn_closure.2 ⟨symbolsIn_row.2 fun a ha => ?_,
      Atom.symbolsIn_captureAll names code hcode⟩
    obtain ⟨name, hname, rfl⟩ := List.mem_map.1 ha
    exact symbolsIn_symbol.2 (hnames name hname)

/-! ## Tagging -/

namespace Atom

variable {N : Text → Prop}

theorem symbolsIn_newList {items : List Atom} (h : SymbolsIn N items) (n : Nat) :
    SymbolsIn N ((newList items).run n).1 :=
  symbolsIn_list.2 h

mutual

/-- Tags are no symbols, and an atom keeps its own when it becomes an object. -/
theorem symbolsIn_identify (a : Atom) (ha : SymbolsIn N a) (n : Nat) :
    SymbolsIn N ((identify a).run n).1 := by
  cases a with
  | list items tag =>
    cases tag with
    | none => exact symbolsIn_list.2 (symbolsIn_identifyAll items (symbolsIn_list.1 ha) n)
    | some i => exact ha
  | _ => exact ha

theorem symbolsIn_identifyAll (as : List Atom) (has : SymbolsIn N as) (n : Nat) :
    SymbolsIn N ((identifyAll as).run n).1 := by
  cases as with
  | nil => exact has
  | cons a as =>
    rw [symbolsIn_cons] at has
    exact symbolsIn_cons.2 ⟨symbolsIn_identify a has.1 n, symbolsIn_identifyAll as has.2 _⟩

end

theorem symbolsIn_newClosure {c : Closure} (hc : SymbolsIn N c) (n : Nat) :
    SymbolsIn N ((newClosure c).run n).1 := by
  obtain ⟨hslots, hcode⟩ := symbolsIn_closure.1 hc
  exact symbolsIn_closure.2
    ⟨symbolsIn_identifyAll c.slots hslots n, symbolsIn_identifyAll c.code hcode _⟩

end Atom

/-! ## Names that come from symbols -/

section Names

variable {N : Text → Prop}

theorem eq_symbol_of_symbolName? {a : Atom} {name : Text} (h : a.symbolName? = some name) :
    a = .symbol name := by
  cases a with
  | symbol s => exact congrArg Atom.symbol (Option.some.inj h)
  | _ => cases h

/-- The names of parameters. -/
theorem names_of_mapM {items : List Atom} {names : List Text}
    (h : items.mapM Atom.symbolName? = some names) (hitems : SymbolsIn N items) :
    ∀ name ∈ names, N name := by
  induction items generalizing names with
  | nil =>
    cases h
    simp
  | cons a as ih =>
    rw [symbolsIn_cons] at hitems
    simp only [List.mapM_cons, Option.bind_eq_bind, Option.bind_eq_some_iff, Option.pure_def,
      Option.some.injEq] at h
    obtain ⟨name, hname, names, hnames, rfl⟩ := h
    rw [eq_symbol_of_symbolName? hname, symbolsIn_symbol] at hitems
    exact List.forall_mem_cons.2 ⟨hitems.1, ih hnames hitems.2⟩

/-- The name that `global` binds. -/
theorem name_of_globalName? {context : Closure} {params : List Atom} {name : Text}
    (h : Eval.globalName? context params = some name) (hcontext : SymbolsIn N context)
    (hparams : SymbolsIn N params) : N name := by
  cases params with
  | nil => cases h
  | cons a as =>
    rw [symbolsIn_cons] at hparams
    have hsymbol : context.resolve a = .symbol name := eq_symbol_of_symbolName? h
    have hresolve := ClosureOf.symbolsIn_resolve hcontext hparams.1
    rwa [hsymbol, symbolsIn_symbol] at hresolve

end Names

end SlotLisp
