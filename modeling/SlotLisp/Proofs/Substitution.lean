import SlotLisp.Closure

/-!
# Binding is substitution

Compiling turns the names of parameters in a code row into upvalues, binding puts arguments into the
slots that the upvalues refer to, and freezing replaces upvalues by what their slots hold.

**Theorem (`freezeAll_bind_compile`).** Together they put arguments in place of names: all at once,
at every depth of nested lists, and without a second look at what has been put in place.

Until arguments are bound, a slot holds the name of its parameter. So a name that gets no argument
comes out as it went in, and freezing undoes compiling where nothing is bound at all.
-/

namespace SlotLisp

/-! ## Substitution -/

/-- The argument for a name, at the place where the name comes first among the names. -/
def argument? (names : List Text) (args : List Atom) (name : Text) : Option Atom :=
  (names.idxOf? name).bind fun i => args[i]?

namespace Atom

mutual

/-- Replaces symbols, at any depth of nested lists, by what is given for their names. The lists are
built anew, so they have no tags. -/
def substitute (σ : Text → Option Atom) : Atom → Atom
  | symbol name => (σ name).getD (symbol name)
  | list items _ => list (substituteAll σ items) none
  | a => a

def substituteAll (σ : Text → Option Atom) : List Atom → List Atom
  | [] => []
  | a :: as => substitute σ a :: substituteAll σ as

end

mutual

/-- The same atom with its lists built anew. -/
def untagged : Atom → Atom
  | list items _ => list (untaggedAll items) none
  | a => a

def untaggedAll : List Atom → List Atom
  | [] => []
  | a :: as => untagged a :: untaggedAll as

end

mutual

/-- Whether an atom is and holds no upvalue, at any depth of nested lists. -/
def upvalueFree : Atom → Bool
  | upvalue _ _ => false
  | list items _ => upvalueFreeAll items
  | _ => true

def upvalueFreeAll : List Atom → Bool
  | [] => true
  | a :: as => upvalueFree a && upvalueFreeAll as

end

mutual

/-- Where nothing is given, nothing is replaced. -/
theorem substitute_none (a : Atom) : a.substitute (fun _ => none) = a.untagged := by
  cases a with
  | list items tag => rw [substitute, untagged, substituteAll_none]
  | _ => rfl

theorem substituteAll_none (as : List Atom) :
    substituteAll (fun _ => none) as = untaggedAll as := by
  cases as with
  | nil => rfl
  | cons a as => rw [substituteAll, untaggedAll, substitute_none, substituteAll_none]

end

end Atom

/-! ## Slots -/

namespace ClosureOf

/-- Where there is a slot, binding puts the argument into it, if there is one. -/
theorem slot_bind_getD {c : Closure} {i : Nat} (hi : i < c.arity) (args : List Atom) :
    (c.bind args).slot i = args[i]?.getD (c.slot i) := by
  have hslots : i < c.slots.length := hi
  rw [slot, slot, bind]
  by_cases hargs : i < args.length
  · have htake : i < (args.take c.slots.length).length := by
      rw [List.length_take]
      exact Nat.lt_min.2 ⟨hslots, hargs⟩
    rw [List.getElem?_append_left htake, List.getElem?_take_of_lt hslots]
    simp [hargs]
  · have htake : (args.take c.slots.length).length = args.length := by
      rw [List.length_take]
      omega
    have hdrop : args.length + (i - args.length) = i := by omega
    rw [List.getElem?_append_right (by omega), htake, List.getElem?_drop, hdrop]
    simp [Nat.le_of_not_lt hargs]

variable (code : List Atom) (names : List Text)

@[simp] theorem slots_compile : (compile code names).slots = names.map .symbol := by
  cases names <;> rfl

theorem arity_compile : (compile code names).arity = names.length := by
  rw [arity, slots_compile, List.length_map]

@[simp] theorem bind_nil_compile : (compile code names).bind [] = compile code names := by
  cases names <;> rfl

variable {names}

/-- A slot holds the argument for its name, and the name itself if there is none. -/
theorem slot_bind_compile {i : Nat} {name : Text} (h : names[i]? = some name) (args : List Atom) :
    ((compile code names).bind args).slot i = args[i]?.getD (.symbol name) := by
  obtain ⟨hi, -⟩ := List.getElem?_eq_some_iff.1 h
  have harity : i < (compile code names).arity := by rwa [arity_compile]
  have hname : (compile code names).slot i = .symbol name := by simp [slot, h]
  rw [slot_bind_getD harity, hname]

end ClosureOf

/-! ## Freezing what was captured -/

namespace Atom

variable {c : Closure} {names : List Text} {args : List Atom}

mutual

/-- Freezing puts arguments in place of the names that were captured, if that is what the slots
hold. -/
theorem freeze_capture
    (hslot : ∀ i name, names[i]? = some name → c.slot i = args[i]?.getD (symbol name)) (a : Atom)
    (ha : a.upvalueFree = true) :
    freeze c (capture names a) = a.substitute (argument? names args) := by
  cases a with
  | symbol name =>
    rw [capture, substitute, argument?]
    cases hidx : names.idxOf? name with
    | none => rfl
    | some i =>
      obtain ⟨hi, hname, -⟩ := List.idxOf?_eq_some_iff.1 hidx
      exact hslot i name (List.getElem?_eq_some_iff.2 ⟨hi, hname⟩)
  | list items tag =>
    rw [upvalueFree] at ha
    rw [capture, freeze, substitute, freezeAll_captureAll hslot items ha]
  | upvalue i name => cases ha
  | _ => rfl

theorem freezeAll_captureAll
    (hslot : ∀ i name, names[i]? = some name → c.slot i = args[i]?.getD (symbol name))
    (as : List Atom) (has : upvalueFreeAll as = true) :
    freezeAll c (captureAll names as) = substituteAll (argument? names args) as := by
  cases as with
  | nil => rfl
  | cons a as =>
    rw [upvalueFreeAll, Bool.and_eq_true] at has
    rw [captureAll, freezeAll, substituteAll, freeze_capture hslot a has.1,
      freezeAll_captureAll hslot as has.2]

end

mutual

/-- Freezing changes nothing where nothing was captured. -/
theorem freeze_of_upvalueFree (a : Atom) (ha : a.upvalueFree = true) : freeze c a = a.untagged := by
  cases a with
  | list items tag =>
    rw [upvalueFree] at ha
    rw [freeze, untagged, freezeAll_of_upvalueFree items ha]
  | upvalue i name => cases ha
  | _ => rfl

theorem freezeAll_of_upvalueFree (as : List Atom) (has : upvalueFreeAll as = true) :
    freezeAll c as = untaggedAll as := by
  cases as with
  | nil => rfl
  | cons a as =>
    rw [upvalueFreeAll, Bool.and_eq_true] at has
    rw [freezeAll, untaggedAll, freeze_of_upvalueFree a has.1, freezeAll_of_upvalueFree as has.2]

end

end Atom

/-! ## Compiling and binding -/

theorem argument?_nil_left (args : List Atom) : argument? [] args = fun _ => none := rfl

theorem argument?_nil_right (names : List Text) : argument? names [] = fun _ => none := by
  funext name
  simp [argument?]

/-- Freezing the code of a closure in one of its frames. -/
theorem freezeAll_frame {code : List Atom} (h : Atom.upvalueFreeAll code = true)
    (names : List Text) (args : List Atom) :
    Atom.freezeAll ((ClosureOf.compile code names).bind args) (ClosureOf.compile code names).code =
      Atom.substituteAll (argument? names args) code := by
  by_cases hnames : names = []
  · -- Without names the code has been taken as it is.
    subst hnames
    rw [argument?_nil_left, Atom.substituteAll_none]
    exact Atom.freezeAll_of_upvalueFree code h
  · have hcode : (ClosureOf.compile code names).code = Atom.captureAll names code := by
      simp [ClosureOf.compile, hnames]
    rw [hcode]
    exact Atom.freezeAll_captureAll
      (fun i name hi => ClosureOf.slot_bind_compile code hi args) code h

/-- **Compiling and binding is substitution.** Let `code` be without upvalues. In a frame of its
closure, its compiled code stands for the code with arguments in place of names, where a name means
its first place and keeps itself if it gets no argument. Where nothing is bound, it stands for the
code itself, with its lists built anew. -/
theorem freezeAll_bind_compile (code : List Atom) (h : Atom.upvalueFreeAll code = true)
    (names : List Text) (args : List Atom) :
    let c := ClosureOf.compile code names
    Atom.freezeAll (c.bind args) c.code = Atom.substituteAll (argument? names args) code ∧
      Atom.freezeAll c c.code = Atom.untaggedAll code := by
  intro c
  refine ⟨freezeAll_frame h names args, ?_⟩
  have hunbound := freezeAll_frame h names []
  rwa [ClosureOf.bind_nil_compile, argument?_nil_right, Atom.substituteAll_none] at hunbound

/-- The code `(f x (y z x))` with parameters `x`, `y`, `x` and `z`, of which the last gets no
argument. The argument for `x` is a list that names `y`, and the second `x` counts for nothing. -/
theorem freezeAll_bind_compile_repeated :
    let f : Atom := .symbol (ascii "f")
    let x : Atom := .symbol (ascii "x")
    let y : Atom := .symbol (ascii "y")
    let z : Atom := .symbol (ascii "z")
    let code : List Atom := [f, x, .list [y, z, x] none]
    let c := ClosureOf.compile code [ascii "x", ascii "y", ascii "x", ascii "z"]
    Atom.upvalueFreeAll code = true ∧
      Atom.freezeAll (c.bind [.list [y] none, .nil, .bool true]) c.code =
        [f, .list [y] none, .list [.nil, z, .list [y] none] none] ∧
      Atom.freezeAll c c.code = code := by
  intro f x y z code c
  have h : Atom.upvalueFreeAll code = true := rfl
  exact ⟨h, (freezeAll_bind_compile code h _ _).1, (freezeAll_bind_compile code h _ []).2⟩

end SlotLisp
