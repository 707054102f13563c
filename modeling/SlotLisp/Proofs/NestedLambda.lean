import SlotLisp.Proofs.PassingOn

/-!
# A lambda in a lambda

When `lambda` is called in a frame of another closure, what the frame holds is frozen into the body
before the body is compiled. So the body is rewritten four times: compiled with the outer names,
frozen in the outer frame, compiled with the inner names and frozen in the inner frame.

**Theorem (`lambda_nested`).** Together this is one substitution, of the outer arguments for the
outer names and the inner arguments for the inner names. The outer arguments must not have anything
in them that compiling with the inner names would change, since that goes through the whole body.

Compiling and freezing is substitution each time (`freezeAll_frame`), and two substitutions are one
(`substitute_substitute`).
-/

namespace SlotLisp

namespace Atom

/-! ## Two substitutions -/

variable {σ : Text → Option Atom} {names : List Text}

mutual

/-- A substitution after another one also goes through what the first has put in place. -/
theorem substitute_substitute (σ τ : Text → Option Atom) (a : Atom) :
    (a.substitute σ).substitute τ =
      a.substitute fun name => ((σ name).map (substitute τ)).or (τ name) := by
  cases a with
  | symbol name =>
    rw [substitute, substitute]
    cases σ name with
    | none => rfl
    | some b => rfl
  | list items tag => rw [substitute, substitute, substitute, substituteAll_substituteAll]
  | _ => rfl

theorem substituteAll_substituteAll (σ τ : Text → Option Atom) (as : List Atom) :
    substituteAll τ (substituteAll σ as) =
      substituteAll (fun name => ((σ name).map (substitute τ)).or (τ name)) as := by
  cases as with
  | nil => rfl
  | cons a as =>
    rw [substituteAll, substituteAll, substituteAll, substitute_substitute,
      substituteAll_substituteAll]

end

mutual

/-- Where no upvalue is put in place, none arises. -/
theorem upvalueFree_substitute (hσ : ∀ name b, σ name = some b → b.upvalueFree = true) (a : Atom)
    (ha : a.upvalueFree = true) : (a.substitute σ).upvalueFree = true := by
  cases a with
  | symbol name =>
    rw [substitute]
    cases hname : σ name with
    | none => rfl
    | some b => exact hσ name b hname
  | list items tag =>
    rw [upvalueFree] at ha
    rw [substitute, upvalueFree, upvalueFreeAll_substituteAll hσ items ha]
  | upvalue i name => cases ha
  | _ => rfl

theorem upvalueFreeAll_substituteAll (hσ : ∀ name b, σ name = some b → b.upvalueFree = true)
    (as : List Atom) (has : upvalueFreeAll as = true) :
    upvalueFreeAll (substituteAll σ as) = true := by
  cases as with
  | nil => rfl
  | cons a as =>
    rw [upvalueFreeAll, Bool.and_eq_true] at has
    rw [substituteAll, upvalueFreeAll, upvalueFree_substitute hσ a has.1,
      upvalueFreeAll_substituteAll hσ as has.2, Bool.and_self]

end

/-! ## Names that do not occur -/

mutual

/-- Whether no symbol in an atom, at any depth of nested lists, is one of the names. -/
def nameFree (names : List Text) : Atom → Bool
  | symbol name => !names.contains name
  | list items _ => nameFreeAll names items
  | _ => true

def nameFreeAll (names : List Text) : List Atom → Bool
  | [] => true
  | a :: as => nameFree names a && nameFreeAll names as

end

mutual

/-- Where the names do not occur, nothing is put in their place. -/
theorem substitute_of_nameFree (args : List Atom) (a : Atom) (ha : a.nameFree names = true) :
    a.substitute (argument? names args) = a.untagged := by
  cases a with
  | symbol name =>
    have hidx : names.idxOf? name = none := List.idxOf?_eq_none_iff.2 (by simpa [nameFree] using ha)
    rw [substitute, argument?, hidx]
    rfl
  | list items tag =>
    rw [nameFree] at ha
    rw [substitute, untagged, substituteAll_of_nameFree args items ha]
  | _ => rfl

theorem substituteAll_of_nameFree (args : List Atom) (as : List Atom)
    (has : nameFreeAll names as = true) :
    substituteAll (argument? names args) as = untaggedAll as := by
  cases as with
  | nil => rfl
  | cons a as =>
    rw [nameFreeAll, Bool.and_eq_true] at has
    rw [substituteAll, untaggedAll, substitute_of_nameFree args a has.1,
      substituteAll_of_nameFree args as has.2]

end

theorem upvalueFreeAll_iff {as : List Atom} :
    upvalueFreeAll as = true ↔ ∀ a ∈ as, a.upvalueFree = true := by
  induction as with
  | nil => simp [upvalueFreeAll]
  | cons a as ih => simp [upvalueFreeAll, ih]

theorem nameFreeAll_iff {as : List Atom} :
    nameFreeAll names as = true ↔ ∀ a ∈ as, a.nameFree names = true := by
  induction as with
  | nil => simp [nameFreeAll]
  | cons a as ih => simp [nameFreeAll, ih]

theorem untaggedAll_eq_map (as : List Atom) : untaggedAll as = as.map untagged := by
  induction as with
  | nil => rfl
  | cons a as ih => rw [untaggedAll, ih, List.map_cons]

/-! ## Freezing tagged rows -/

variable {c d : Closure}

mutual

/-- Only the slots of a frame are read. -/
theorem freeze_congr (h : c.slots = d.slots) (a : Atom) : freeze c a = freeze d a := by
  cases a with
  | list items tag => rw [freeze, freeze, freezeAll_congr h items]
  | upvalue i name =>
    show c.slot i = d.slot i
    rw [ClosureOf.slot, ClosureOf.slot, h]
  | _ => rfl

theorem freezeAll_congr (h : c.slots = d.slots) (as : List Atom) :
    freezeAll c as = freezeAll d as := by
  cases as with
  | nil => rfl
  | cons a as => rw [freezeAll, freezeAll, freeze_congr h a, freezeAll_congr h as]

end

mutual

/-- Freezing builds lists anew, so it makes no difference whether they have been tagged. -/
theorem freeze_identify (c : Closure) (a : Atom) (n : ℕ) :
    freeze c ((identify a).run n).1 = freeze c a := by
  cases a with
  | list items tag =>
    cases tag with
    | none =>
      rw [freeze, ← freezeAll_identifyAll c items n]
      rfl
    | some i => rfl
  | _ => rfl

theorem freezeAll_identifyAll (c : Closure) (as : List Atom) (n : ℕ) :
    freezeAll c ((identifyAll as).run n).1 = freezeAll c as := by
  cases as with
  | nil => rfl
  | cons a as =>
    rw [freezeAll, ← freeze_identify c a n, ← freezeAll_identifyAll c as ((identify a).run n).2]
    rfl

end

/-- A closure that is made new has the same slots, if these need no tags, and its code stands for
the same in all its frames. -/
theorem freezeAll_newClosure {c : Closure} (h : ∀ a ∈ c.slots, a.IsPlain) (n : ℕ)
    (args : List Atom) :
    let c' := ((newClosure c).run n).1
    c'.slots = c.slots ∧ freezeAll (c'.bind args) c'.code = freezeAll (c.bind args) c.code := by
  intro c'
  have hslots : c'.slots = c.slots := by
    show ((identifyAll c.slots).run n).1 = c.slots
    rw [identifyAll_of_isPlain h]
    rfl
  refine ⟨hslots, ?_⟩
  have hframe : (c'.bind args).slots = (c.bind args).slots := by
    rw [ClosureOf.bind, ClosureOf.bind, hslots]
  rw [freezeAll_congr hframe]
  exact freezeAll_identifyAll (c.bind args) c.code _

end Atom

/-! ## Arguments -/

section Arguments

variable {names : List Text} {args : List Atom} {name : Text}

theorem mem_of_argument? {a : Atom} (h : argument? names args name = some a) : a ∈ args := by
  obtain ⟨i, -, hi⟩ := Option.bind_eq_some_iff.1 h
  exact List.mem_of_getElem? hi

theorem argument?_untaggedAll (names : List Text) (args : List Atom) (name : Text) :
    argument? names (Atom.untaggedAll args) name =
      (argument? names args name).map Atom.untagged := by
  rw [argument?, argument?, Atom.untaggedAll_eq_map]
  cases names.idxOf? name <;> simp

/-- Where all names of a list have arguments, further names and arguments come behind them. -/
theorem argument?_append (h : args.length = names.length) (names' : List Text)
    (args' : List Atom) (name : Text) :
    argument? (names ++ names') (args ++ args') name =
      (argument? names args name).or (argument? names' args' name) := by
  have hidx : (names ++ names').idxOf? name =
      (names.idxOf? name).or ((names'.idxOf? name).map (· + names.length)) := List.findIdx?_append
  rw [argument?, argument?, argument?, hidx]
  cases hfirst : names.idxOf? name with
  | none =>
    cases names'.idxOf? name with
    | none => rfl
    | some i => simp [← h, List.getElem?_append_right]
  | some i =>
    obtain ⟨hi, -⟩ := List.idxOf?_eq_some_iff.1 hfirst
    simp [h, hi, List.getElem?_append_left]

end Arguments

/-! ## Nested lambdas -/

/-- What `lambda` makes in any context: a closure that stands for the frozen body with arguments in
place of the names, if freezing has left no upvalue in the body. -/
theorem Machine.exists_lambda (m : Machine) (context : Closure) (names : List Text)
    (body : List Atom) (tag tag' : Tag)
    (hbody : Atom.upvalueFreeAll (Atom.freezeAll context body) = true) :
    ∃ c m', m.callBuiltin .lambda context [.list (names.map .symbol) tag, .list body tag'] =
        (.ok (.closure c), m') ∧
      c.arity = names.length ∧ ∀ args, Atom.freezeAll (c.bind args) c.code =
        Atom.substituteAll (argument? names args) (Atom.freezeAll context body) := by
  obtain ⟨s, hs⟩ := Eval.outcome_lambda context names body tag tag' m.store
  have hslots : ∀ a ∈ (ClosureOf.compile (Atom.freezeAll context body) names).slots,
      a.IsPlain := by
    rw [ClosureOf.slots_compile]
    exact Atom.isPlain_symbols names
  have hnew := Atom.freezeAll_newClosure hslots m.store.nextTag
  generalize ((Atom.newClosure (.compile (Atom.freezeAll context body) names)).run
    m.store.nextTag).1 = c at hs hnew
  refine ⟨c, { m with store := s }, ?_, ?_, fun args => ?_⟩
  · rw [callBuiltin, onStore_eq, Builtin.run, hs]
  · rw [ClosureOf.arity, (hnew []).1, ClosureOf.slots_compile, List.length_map]
  · rw [(hnew args).2, freezeAll_frame hbody]

/-- Substitution for outer names and then for inner ones puts both lists of arguments in place. -/
theorem substituteAll_arguments {outer inner : List Text} {args : List Atom}
    (hnames : Atom.nameFreeAll inner args = true) (args' code : List Atom) :
    Atom.substituteAll (argument? inner args') (Atom.substituteAll (argument? outer args) code) =
      Atom.substituteAll (fun name => (argument? outer (Atom.untaggedAll args) name).or
        (argument? inner args' name)) code := by
  rw [Atom.substituteAll_substituteAll]
  congr 1
  funext name
  rw [argument?_untaggedAll]
  cases harg : argument? outer args name with
  | none => rfl
  | some a =>
    have ha := Atom.nameFreeAll_iff.1 hnames a (mem_of_argument? harg)
    rw [Option.map_some, Option.map_some, Atom.substitute_of_nameFree args' a ha]

/-- **A lambda in a lambda captures like one lambda.** Let `lambda` be called with inner names and
with the code of an outer closure, in a frame of that closure. The outer arguments have no upvalues
and none of the inner names in them. Then a closure is made with a slot for each inner name. In a
frame of it, its code stands for the outer code with the outer arguments in place of the outer names
and the inner ones in place of the inner names. Names that get no argument are kept, and lists in
the outer arguments are built anew. If no outer argument is missing, this is what one closure with
both lists of names stands for, bound to both lists of arguments. -/
theorem lambda_nested {code : List Atom} (hcode : Atom.upvalueFreeAll code = true)
    (outer inner : List Text) {args : List Atom} (hargs : Atom.upvalueFreeAll args = true)
    (hnames : Atom.nameFreeAll inner args = true) (m : Machine) (tag tag' : Tag) :
    let o := ClosureOf.compile code outer
    let both := ClosureOf.compile code (outer ++ inner)
    ∃ c m', m.callBuiltin .lambda (o.bind args)
        [.list (inner.map .symbol) tag, .list o.code tag'] = (.ok (.closure c), m') ∧
      c.arity = inner.length ∧ ∀ args',
        Atom.freezeAll (c.bind args') c.code =
          Atom.substituteAll (fun name => (argument? outer (Atom.untaggedAll args) name).or
            (argument? inner args' name)) code ∧
        (args.length = outer.length → Atom.freezeAll (c.bind args') c.code =
          Atom.freezeAll (both.bind (Atom.untaggedAll args ++ args')) both.code) := by
  intro o both
  have hbody : Atom.freezeAll (o.bind args) o.code =
      Atom.substituteAll (argument? outer args) code := freezeAll_frame hcode outer args
  have hfree : Atom.upvalueFreeAll (Atom.freezeAll (o.bind args) o.code) = true := by
    rw [hbody]
    refine Atom.upvalueFreeAll_substituteAll (fun name a ha => ?_) code hcode
    exact Atom.upvalueFreeAll_iff.1 hargs a (mem_of_argument? ha)
  obtain ⟨c, m', hcall, harity, hfreeze⟩ :=
    m.exists_lambda (o.bind args) inner o.code tag tag' hfree
  refine ⟨c, m', hcall, harity, fun args' => ?_⟩
  rw [hfreeze, hbody, substituteAll_arguments hnames]
  refine ⟨rfl, fun hlength => ?_⟩
  have hlength' : (Atom.untaggedAll args).length = outer.length := by
    rw [Atom.untaggedAll_eq_map, List.length_map, hlength]
  rw [freezeAll_frame hcode]
  congr 1
  funext name
  exact (argument?_append hlength' inner args' name).symm

/-- The body `(f x y (w z x))` in a lambda with the names `x` and `w`, of which only `x` is bound,
and in that a lambda with the names `y` and `z`, of which only `y` is bound. -/
theorem lambda_nested_unbound :
    let f : Atom := .symbol (ascii "f")
    let w : Atom := .symbol (ascii "w")
    let x : Atom := .symbol (ascii "x")
    let y : Atom := .symbol (ascii "y")
    let z : Atom := .symbol (ascii "z")
    let code : List Atom := [f, x, y, .list [w, z, x] none]
    let arg : Atom := .list [f, .nil] none
    let o := ClosureOf.compile code [ascii "x", ascii "w"]
    (Atom.upvalueFreeAll code = true ∧ Atom.upvalueFreeAll [arg] = true ∧
      Atom.nameFreeAll [ascii "y", ascii "z"] [arg] = true) ∧
    ∃ c m', ({} : Machine).callBuiltin .lambda (o.bind [arg])
        [.list [y, z] none, .list o.code none] = (.ok (.closure c), m') ∧
      c.arity = 2 ∧ Atom.freezeAll (c.bind [.bool true]) c.code =
        [f, arg, .bool true, .list [w, z, arg] none] := by
  intro f w x y z code arg o
  have hcode : Atom.upvalueFreeAll code = true := rfl
  have hargs : Atom.upvalueFreeAll [arg] = true := rfl
  have hnames : Atom.nameFreeAll [ascii "y", ascii "z"] [arg] = true := by decide
  obtain ⟨c, m', hcall, harity, hfreeze⟩ :=
    lambda_nested hcode [ascii "x", ascii "w"] [ascii "y", ascii "z"] hargs hnames {} none none
  exact ⟨⟨hcode, hargs, hnames⟩, c, m', hcall, harity, (hfreeze [.bool true]).1⟩

end SlotLisp
