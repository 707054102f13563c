import SlotLisp.Proofs.Levels
import SlotLisp.Proofs.PureEvaluation

/-!
# Passing parameters on

A call binds its parameters as they are. In the code of a closure a parameter is an upvalue, so a
closure whose code is a call of another closure passes on its upvalues and not what its slots hold:
the arguments never arrive. A call that is a lazy argument is different, because its items are
resolved before it is made.

**Theorem (`evaluate_passing_on`).** Unless the limit on nested evaluations is met, a closure made
by `(lambda (x ...) (g x ...))` does on all arguments what `g` does on the upvalues of `x ...`, and
a closure made by `(lambda (x ...) (if true (g x ...)))` does what `g` does on the arguments.
-/

namespace SlotLisp

/-- What `(lambda (names) body)` makes. -/
def Machine.lambda (m : Machine) (context : Closure) (names : List Text) (body : List Atom) :
    Except EvalError Atom :=
  (m.callBuiltin .lambda context [.list (names.map .symbol) none, .list body none]).1

/-! ## Making closures -/

namespace Atom

/-- Neither the atom nor a row that it stands in needs a tag. -/
structure IsPlain (a : Atom) : Prop where
  identify : identify a = pure a
  isNaN : a.isNaN = false

theorem isPlain_symbol (name : Text) : (symbol name).IsPlain := ⟨rfl, rfl⟩

theorem isPlain_symbols (names : List Text) : ∀ a ∈ names.map symbol, a.IsPlain := by
  intro a ha
  obtain ⟨name, -, rfl⟩ := List.mem_map.1 ha
  exact isPlain_symbol name

theorem isPlain_upvalue (i : ℕ) (name : Text) : (upvalue i name).IsPlain := ⟨rfl, rfl⟩

section Rows

variable {items : List Atom} (h : ∀ a ∈ items, a.IsPlain)
include h

theorem tagRow_of_isPlain : tagRow items = pure none := by
  have hnan : items.any Atom.isNaN = false := by
    rw [List.any_eq_false]
    intro a ha
    simp [(h a ha).isNaN]
  rw [tagRow, hnan]
  rfl

theorem identifyAll_of_isPlain : identifyAll items = pure items := by
  induction items with
  | nil => rfl
  | cons a as ih =>
    obtain ⟨ha, has⟩ := List.forall_mem_cons.1 h
    rw [identifyAll, ha.identify, ih has]
    rfl

theorem isPlain_list : (list items none).IsPlain := by
  refine ⟨?_, rfl⟩
  rw [Atom.identify, identifyAll_of_isPlain h]
  simp [newList, tagRow_of_isPlain h]

end Rows

theorem newClosure_of_isPlain {slots code : List Atom} (hslots : ∀ a ∈ slots, a.IsPlain)
    (hcode : ∀ a ∈ code, a.IsPlain) :
    newClosure ⟨slots, code, none, none⟩ = pure ⟨slots, code, none, none⟩ := by
  simp [newClosure, identifyAll_of_isPlain hslots, identifyAll_of_isPlain hcode,
    tagRow_of_isPlain hslots, tagRow_of_isPlain hcode]

end Atom

theorem mapM_symbolName? (names : List Text) :
    (names.map Atom.symbol).mapM Atom.symbolName? = some names := by
  induction names with
  | nil => rfl
  | cons name names ih => simp [Atom.symbolName?, ih]

/-- What `lambda` makes of names and a body: the body is frozen in the context and then compiled. -/
theorem Eval.outcome_lambda (context : Closure) (names : List Text) (body : List Atom)
    (tag tag' : Tag) (s : Store) :
    ∃ s', outcome (lambda context [.list (names.map .symbol) tag, .list body tag']) s =
      (.ok (.closure ((Atom.newClosure (.compile (Atom.freezeAll context body) names)).run
        s.nextTag).1), s') := by
  have hresolve := outcome_resolveAll context [.list (names.map .symbol) tag, .list body tag'] s
  rw [lambda, outcome_bind_of_ok hresolve]
  simp only [List.map_cons, ClosureOf.meaning, ClosureOf.resolve, mapM_symbolName?]
  cases Note.ofCompile names with
  | none => exact ⟨_, rfl⟩
  | some note => exact ⟨_, rfl⟩

/-- Where nothing is captured from the context and nothing needs a tag, `lambda` compiles. -/
theorem Machine.lambda_eq (m : Machine) {context : Closure} {names : List Text} {body : List Atom}
    (hne : names ≠ []) (hbody : Atom.freezeAll context body = body)
    (hcode : ∀ a ∈ Atom.captureAll names body, a.IsPlain) :
    m.lambda context names body = .ok (.closure (.compile body names)) := by
  have hcompile : ClosureOf.compile body names =
      ⟨names.map .symbol, Atom.captureAll names body, none, none⟩ := by
    rw [ClosureOf.compile, if_neg (by simpa using hne)]
  obtain ⟨s, hs⟩ := Eval.outcome_lambda context names body none none m.store
  rw [Machine.lambda, Machine.callBuiltin, Machine.onStore_eq, Builtin.run, hs, hbody, hcompile,
    Atom.newClosure_of_isPlain (Atom.isPlain_symbols names) hcode]
  rfl

/-! ## Calls of parameters -/

section Calls

variable {n : ℕ} (names : Fin n → Text)

/-- The symbols of the parameters, as they are written. -/
def parameters : List Atom := List.ofFn fun i => .symbol (names i)

/-- The upvalues of the parameters, as they stand in the code of a closure. -/
def references : List Atom := List.ofFn fun i => .upvalue i (names i)

variable {names}

theorem capture_other {name : Text} (h : ∀ i, names i ≠ name) :
    Atom.capture (List.ofFn names) (.symbol name) = .symbol name := by
  have hidx : (List.ofFn names).idxOf? name = none := by
    refine List.idxOf?_eq_none_iff.2 fun hmem => ?_
    obtain ⟨i, hi⟩ := (List.mem_ofFn' _ _).1 hmem
    exact h i hi
  rw [Atom.capture, hidx]

theorem captureAll_parameters (hinj : Function.Injective names) :
    Atom.captureAll (List.ofFn names) (parameters names) = references names := by
  rw [Atom.captureAll_eq_map, parameters, List.map_ofFn, references]
  congr 1
  funext i
  exact Expression.capture_param hinj i

theorem freezeAll_parameters (context : Closure) :
    Atom.freezeAll context (parameters names) = parameters names := by
  rw [Atom.freezeAll_eq_map, parameters, List.map_ofFn]
  rfl

theorem isPlain_references : ∀ a ∈ references names, a.IsPlain := by
  intro a ha
  obtain ⟨i, rfl⟩ := (List.mem_ofFn' _ _).1 ha
  exact Atom.isPlain_upvalue i (names i)

/-- In a frame that is bound to arguments for all parameters, references mean the arguments. -/
theorem map_meaning_references {c : Closure} (hc : c.arity = n) (g : Globals) (vs : Fin n → Atom) :
    (references names).map ((c.bind (List.ofFn vs)).meaning g) = List.ofFn vs := by
  rw [references, List.map_ofFn]
  congr 1
  funext i
  have harity : i.val < c.arity := hc ▸ i.isLt
  have hargs : i.val < (List.ofFn vs).length := by simp
  show (c.bind (List.ofFn vs)).slot i = vs i
  rw [ClosureOf.slot_bind harity hargs, List.getElem_ofFn]

end Calls

/-! ## What arrives -/

namespace Eval

variable {s : Store} {context : Closure} {f c : Closure} {g : Text} {refs : List Atom}

/-- A run that is refused at once meets the limit. -/
theorem refusals_evaluate_zero (context : Closure) (head : Atom) (params : List Atom) (s : Store) :
    (outcome (evaluate 0 context (head :: params)) s).2.refusals = s.refusals + 1 := by
  rw [evaluate, outcome_refuse, Store.refusals, Store.refusals, Array.count_push_self]

/-- The arguments of a closure whose code is a call of a closure do not arrive: what it passes on
are the parameters in its code. -/
theorem outcome_evaluate_forward (hg : s.globals.find? g = some (.closure c))
    (hf : f.code = .symbol g :: refs) {k : ℕ} (vs : List Atom)
    (h : (outcome (evaluate k context (.closure f :: vs)) s).2.refusals = s.refusals) :
    outcome (evaluate k context (.closure f :: vs)) s =
      outcome (evaluate k context (.symbol g :: refs)) s := by
  rcases k with _ | _ | k
  · rfl
  · rw [outcome_evaluate_closure (c := f) rfl, hf, refusals_evaluate_zero] at h
    omega
  · rw [outcome_evaluate_closure (c := f) rfl, hf,
      outcome_evaluate_closure (callee_of_find? hg)] at h ⊢
    rw [outcome_evaluate_closure (callee_of_find? hg)]
    exact (outcome_evaluate_of_le (Nat.le_succ k) h).symm

/-- As a branch of `if`, the same call is made with what the parameters mean in the frame. -/
theorem outcome_evaluate_branch (hg : s.globals.find? g = some (.closure c))
    (hif : s.globals.find? Builtin.branch.name = some (.native .branch))
    (htrue : s.globals.find? Constant.true.name = some (.bool true))
    (hf : f.code = [.symbol Builtin.branch.name, .symbol Constant.true.name,
      .list (.symbol g :: refs) none]) {k : ℕ} {vs : List Atom}
    (hrefs : refs.map ((f.bind vs).meaning s.globals) = vs)
    (h : (outcome (evaluate k context (.closure f :: vs)) s).2.refusals = s.refusals) :
    outcome (evaluate k context (.closure f :: vs)) s =
      outcome (evaluate k context (.symbol g :: vs)) s := by
  have hcall (k : ℕ) :
      outcome (branch (evaluate k) (f.bind vs) [.symbol Constant.true.name,
          .list (.symbol g :: refs) none]) s =
        outcome (evaluate k (f.bind vs) (.closure c :: vs)) s := by
    have hcond : outcome (lazyArgument (evaluate k) (f.bind vs) (.symbol Constant.true.name)) s =
        (.ok (.bool true), s) := by
      rw [lazyArgument_of_not_list rfl, outcome_resolve]
      exact congrArg (fun a => (Except.ok a, s)) (callee_of_find? htrue)
    have hhead : (f.bind vs).meaning s.globals (.symbol g) = .closure c := callee_of_find? hg
    rw [branch, outcome_bind_of_ok hcond]
    show outcome (lazyArgument (evaluate k) (f.bind vs) (.list (.symbol g :: refs) none)) s = _
    rw [outcome_lazyArgument_list, List.map_cons, hhead, hrefs]
  rcases k with _ | _ | k
  · rfl
  · rw [outcome_evaluate_closure (c := f) rfl, hf, refusals_evaluate_zero] at h
    omega
  · rw [outcome_evaluate_closure (c := f) rfl, hf,
      outcome_evaluate_native (callee_of_find? hif), Builtin.run, hcall] at h ⊢
    rw [outcome_evaluate_closure (callee_of_find? hg)]
    cases k with
    | zero =>
      rw [refusals_evaluate_zero] at h
      omega
    | succ k =>
      rw [outcome_evaluate_closure (c := c) rfl] at h ⊢
      exact (outcome_evaluate_of_le (by omega) h).symm

end Eval

/-- **Parameters are passed on as they are.** Let the global `g` be a closure, and let there be at
least one parameter, with names that differ from each other and from `g`.

The closure that `lambda` makes of the call `(g x ...)` does, whatever its arguments are, what `g`
does on its references to `x ...`. The closure that `lambda` makes of `(if true (g x ...))`, where
`if` and `true` are what they are at the start and not among the names, does what `g` does on the
arguments. Both hold of all runs that do not meet the limit on nested evaluations. -/
theorem evaluate_passing_on (m : Machine) (context : Closure) {n : ℕ} (hn : 0 < n)
    (names : Fin n → Text) (hinj : Function.Injective names) {g : Text} (hg : ∀ i, names i ≠ g)
    {c : Closure} (hc : m.lookup g = some (.closure c)) :
    (∃ f : Closure,
      m.lambda context (List.ofFn names) (.symbol g :: parameters names) = .ok (.closure f) ∧
        ∀ vs : Fin n → Atom, ¬m.MeetsLimit context (.closure f :: List.ofFn vs) →
          m.evaluate context (.closure f :: List.ofFn vs) =
            m.evaluate context (.symbol g :: references names)) ∧
    ((∀ i, names i ≠ Builtin.branch.name) → (∀ i, names i ≠ Constant.true.name) →
      m.lookup Builtin.branch.name = some (.native .branch) →
      m.lookup Constant.true.name = some (.bool true) →
      ∃ f : Closure,
        m.lambda context (List.ofFn names) [.symbol Builtin.branch.name,
          .symbol Constant.true.name, .list (.symbol g :: parameters names) none] =
            .ok (.closure f) ∧
          ∀ vs : Fin n → Atom, ¬m.MeetsLimit context (.closure f :: List.ofFn vs) →
            m.evaluate context (.closure f :: List.ofFn vs) =
              m.evaluate context (.symbol g :: List.ofFn vs)) := by
  have hne : List.ofFn names ≠ [] := by simpa using Nat.pos_iff_ne_zero.1 hn
  have hcode (body : List Atom) : (ClosureOf.compile body (List.ofFn names)).code =
      Atom.captureAll (List.ofFn names) body := by
    rw [ClosureOf.compile, if_neg (by simpa using hne)]
  have hcall : Atom.captureAll (List.ofFn names) (.symbol g :: parameters names) =
      .symbol g :: references names := by
    rw [Atom.captureAll, capture_other hg, captureAll_parameters hinj]
  have hfreeze : Atom.freezeAll context (.symbol g :: parameters names) =
      .symbol g :: parameters names := by
    rw [Atom.freezeAll, freezeAll_parameters]
    rfl
  have hplain : ∀ a ∈ .symbol g :: references names, a.IsPlain :=
    List.forall_mem_cons.2 ⟨Atom.isPlain_symbol g, isPlain_references⟩
  constructor
  · refine ⟨_, m.lambda_eq hne hfreeze (hcall ▸ hplain), fun vs hlimit => ?_⟩
    exact Machine.onStore_eq_iff.2 (Eval.outcome_evaluate_forward hc
      ((hcode _).trans hcall) _ (Machine.refusals_of_not_meetsLimit hlimit))
  · intro hif htrue hbranch hconst
    have hbody : Atom.captureAll (List.ofFn names) [.symbol Builtin.branch.name,
        .symbol Constant.true.name, .list (.symbol g :: parameters names) none] =
          [.symbol Builtin.branch.name, .symbol Constant.true.name,
            .list (.symbol g :: references names) none] := by
      simp only [Atom.captureAll, capture_other hif, capture_other htrue]
      rw [Atom.capture, hcall]
    have hfreeze' : Atom.freezeAll context [.symbol Builtin.branch.name,
        .symbol Constant.true.name, .list (.symbol g :: parameters names) none] =
          [.symbol Builtin.branch.name, .symbol Constant.true.name,
            .list (.symbol g :: parameters names) none] := by
      simp only [Atom.freezeAll, Atom.freeze, ClosureOf.resolve, freezeAll_parameters]
    have hplain' : ∀ a ∈ Atom.captureAll (List.ofFn names) [.symbol Builtin.branch.name,
        .symbol Constant.true.name, .list (.symbol g :: parameters names) none], a.IsPlain := by
      simp only [hbody, List.forall_mem_cons]
      exact ⟨Atom.isPlain_symbol _, Atom.isPlain_symbol _, Atom.isPlain_list hplain, by simp⟩
    refine ⟨_, m.lambda_eq hne hfreeze' hplain', fun vs hlimit => ?_⟩
    have harity : (ClosureOf.compile [.symbol Builtin.branch.name, .symbol Constant.true.name,
        .list (.symbol g :: parameters names) none] (List.ofFn names)).arity = n := by
      rw [ClosureOf.arity_compile, List.length_ofFn]
    exact Machine.onStore_eq_iff.2 (Eval.outcome_evaluate_branch hc hbranch hconst
      ((hcode _).trans hbody) (map_meaning_references harity _ vs)
      (Machine.refusals_of_not_meetsLimit hlimit))

/-- Where `g` is made by `(lambda (a) (= a 1))`, the closure made by `(lambda (x) (g x))` gives
`false` on one, and `g` gives `true`. Neither run meets the limit. -/
theorem evaluate_passing_on_equal :
    let one : Atom := .number ⟨0x3f800000⟩
    let g : Atom := .symbol (ascii "g")
    let m : Machine := ({} : Machine).bind (ascii "g")
      (.closure (.compile [.symbol (ascii "="), .symbol (ascii "a"), one] [ascii "a"]))
    ∃ f : Closure, m.lambda .empty [ascii "x"] [g, .symbol (ascii "x")] = .ok (.closure f) ∧
      ¬m.MeetsLimit .empty [.closure f, one] ∧ ¬m.MeetsLimit .empty [g, one] ∧
      (m.evaluate .empty [.closure f, one]).1 = .ok (.bool false) ∧
      (m.evaluate .empty [g, one]).1 = .ok (.bool true) :=
  ⟨_, rfl, Nat.lt_irrefl 0, Nat.lt_irrefl 0, rfl, rfl⟩

/-- The closures made by `(lambda (x y) (g x y))` and `(lambda (x y) (if true (g x y)))`, on `pi`
and a list, where `g` is made by `(lambda (a b) (print b a))`. -/
theorem evaluate_passing_on_print :
    let names : Fin 2 → Text := ![ascii "x", ascii "y"]
    let vs : Fin 2 → Atom := ![.symbol (ascii "pi"), .list [.symbol (ascii "+")] none]
    let g : Atom := .symbol (ascii "g")
    let m : Machine := ({} : Machine).bind (ascii "g") (.closure (.compile
      [.symbol (ascii "print"), .symbol (ascii "b"), .symbol (ascii "a")] [ascii "a", ascii "b"]))
    ∃ f f' : Closure,
      m.lambda .empty [ascii "x", ascii "y"] (g :: parameters names) = .ok (.closure f) ∧
      m.lambda .empty [ascii "x", ascii "y"] [.symbol (ascii "if"), .symbol (ascii "true"),
        .list (g :: parameters names) none] = .ok (.closure f') ∧
      m.evaluate .empty (.closure f :: List.ofFn vs) = m.evaluate .empty (g :: references names) ∧
      m.evaluate .empty (.closure f' :: List.ofFn vs) = m.evaluate .empty (g :: List.ofFn vs) := by
  intro names vs g m
  have hinj : ∀ i j, names i = names j → i = j := by decide
  obtain ⟨⟨f, hf, hforward⟩, hbranch⟩ := evaluate_passing_on m .empty (by decide) names hinj
    (g := ascii "g") (by decide) rfl
  obtain ⟨f', hf', hpass⟩ := hbranch (by decide) (by decide) rfl rfl
  refine ⟨f, f', hf, hf', hforward vs ?_, hpass vs ?_⟩
  · cases hf
    exact Nat.lt_irrefl 0
  · cases hf'
    exact Nat.lt_irrefl 0

end SlotLisp
