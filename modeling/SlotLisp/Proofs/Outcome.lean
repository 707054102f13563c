import SlotLisp.Evaluation.Machine

/-!
# Outcomes of computations

The outcome of a computation on a store is its result or failure together with the store that it
leaves. This file opens the computations of the evaluator once and for all: each of them gets an
equation for its outcome, and later proofs use these and not the monad.

Resolving is a pure reading of the store. `ClosureOf.meaning` is what it reads, and a row of
parameters is resolved by taking meanings (`outcome_resolveAll`).
-/

namespace SlotLisp

namespace Eval

variable {α β : Type} {s s' : Store}

/-- What a computation gives on a store, and the store that it leaves. -/
def outcome (m : Eval α) (s : Store) : Except EvalError α × Store := m.run.run s

@[simp] theorem outcome_pure (a : α) (s : Store) : outcome (pure a) s = (.ok a, s) := rfl

theorem outcome_bind (m : Eval α) (f : α → Eval β) (s : Store) :
    outcome (m >>= f) s = match outcome m s with
      | (.ok a, s') => outcome (f a) s'
      | (.error e, s') => (.error e, s') := by
  show StateT.run (ExceptT.bindCont f (outcome m s).1) (outcome m s).2 = _
  rcases outcome m s with ⟨_ | _, _⟩ <;> rfl

/-- A computation goes on with what its first part gives. -/
theorem outcome_bind_of_ok {m : Eval α} {a : α} (h : outcome m s = (.ok a, s'))
    (f : α → Eval β) : outcome (m >>= f) s = outcome (f a) s' := by
  rw [outcome_bind, h]

/-- A computation fails with its first part. -/
theorem outcome_bind_of_error {m : Eval α} {e : EvalError} (h : outcome m s = (.error e, s'))
    (f : α → Eval β) : outcome (m >>= f) s = (.error e, s') := by
  rw [outcome_bind, h]

/-! ## Steps -/

@[simp] theorem outcome_throw (e : EvalError) (s : Store) :
    outcome (throw e : Eval α) s = (.error e, s) := rfl

/-- A failure becomes an error atom. -/
theorem outcome_reified (m : Eval Atom) (s : Store) :
    outcome (reified m) s = match outcome m s with
      | (.ok a, s') => (.ok a, s')
      | (.error e, s') => (.ok (.error e), s') := by
  rw [outcome, reified, ExceptT.run_tryCatch, StateT.run_bind]
  unfold outcome
  generalize StateT.run (ExceptT.run m) s = p
  rcases p with ⟨_ | _, _⟩ <;> rfl

@[simp] theorem outcome_record (e : Event) (s : Store) :
    outcome (record e) s = (.ok (), { s with journal := s.journal.push e }) := rfl

@[simp] theorem outcome_bindGlobal (name : Text) (value : Atom) (s : Store) :
    outcome (bindGlobal name value) s =
      (.ok (), { s with globals := s.globals.bind name value }) := rfl

@[simp] theorem outcome_tagging (m : StateM Nat α) (s : Store) :
    outcome (tagging m) s =
      (.ok (m.run s.nextTag).1, { s with nextTag := (m.run s.nextTag).2 }) := rfl

theorem outcome_refuse (n : Note) (e : EvalError) (s : Store) :
    outcome (refuse n e : Eval α) s =
      (.error e, { s with journal := s.journal.push (.noted n) }) := rfl

end Eval

/-! ## Resolving -/

/-- What an atom means in the context of a closure: an upvalue is what its slot holds, a symbol the
global of that name if there is one, and any other atom itself. -/
def ClosureOf.meaning (c : Closure) (g : Globals) : Atom → Atom
  | .symbol name => g.valueOf name
  | a => c.resolve a

/-- What the head of a call stands for. Only symbols are looked up. -/
def Globals.callee (g : Globals) : Atom → Atom
  | .symbol name => g.valueOf name
  | a => a

namespace Eval

variable {call : Evaluator} {context : Closure} {s s' : Store}

@[simp] theorem outcome_resolve (context : Closure) (a : Atom) (s : Store) :
    outcome (resolve context a) s = (.ok (context.meaning s.globals a), s) := by
  cases a <;> rfl

@[simp] theorem outcome_resolveAll (context : Closure) (params : List Atom) (s : Store) :
    outcome (resolveAll context params) s = (.ok (params.map (context.meaning s.globals)), s) := by
  induction params with
  | nil => rfl
  | cons a as ih =>
    rw [resolveAll, outcome_bind_of_ok (outcome_resolve context a s), outcome_bind_of_ok ih]
    rfl

@[simp] theorem outcome_function (head : Atom) (s : Store) :
    outcome (function head) s = (.ok (s.globals.callee head), s) := by
  cases head <;> rfl

theorem callee_of_find? {name : Text} {a : Atom} (h : s.globals.find? name = some a) :
    s.globals.callee (.symbol name) = a := by
  show (s.globals.find? name).getD _ = _
  rw [h]
  rfl

/-! ## Arguments -/

/-- A list as a lazy argument is called with its items resolved. -/
theorem outcome_lazyArgument_list (call : Evaluator) (context : Closure) (items : List Atom)
    (tag : Tag) (s : Store) :
    outcome (lazyArgument call context (.list items tag)) s =
      outcome (call context (items.map (context.meaning s.globals))) s := by
  rw [lazyArgument, outcome_bind_of_ok (outcome_resolveAll context items s)]

theorem lazyArgument_of_not_list {a : Atom} (h : a.isList = false) :
    lazyArgument call context a = resolve context a := by
  cases a with
  | list items tag => cases h
  | _ => rfl

theorem strictArgument_of_not_list {a : Atom} (h : a.isList = false) :
    strictArgument call context a = resolve context a := by
  cases a with
  | list items tag => cases h
  | _ =>
    rw [strictArgument]
    simp

/-- A list as a strict argument is called with the strict values of its parameters. -/
theorem outcome_strictArgument_list {head : Atom} {params vs : List Atom}
    (hhead : head.isList = false)
    (h : outcome (strictArguments call context params) s = (.ok vs, s')) (tag : Tag) :
    outcome (strictArgument call context (.list (head :: params) tag)) s =
      outcome (call context (context.meaning s.globals head :: vs)) s' := by
  have hrow : outcome (strictArguments call context (head :: params)) s =
      (.ok (context.meaning s.globals head :: vs), s') := by
    rw [strictArguments, strictArgument_of_not_list hhead,
      outcome_bind_of_ok (outcome_resolve context head s), outcome_bind_of_ok h]
    rfl
  rw [strictArgument, outcome_bind_of_ok hrow]

/-- A call only depends on what its head stands for. -/
theorem outcome_evaluate_head {head head' : Atom}
    (h : s.globals.callee head = s.globals.callee head') (levels : Nat) (context : Closure)
    (params : List Atom) :
    outcome (evaluate levels context (head :: params)) s =
      outcome (evaluate levels context (head' :: params)) s := by
  cases levels with
  | zero => rfl
  | succ levels =>
    rw [evaluate, evaluate, outcome_bind_of_ok (outcome_function head s),
      outcome_bind_of_ok (outcome_function head' s), h]

/-- A closure is bound to the parameters as they are. -/
theorem outcome_evaluate_closure {head : Atom} {c : Closure}
    (h : s.globals.callee head = .closure c) (levels : Nat) (context : Closure)
    (params : List Atom) :
    outcome (evaluate (levels + 1) context (head :: params)) s =
      outcome (evaluate levels (c.bind params) c.code) s := by
  rw [evaluate, outcome_bind_of_ok (outcome_function head s), h]

/-- A builtin is called with the parameters as they are. -/
theorem outcome_evaluate_native {head : Atom} {f : Builtin}
    (h : s.globals.callee head = .native f) (levels : Nat) (context : Closure)
    (params : List Atom) :
    outcome (evaluate (levels + 1) context (head :: params)) s =
      outcome (f.run (evaluate levels) context params) s := by
  rw [evaluate, outcome_bind_of_ok (outcome_function head s), h]

end Eval

/-! ## Machines -/

namespace Machine

/-- Obtains a strict argument, as `+`, `*`, `=` and `print` do. -/
def strictArgument (m : Machine) (context : Closure) (a : Atom) :
    Except EvalError Atom × Machine :=
  m.onStore (Eval.strictArgument (SlotLisp.evaluate m.levels) context a).run

/-- Obtains a row of strict arguments. -/
def strictArguments (m : Machine) (context : Closure) (row : List Atom) :
    Except EvalError (List Atom) × Machine :=
  m.onStore (Eval.strictArguments (SlotLisp.evaluate m.levels) context row).run

/-- Obtains a lazy argument, as `if`, `neg`, `global` and `map` do. -/
def lazyArgument (m : Machine) (context : Closure) (a : Atom) :
    Except EvalError Atom × Machine :=
  m.onStore (Eval.lazyArgument (SlotLisp.evaluate m.levels) context a).run

/-- What the atoms of a row mean, with lists left alone. -/
def resolved (m : Machine) (context : Closure) (row : List Atom) : List Atom :=
  row.map (context.meaning m.store.globals)

variable {α : Type} {m : Machine} {f g : Eval α}

theorem onStore_eq (m : Machine) (f : Eval α) :
    m.onStore f.run =
      ((Eval.outcome f m.store).1, { m with store := (Eval.outcome f m.store).2 }) := rfl

/-- On one machine, computations are told apart by their outcomes. -/
theorem onStore_eq_iff :
    m.onStore f.run = m.onStore g.run ↔ Eval.outcome f m.store = Eval.outcome g m.store := by
  rw [onStore_eq, onStore_eq, Prod.ext_iff, Prod.ext_iff, mk.injEq]
  simp only [true_and]

/-- A computation that leaves the store alone leaves the machine alone. -/
theorem onStore_eq_self_iff {r : Except EvalError α} :
    m.onStore f.run = (r, m) ↔ Eval.outcome f m.store = (r, m.store) := by
  rw [onStore_eq, Prod.ext_iff, Prod.ext_iff]
  refine and_congr_right fun _ => ⟨fun h => congrArg store h, fun h => ?_⟩
  rw [h]

theorem onStore_eq_mk_iff {r : Except EvalError α} {m' : Machine} :
    m.onStore f.run = (r, m') ↔
      ∃ s, Eval.outcome f m.store = (r, s) ∧ m' = { m with store := s } := by
  rw [onStore_eq, Prod.mk.injEq]
  constructor
  · intro h
    exact ⟨_, Prod.ext h.1 rfl, h.2.symm⟩
  · intro h
    obtain ⟨s, hs, rfl⟩ := h
    simp [hs]

section Bind

variable {β : Type} {m' : Machine}

/-- A computation goes on, on the machine that its first part leaves. -/
theorem onStore_bind_of_ok {a : α} (h : m.onStore f.run = (.ok a, m')) (k : α → Eval β) :
    m.onStore (f >>= k).run = m'.onStore (k a).run := by
  obtain ⟨s, hs, rfl⟩ := onStore_eq_mk_iff.1 h
  rw [onStore_eq, Eval.outcome_bind_of_ok hs k]
  rfl

/-- A computation fails with its first part, on the machine that this leaves. -/
theorem onStore_bind_of_error {e : EvalError} (h : m.onStore f.run = (.error e, m'))
    (k : α → Eval β) : m.onStore (f >>= k).run = (.error e, m') := by
  obtain ⟨s, hs, rfl⟩ := onStore_eq_mk_iff.1 h
  rw [onStore_eq, Eval.outcome_bind_of_error hs k]

end Bind

end Machine

end SlotLisp
