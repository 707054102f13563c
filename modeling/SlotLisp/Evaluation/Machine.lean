import SlotLisp.Evaluation.Builtins
import SlotLisp.Host

/-!
# Evaluating calls and programs

`evaluate levels` evaluates a call when `levels` more evaluations may be nested. A machine has a
limit on nested evaluations and counts those in progress, so that what is left is `limit - depth`.
-/

namespace SlotLisp

/-- The function that the head of a call stands for. Only symbols are looked up. -/
def Eval.function (head : Atom) : Eval Atom := do
  match head with
  | .symbol s => return (← get).globals.valueOf s
  | a => return a

/-- Evaluates a call: a closure is bound to the parameters and its code is evaluated, a builtin is
called, and anything else is refused. -/
def evaluate : Nat → Evaluator
  | _, _, [] => Eval.refuse .emptyCall .nonEvaluable
  | 0, _, _ :: _ => Eval.refuse .depthReached .depthExceeded
  | levels + 1, context, head :: params => do
    match ← Eval.function head with
    | .closure c => evaluate levels (c.bind params) c.code
    | .native f => f.run (evaluate levels) context params
    | a => Eval.refuse (.notCallable a.typeName) .notAFunction

/-- Evaluates a form of a program. A list is called and any other form stands for itself. -/
def Eval.form (levels : Nat) (context : Closure) : Atom → Eval Atom
  | .list items _ => evaluate levels context items
  | a => pure a

/-- Evaluates the forms of a program in order. A failing form does not keep the later ones from
being evaluated. -/
def evaluateForms (levels : Nat) (context : Closure) :
    List Atom → StateM Store (List (Except EvalError Atom))
  | [] => return []
  | form :: forms =>
    return (← (Eval.form levels context form).run) :: (← evaluateForms levels context forms)

structure Machine where
  limit : Nat := DepthLimit.standard
  /-- How many evaluations are in progress. -/
  depth : Nat := 0
  store : Store := {}

namespace Machine

variable {α : Type}

/-- How many more evaluations may be nested. -/
def levels (m : Machine) : Nat := m.limit - m.depth

/-- Runs a computation on the store of a machine. -/
def onStore (m : Machine) (f : StateM Store α) : α × Machine :=
  let (a, store) := f.run m.store
  (a, { m with store })

def evaluate (m : Machine) (context : Closure) (call : List Atom) :
    Except EvalError Atom × Machine :=
  m.onStore (SlotLisp.evaluate m.levels context call).run

/-- Calls a builtin directly, without an evaluation around it. -/
def callBuiltin (m : Machine) (f : Builtin) (context : Closure) (params : List Atom) :
    Except EvalError Atom × Machine :=
  m.onStore (f.run (SlotLisp.evaluate m.levels) context params).run

/-- Evaluates the forms of a program. -/
def run (m : Machine) (context : Closure) (forms : List Atom) :
    List (Except EvalError Atom) × Machine :=
  m.onStore (evaluateForms m.levels context forms)

def lookup (m : Machine) (name : Text) : Option Atom := m.store.globals.find? name

def bind (m : Machine) (name : Text) (value : Atom) : Machine :=
  { m with store := { m.store with globals := m.store.globals.bind name value } }

/-- Takes the events out of the journal. -/
def takeEvents (m : Machine) : List Event × Machine :=
  (m.store.journal.toList, { m with store := { m.store with journal := #[] } })

end Machine

end SlotLisp
