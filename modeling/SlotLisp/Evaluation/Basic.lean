import SlotLisp.Closure
import SlotLisp.Globals
import SlotLisp.Log

/-!
# What evaluations do

An evaluation reads and changes a store, and fails or gives a value. What it shows to the outside is
kept in the store too, in a journal.
-/

namespace SlotLisp

/-!
## Diagnostics of evaluation

Evaluation notes what it refuses and what it defines. Notes go to the debug log.
-/

/-- The ways in which a builtin can be called wrongly. -/
inductive Misuse where
  | missingCondition
  | malformedLambda
  | parameterNotSymbol
  | missingValue
  | formNotList
  | malformedMap
  | notSequence
deriving DecidableEq, Repr

namespace Misuse

def builtin : Misuse → Builtin
  | missingCondition => .branch
  | malformedLambda => .lambda
  | parameterNotSymbol => .lambda
  | missingValue => .global
  | formNotList => .eval
  | malformedMap => .map
  | notSequence => .map

def reason : Misuse → Text
  | missingCondition => ascii "missing condition"
  | malformedLambda => ascii "expected (lambda (names...) (body...))"
  | parameterNotSymbol => ascii "upvalue names must be symbols"
  | missingValue => ascii "missing value"
  | formNotList => ascii "every parameter must be a list"
  | malformedMap => ascii "expected (map func list)"
  | notSequence => ascii "second parameter must yield a list"

end Misuse

inductive Note where
  | emptyCall
  | depthReached
  | notCallable (typeName : Text)
  | misused (m : Misuse)
  | unnamedGlobal
  | bound (name typeName : Text)
  | compiled (arity : Nat)
deriving DecidableEq, Repr

namespace Note

/-- What compiling a closure with these parameter names notes. -/
def ofCompile (names : List Text) : Option Note :=
  if names.isEmpty then none else some (compiled names.length)

/-- The text of a note in a machine with the given depth limit. Names are shown up to their first
zero byte. -/
def text (limit : Nat) : Note → Text
  | emptyCall => ascii "evaluate: empty list"
  | depthReached => ascii "evaluate: nesting depth " ++ Text.ofNat limit ++ ascii " reached"
  | notCallable t => ascii "evaluate: " ++ t ++ ascii " is not a function"
  | misused m => m.builtin.name ++ ascii ": " ++ m.reason
  | unnamedGlobal => ascii "global: first parameter does not name a symbol"
  | bound name t => ascii "global: binding '" ++ name.upToNul ++ ascii "' to " ++ t
  | compiled n => ascii "compiled closure with " ++ Text.ofNat n ++ ascii " upvalue(s)"

def entry (limit : Nat) (n : Note) : LogEntry := ⟨.debug, n.text limit⟩

end Note

/-!
## The journal of an evaluation

What an evaluation shows to the outside, in order.
-/

inductive Event where
  /-- A line for the standard output. -/
  | printed (line : Text)
  /-- A note for the debug log. -/
  | noted (note : Note)
deriving DecidableEq, Repr

/-- What an event writes, in a machine with the given depth limit. -/
def Event.output (logger : Logger) (limit : Nat) : Event → Output
  | printed line => ⟨line ++ ascii "\n", []⟩
  | noted n => ⟨[], logger.write (n.entry limit)⟩

/-!
## The store of an evaluation

What evaluation reads and changes: the globals, a journal of what happened in order, and the counter
that tags are drawn from. A failing evaluation keeps its changes up to the failure.
-/

structure Store where
  globals : Globals := .initial
  journal : Array Event := #[]
  nextTag : Nat := 0

/-- A computation on the store that gives a result or fails. -/
abbrev Eval := ExceptT EvalError (StateM Store)

namespace Eval

variable {α : Type}

def record (e : Event) : Eval Unit :=
  modify fun s => { s with journal := s.journal.push e }

def note (n : Note) : Eval Unit := record (.noted n)

/-- Notes why, and fails. -/
def refuse (n : Note) (e : EvalError) : Eval α := do
  note n
  throw e

def misuse (m : Misuse) : Eval α := refuse (.misused m) .invalidUsage

/-- Writes a line to the standard output. It ends at its first zero byte. -/
def print (line : Text) : Eval Unit := record (.printed line.upToNul)

def bindGlobal (name : Text) (value : Atom) : Eval Unit :=
  modify fun s => { s with globals := s.globals.bind name value }

/-- Runs a computation that draws tags. -/
def tagging (m : StateM Nat α) : Eval α :=
  modifyGet fun s =>
    let (a, n) := m.run s.nextTag
    (a, { s with nextTag := n })

/-- The meaning of an atom that is not called: an upvalue is what its slot holds, and a symbol is
the global of that name, if there is one. -/
def resolve (context : Closure) (a : Atom) : Eval Atom := do
  match a with
  | .symbol s => return (← get).globals.valueOf s
  | a => return context.resolve a

end Eval

/-!
## Obtaining arguments

Functions receive their parameters as they are written and choose how to obtain arguments from them.

* A *resolved* argument is the meaning of the parameter, with lists left alone.
* A *lazy* argument resolves the items of a list once and calls it.
* A *strict* argument obtains the items of a list as strict arguments, to any depth, and calls it.

A call is made through `call`, the evaluator for calls nested one level deeper.
-/

/-- An evaluator of calls: in the context of a closure, a list of a function and its parameters. -/
abbrev Evaluator := Closure → List Atom → Eval Atom

namespace Eval

def resolveAll (context : Closure) : List Atom → Eval (List Atom)
  | [] => return []
  | a :: as => return (← resolve context a) :: (← resolveAll context as)

def lazyArgument (call : Evaluator) (context : Closure) : Atom → Eval Atom
  | .list items _ => do call context (← resolveAll context items)
  | a => resolve context a

mutual

def strictArgument (call : Evaluator) (context : Closure) : Atom → Eval Atom
  | .list items _ => do call context (← strictArguments call context items)
  | a => resolve context a

/-- Strict arguments, in order. The first that fails ends the evaluation. -/
def strictArguments (call : Evaluator) (context : Closure) : List Atom → Eval (List Atom)
  | [] => return []
  | a :: as => return (← strictArgument call context a) :: (← strictArguments call context as)

end

end Eval

end SlotLisp
