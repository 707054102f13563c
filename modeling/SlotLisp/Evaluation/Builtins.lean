import SlotLisp.Evaluation.Basic
import SlotLisp.Printer

/-!
# What the builtin functions do

Each builtin gets the evaluator for the calls it makes, the closure it is called in and its
parameters.
-/

namespace SlotLisp

namespace Eval

variable (call : Evaluator) (context : Closure)

/-- Calls a list, and turns a failure into an error atom. -/
def reified (m : Eval Atom) : Eval Atom := tryCatch m fun e => return .error e

/-- `(if condition then else)` obtains the condition and then one branch, lazily. A branch that is
not there is `nil`. -/
def branch : List Atom → Eval Atom
  | [] => misuse .missingCondition
  | condition :: branches => do
    let value ← lazyArgument call context condition
    match branches[if value.isTruthy then 0 else 1]? with
    | some chosen => lazyArgument call context chosen
    | none => return .nil

/-- `(lambda (names) (body))` is a closure of the body. What the enclosing closure holds in its
slots is frozen into the body. -/
def lambda (params : List Atom) : Eval Atom := do
  match ← resolveAll context params with
  | .list names _ :: .list body _ :: _ =>
    match names.mapM Atom.symbolName? with
    | none => misuse .parameterNotSymbol
    | some names => do
      (Note.ofCompile names).forM note
      let c ← tagging (Atom.newClosure (.compile (Atom.freezeAll context body) names))
      return .closure c
  | _ => misuse .malformedLambda

def quote (params : List Atom) : Eval Atom := tagging (Atom.newList params)

/-- The name that `global` binds: a symbol, or what the slot of an upvalue holds if that is one. -/
def globalName? (params : List Atom) : Option Text :=
  params.head?.bind fun a => (context.resolve a).symbolName?

/-- `(global name value)` binds a global. -/
def global (params : List Atom) : Eval Atom := do
  match globalName? context params, params[1]? with
  | none, _ => refuse .unnamedGlobal .notASymbol
  | some _, none => misuse .missingValue
  | some name, some param =>
    let value ← lazyArgument call context param
    note (.bound name value.typeName)
    bindGlobal name value
    return .nil

/-- The values of calls, in order, with errors in place of those that fail. -/
def reifiedCalls : List Atom → Eval (List Atom)
  | [] => return []
  | .list items _ :: as => return (← reified (call context items)) :: (← reifiedCalls as)
  | _ :: as => reifiedCalls as

/-- `(eval form ...)` calls every form. -/
def eval (params : List Atom) : Eval Atom := do
  if params.all Atom.isList then
    tagging (Atom.newList (← reifiedCalls call context params))
  else misuse .formNotList

def typeOf (params : List Atom) : Eval Atom := do
  return .list ((← resolveAll context params).map fun a => .string a.typeName) none

def resolveList (params : List Atom) : Eval Atom := do
  tagging (Atom.newList (← resolveAll context params))

def sum (params : List Atom) : Eval Atom := do
  let values ← strictArguments call context params
  return .number (values.foldl (fun x a => x + a.operand) .zero)

/-- The product is seeded with zero, like the sum. -/
def product (params : List Atom) : Eval Atom := do
  let values ← strictArguments call context params
  return .number (values.foldl (fun x a => x * a.operand) .zero)

/-- Whether all values equal the first. -/
def allEqual : List Atom → Bool
  | [] => true
  | v :: vs => vs.all (· == v)

def equal (params : List Atom) : Eval Atom := do
  return .bool (allEqual (← strictArguments call context params))

/-- Negates a number, and passes anything else through. -/
def negate (params : List Atom) : Eval Atom := do
  match ← lazyArgument call context (params.head?.getD .nil) with
  | .number x => return .number (-x)
  | a => return a

def printArguments (params : List Atom) : Eval Atom := do
  print (Atom.debugRow (← strictArguments call context params))
  return .nil

def printRaw (params : List Atom) : Eval Atom := do
  print (Atom.debugRow params)
  return .nil

/-- The values of a function at each element, in order. -/
def mapCalls (f : Atom) : List Atom → Eval (List Atom)
  | [] => return []
  | a :: as => return (← call context [f, a]) :: (← mapCalls f as)

/-- `(map f sequence)` obtains both lazily and calls `f` on every element. -/
def map : List Atom → Eval Atom
  | f :: sequence :: _ => do
    let f ← lazyArgument call context f
    match ← lazyArgument call context sequence with
    | .list items _ => tagging (Atom.newList (← mapCalls call context f items))
    | _ => misuse .notSequence
  | _ => misuse .malformedMap

end Eval

/-- Calls a builtin on its parameters. -/
def Builtin.run (call : Evaluator) (f : Builtin) (context : Closure) (params : List Atom) :
    Eval Atom :=
  match f with
  | .print => Eval.printArguments call context params
  | .printRaw => Eval.printRaw params
  | .branch => Eval.branch call context params
  | .lambda => Eval.lambda context params
  | .quote => Eval.quote params
  | .typeOf => Eval.typeOf context params
  | .global => Eval.global call context params
  | .resolve => Eval.resolveList context params
  | .eval => Eval.eval call context params
  | .map => Eval.map call context params
  | .sum => Eval.sum call context params
  | .product => Eval.product call context params
  | .equal => Eval.equal call context params
  | .negate => Eval.negate call context params

end SlotLisp
