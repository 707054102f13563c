import SlotLisp.Text

/-!
# Command line options

An option has a one-letter name and a long name, and may take a value.

* One-letter options stand behind one dash and can be joined: `-dq`. A value is the rest of the
  argument, or the next argument.
* A long name stands behind two dashes and can be shortened as long as it stays unambiguous. A value
  follows an equals sign, or is the next argument.
* All other arguments, and a lone dash, are operands. `--` makes all arguments after it operands.

Options and operands may be mixed unless the first operand is asked to end the options. Reading
stops at the first argument that is in error.
-/

namespace SlotLisp

/-- An option that a program knows, and what it stands for. -/
structure OptionSpec (α : Type) where
  letter : Byte
  longName : Text
  takesValue : Bool
  meaning : α
deriving DecidableEq, Repr

inductive OptionError where
  | unknownLetter (letter : Byte)
  | letterWithoutValue (letter : Byte)
  | unknownName (arg : Text)
  | ambiguousName (arg : Text) (candidates : List Text)
  | nameWithoutValue (longName : Text)
  | unexpectedValue (longName : Text)
deriving DecidableEq, Repr

namespace OptionError

def dashed (name : Text) : Text := ascii "'--" ++ name ++ ascii "'"

def message (program : Text) (e : OptionError) : Text :=
  let text := match e with
    | unknownLetter c => ascii "invalid option -- '" ++ c :: ascii "'"
    | letterWithoutValue c => ascii "option requires an argument -- '" ++ c :: ascii "'"
    | unknownName arg => ascii "unrecognized option " ++ dashed arg
    | ambiguousName arg candidates =>
      ascii "option " ++ dashed arg ++ ascii " is ambiguous; possibilities:" ++
        candidates.flatMap fun name => ascii " " ++ dashed name
    | nameWithoutValue name => ascii "option " ++ dashed name ++ ascii " requires an argument"
    | unexpectedValue name => ascii "option " ++ dashed name ++ ascii " doesn't allow an argument"
  program ++ ascii ": " ++ text ++ ascii "\n"

end OptionError

/-- What a command line says. -/
structure CommandLine (α : Type) where
  /-- The options in order, each with its value if it takes one. -/
  options : List (α × Text) := []
  /-- The error that reading stopped at. -/
  error : Option OptionError := none
  operands : List Text := []

namespace CommandLine

variable {α : Type}

/-- What remains to be done after an argument with options. -/
inductive Pending (α : Type) where
  | nothing
  /-- The next argument is the value of an option; without one the error is met. -/
  | value (meaning : α) (otherwise : OptionError)
  | failed (e : OptionError)

/-- Reads the letters of an argument behind one dash. -/
def readLetters (specs : List (OptionSpec α)) : Text → List (α × Text) × Pending α
  | [] => ([], .nothing)
  | c :: r =>
    match specs.find? (·.letter = c) with
    | none => ([], .failed (.unknownLetter c))
    | some spec =>
      if spec.takesValue then
        if r.isEmpty then ([], .value spec.meaning (.letterWithoutValue c))
        else ([(spec.meaning, r)], .nothing)
      else
        let (options, pending) := readLetters specs r
        ((spec.meaning, []) :: options, pending)

/-- The options that a long name can mean: the one of that very name, or all that it shortens. -/
def candidates (specs : List (OptionSpec α)) (name : Text) : List (OptionSpec α) :=
  match specs.find? (·.longName = name) with
  | some spec => [spec]
  | none => specs.filter fun spec => name.isPrefixOf spec.longName

/-- Reads an argument behind two dashes. -/
def readName (specs : List (OptionSpec α)) (arg : Text) : List (α × Text) × Pending α :=
  let value? := (arg.dropWhile (· != 61)).tail?
  match candidates specs (arg.takeWhile (· != 61)) with
  | [] => ([], .failed (.unknownName arg))
  | [spec] =>
    match spec.takesValue, value? with
    | false, none => ([(spec.meaning, [])], .nothing)
    | false, some _ => ([], .failed (.unexpectedValue spec.longName))
    | true, some value => ([(spec.meaning, value)], .nothing)
    | true, none => ([], .value spec.meaning (.nameWithoutValue spec.longName))
  | several => ([], .failed (.ambiguousName arg (several.map (·.longName))))

def addOptions (options : List (α × Text)) (l : CommandLine α) : CommandLine α :=
  { l with options := options ++ l.options }

/-- Reads the arguments after `pending`. With `mixed`, operands may stand before options. -/
def readFrom (specs : List (OptionSpec α)) (mixed : Bool) :
    Pending α → List Text → CommandLine α
  | .failed e, _ => { error := some e }
  | .value _ e, [] => { error := some e }
  | .value meaning _, arg :: args =>
    addOptions [(meaning, arg)] (readFrom specs mixed .nothing args)
  | .nothing, [] => {}
  | .nothing, arg :: args =>
    match arg with
    | [45, 45] => { operands := args }
    | 45 :: 45 :: name =>
      let (options, pending) := readName specs name
      addOptions options (readFrom specs mixed pending args)
    | 45 :: c :: letters =>
      let (options, pending) := readLetters specs (c :: letters)
      addOptions options (readFrom specs mixed pending args)
    | _ =>
      if mixed then
        let l := readFrom specs mixed .nothing args
        { l with operands := arg :: l.operands }
      else { operands := arg :: args }

def read (specs : List (OptionSpec α)) (mixed : Bool) (args : List Text) : CommandLine α :=
  readFrom specs mixed .nothing args

end CommandLine

end SlotLisp
