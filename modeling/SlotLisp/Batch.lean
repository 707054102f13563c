import SlotLisp.CommandLine
import SlotLisp.Evaluation.Machine
import SlotLisp.Reader

/-!
# The batch program

A source is a named text. Sources run one after the other on one machine; one that cannot be
opened or read changes nothing, and a form that fails does not stop the others.
-/

namespace SlotLisp.Batch

/-! ## Running sources -/

structure Source where
  name : Text
  /-- The text, unless the source cannot be opened. -/
  content : Option Text
  /-- Whether the source is a file, which is announced in the debug log. -/
  isFile : Bool := false
deriving Repr

namespace Source

def ofText (text : Text) : Source := ⟨ascii "<eval>", some text, false⟩

/-- A file, if it can be opened. -/
def ofFile (openFile : Text → Option Text) (name : Text) : Source := ⟨name, openFile name, true⟩

def ofInput (input : Text) : Source := ⟨ascii "<stdin>", some input, false⟩

end Source

/-- What happens while sources run. -/
inductive Event where
  | evaluation (e : SlotLisp.Event)
  | started (name : Text)
  | missing (name : Text)
  | unreadable (name : Text) (e : ReadError)
  | value (a : Atom)
  /-- The form with this number, counted from one, failed. -/
  | failed (name : Text) (form : Nat) (e : EvalError)
deriving Repr

namespace Event

def isFailure : Event → Bool
  | missing _ | unreadable _ _ | failed _ _ _ => true
  | _ => false

/-- What an event writes, in a machine with the given depth limit. Everything is shown up to its
first zero byte. -/
def output (logger : Logger) (limit : Nat) : Event → Output
  | evaluation e => e.output logger limit
  | started name => ⟨[], logger.write ⟨.debug, ascii "running " ++ name⟩⟩
  | missing name => ⟨[], logger.write ⟨.error, ascii "File not found: " ++ name⟩⟩
  | unreadable name e =>
    ⟨[], logger.write ⟨.debug, e.diagnostic⟩ ++
      logger.write ⟨.error, name ++ ascii ": " ++ e.message⟩⟩
  | value a => ⟨a.render.upToNul ++ ascii "\n", []⟩
  | failed name form e =>
    let text := name ++ ascii ": form " ++ Text.ofNat form ++ ascii " failed with " ++ e.name
    ⟨[], logger.write ⟨.error, text⟩⟩

end Event

/-- The results of forms numbered from `form` on. -/
def ofResults (name : Text) (form : Nat) : List (Except EvalError Atom) → List Event
  | [] => []
  | .ok a :: rs => .value a :: ofResults name (form + 1) rs
  | .error e :: rs => .failed name form e :: ofResults name (form + 1) rs

def runText (m : Machine) (name text : Text) : List Event × Machine :=
  match read text with
  | .error e => ([.unreadable name e], m)
  | .ok forms =>
    let (results, m) := m.run .empty forms
    let (events, m) := m.takeEvents
    (events.map .evaluation ++ ofResults name 1 results, m)

def runSource (m : Machine) (s : Source) : List Event × Machine :=
  match s.content with
  | none => ([.missing s.name], m)
  | some text =>
    let (events, m) := runText m s.name text
    (if s.isFile then .started s.name :: events else events, m)

/-- Runs sources in order, each on the machine that the one before it leaves. -/
def runSources (m : Machine) : List Source → List Event × Machine
  | [] => ([], m)
  | s :: rest =>
    let (events, m) := runSource m s
    let (later, m) := runSources m rest
    (events ++ later, m)

/-- The exit status: zero only if nothing failed. -/
def status (events : List Event) : Nat := if events.any Event.isFailure then 1 else 0

/-!
## The command line

The command line decides which sources run: texts given with `--eval`, then files, or the standard
input if there are neither. Options take effect in order, and a wrong one ends the program with
the help text.
-/

inductive Flag where
  | help
  | debug
  | quiet
  | maxDepth
  | eval
deriving DecidableEq, Repr

def flags : List (OptionSpec Flag) :=
  [⟨104, ascii "help", false, .help⟩, ⟨100, ascii "debug", false, .debug⟩,
    ⟨113, ascii "quiet", false, .quiet⟩, ⟨109, ascii "max-depth", true, .maxDepth⟩,
    ⟨101, ascii "eval", true, .eval⟩]

def programName : Text := ascii "nlisp-run"

def helpText : Text :=
  ascii "Usage: nlisp-run [options] [input.nl ...]\n\n" ++
    ascii "\t--help:[-h] = Print this help message.\n" ++
    ascii "\t--debug:[-d] = Log parser and evaluator diagnostics.\n" ++
    ascii "\t--quiet:[-q] = Only log errors.\n" ++
    ascii "\t--max-depth:[-m] N = Nested evaluation limit" ++
    ascii " (default from NLISP_MAX_DEPTH, else 2000).\n" ++
    ascii "\t--eval:[-e] TEXT = Evaluate TEXT instead of reading files.\n\n" ++
    ascii "Without input files or --eval, source is read from stdin.\n" ++
    versionText ++ ascii "\n"

/-- What the options ask for. -/
structure Settings where
  level : LogLevel
  limit : Nat
  /-- The texts given on the command line. -/
  texts : List Text := []
deriving Repr

/-- The settings that the options start from. -/
def Settings.start (h : Host) (level : LogLevel) : Settings := ⟨level, (DepthLimit.ofHost h).1, []⟩

/-- An end of the program before anything runs. -/
structure Stop where
  output : Output
  status : Nat
deriving Repr

def applyOptions (h : Host) (s : Settings) : List (Flag × Text) → Except Stop Settings
  | [] => .ok s
  | (.help, _) :: _ => .error ⟨⟨helpText, []⟩, 0⟩
  | (.debug, _) :: r => applyOptions h { s with level := .debug } r
  | (.quiet, _) :: r => applyOptions h { s with level := .error } r
  | (.eval, text) :: r => applyOptions h { s with texts := s.texts ++ [text] } r
  | (.maxDepth, text) :: r =>
    match DepthLimit.read? text with
    | some limit => applyOptions h { s with limit } r
    | none =>
      let entry : LogEntry := ⟨.error, ascii "Invalid max depth: " ++ text⟩
      .error ⟨⟨helpText, (h.logger s.level).write entry⟩, 1⟩

/-- What the command line asks to run. -/
structure Plan where
  settings : Settings
  files : List Text
deriving Repr

def Plan.readsInput (p : Plan) : Bool := p.settings.texts.isEmpty && p.files.isEmpty

/-- What the arguments of the program say. They end at their first zero byte. -/
def commandLine (h : Host) (args : List Text) : CommandLine Flag :=
  CommandLine.read flags (h.lookup? "POSIXLY_CORRECT").isNone (args.map Text.upToNul)

/-- Applies the options and looks for errors on the command line. -/
def plan (h : Host) (s : Settings) (args : List Text) : Except Stop Plan := do
  let line := commandLine h args
  let settings ← applyOptions h s line.options
  match line.error with
  | some e => throw ⟨⟨helpText, e.message programName⟩, 1⟩
  | none => return ⟨settings, line.operands⟩

/-- The sources of a plan, given how to open files and what the standard input holds. -/
def Plan.sources (p : Plan) (openFile : Text → Option Text) (input : Text) : List Source :=
  if p.readsInput then [.ofInput input]
  else p.settings.texts.map .ofText ++ p.files.map (.ofFile openFile)

/-- Runs the sources of a plan on a new machine: what happens, and the machine as it ends. -/
def Plan.run (p : Plan) (sources : List Source) : List Event × Machine :=
  runSources { limit := p.settings.limit } sources

def Plan.output (p : Plan) (h : Host) (events : List Event) : Output :=
  Output.concat (events.map (Event.output (h.logger p.settings.level) p.settings.limit))

/-- The whole program: what it writes, and its exit status. -/
def run (h : Host) (level : LogLevel) (args : List Text) (openFile : Text → Option Text)
    (input : Text) : Output × Nat :=
  let early := DepthLimit.warnings h (h.logger level)
  match plan h (.start h level) args with
  | .error stop => (early ++ stop.output, stop.status)
  | .ok p =>
    let (events, _) := p.run (p.sources openFile input)
    (early ++ p.output h events, status events)

end SlotLisp.Batch
