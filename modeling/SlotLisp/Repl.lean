import SlotLisp.Evaluation.Machine
import SlotLisp.Reader

/-!
# Interactive sessions

A session collects lines until an input has no open parentheses, evaluates it and starts anew. It is
interactive if the lines are typed at a terminal; then it prompts for them and keeps a history.
-/

namespace SlotLisp

/-!
## Commands

An input line that starts with a colon is a command to the interactive program itself.
-/

inductive Command where
  | help
  | quit
  | globals
  | debug
deriving DecidableEq, Repr

namespace Command

/-- In the order in which the help lists them. -/
def all : List Command := [help, quit, globals, debug]

def name : Command → Text
  | help => ascii ":help"
  | quit => ascii ":quit"
  | globals => ascii ":globals"
  | debug => ascii ":debug"

def shortName : Command → Text
  | help => ascii ":h"
  | quit => ascii ":q"
  | globals => ascii ":g"
  | debug => ascii ":d"

def description : Command → Text
  | help => ascii "Show this help message"
  | quit => ascii "Exit the REPL"
  | globals => ascii "Show the global symbol table"
  | debug => ascii "Toggle debug logging"

/-- Whether a line calls the command of a name, by that name or the short one. The name, which is
not itself a short one, ends at its first zero byte. -/
def isCalled (line name : Text) : Bool :=
  match all.find? (·.name = name.upToNul) with
  | some c => line = c.name || line = c.shortName
  | none => false

def ofLine? (line : Text) : Option Command := all.find? fun c => isCalled line c.name

end Command

/-- The list of commands. -/
def Console.help (c : Console) : Output :=
  let line (cmd : Command) : Text :=
    ascii "  " ++ c.brightBlue ++ cmd.name ++ c.reset ++ c.dim ++ ascii " (" ++ cmd.shortName ++
      ascii ")" ++ c.reset ++ ascii "\t" ++ cmd.description ++ ascii "\n"
  let title := c.bold ++ versionText ++ c.reset ++ ascii "\n\n"
  ⟨title ++ Command.all.flatMap line ++ ascii "\n", []⟩

/-!
## What an interactive session does

The actions of a session are data. `Action.output` tells what an action writes; the other actions
concern the line editor and its history.
-/

/-- What the user is told to have done wrong. -/
inductive Complaint where
  | unreadable (e : ReadError)
  | failed (e : EvalError)
  | unmatchedParen
  | unknownCommand (line : Text)
  | unknownOption (arg : Text)
deriving DecidableEq, Repr

namespace Complaint

def message : Complaint → Text
  | unreadable _ => ascii "Parse error"
  | failed e => e.name
  | unmatchedParen => ascii "Unmatched closing parenthesis"
  | unknownCommand line => ascii "Unknown command: " ++ line
  | unknownOption arg => ascii "Unknown option: " ++ arg

def detail : Complaint → Text
  | unreadable e => e.message
  | unknownCommand _ => ascii "type :help for the command list"
  | _ => []

end Complaint

inductive Action where
  /-- Writes a line of the program that is being evaluated. -/
  | printed (line : Text)
  | logged (e : LogEntry)
  /-- Shows the value of a form. -/
  | answered (value : Atom)
  | complained (c : Complaint)
  | informed (message : Text)
  | showedUsage
  | showedHelp
  /-- Lists globals and their types. -/
  | listed (globals : List (Text × Text))
  | readHistory
  /-- Asks for a line, with the number of open parentheses if it continues an input. -/
  | prompted (depth : Option Int)
  | remembered (input : Text)
  | savedHistory
deriving Repr

/-- The file that keeps the history of inputs. -/
def Host.historyPath (h : Host) : Text :=
  match h.lookup? "HOME" with
  | some home => home ++ ascii "/.nlisp_history"
  | none => ascii ".nlisp_history"

def replUsage : Text :=
  ascii "Usage: nlisp-repl [OPTIONS]\n\nOptions:\n" ++
    ascii "  --debug, -d     Enable debug logging\n" ++
    ascii "  --help, -h      Show this help message\n"

/-- What an action writes. Log entries have been selected before. -/
def Action.output (h : Host) : Action → Output
  | printed line => ⟨line ++ ascii "\n", []⟩
  | logged e => ⟨[], (h.logger .debug).write e⟩
  | answered value => h.console.result value.render
  | complained c => h.console.error c.message c.detail
  | informed message => h.console.info message
  | showedUsage => ⟨replUsage, []⟩
  | showedHelp => h.console.help
  | listed globals => ⟨globals.flatMap fun g => h.console.globalLine g.1 g.2, []⟩
  | readHistory | prompted _ | remembered _ | savedHistory => {}

def Action.outputs (h : Host) (actions : List Action) : Output :=
  Output.concat (actions.map (Action.output h))

/-!
## Open parentheses

The interactive program asks for more lines while an input has open parentheses. It counts them
without reading the input: every quote hides or shows the parentheses after it.
-/

/-- Opening less closing parentheses, from a place inside or outside quotes on. -/
def parenDepthFrom (quoted : Bool) : Text → Int
  | [] => 0
  | c :: r =>
    if c = Byte.quote then parenDepthFrom (!quoted) r
    else if quoted then parenDepthFrom quoted r
    else if c = Byte.openParen then parenDepthFrom quoted r + 1
    else if c = Byte.closeParen then parenDepthFrom quoted r - 1
    else parenDepthFrom quoted r

/-- Opening less closing parentheses outside quotes. -/
def parenDepth (t : Text) : Int := parenDepthFrom false t

/-! ## Sessions -/

structure Session where
  interactive : Bool
  logger : Logger
  machine : Machine
  /-- The lines of an input that has open parentheses; empty between inputs. -/
  pending : Text := []

namespace Session

/-- A log entry, if the logger shows it. -/
def log (s : Session) (e : LogEntry) : List Action :=
  if s.logger.shows e.level then [.logged e] else []

/-- Something that is done only in an interactive session. -/
def ifInteractive (s : Session) (a : Action) : List Action := if s.interactive then [a] else []

def ofEvent (s : Session) : Event → List Action
  | .printed line => [.printed line]
  | .noted n => s.log (n.entry s.machine.limit)

def ofResult : Except EvalError Atom → Action
  | .ok value => .answered value
  | .error e => .complained (.failed e)

def evaluateForms (s : Session) (forms : List Atom) : List Action × Session :=
  let (results, m) := s.machine.run .empty forms
  let (events, m) := m.takeEvents
  (events.flatMap s.ofEvent ++ results.map ofResult, { s with machine := m })

def evaluate (s : Session) (input : Text) : List Action × Session :=
  match read input with
  | .error e => (s.log ⟨.debug, e.diagnostic⟩ ++ [.complained (.unreadable e)], s)
  | .ok forms => s.evaluateForms forms

/-- What taking in a line leads to. -/
structure Turn where
  actions : List Action
  session : Session
  /-- Whether the session is over. -/
  ended : Bool := false

def obey (s : Session) (line : Text) : Turn :=
  match Command.ofLine? line with
  | some .quit => ⟨s.ifInteractive .savedHistory, s, true⟩
  | some .help => ⟨[.showedHelp], s, false⟩
  | some .globals =>
    ⟨[.listed (s.machine.store.globals.entries.map fun g => (g.1, g.2.typeName))], s, false⟩
  | some .debug =>
    if s.logger.level = .debug then
      ⟨[.informed (ascii "debug logging off")], { s with logger.level := .notice }, false⟩
    else ⟨[.informed (ascii "debug logging on")], { s with logger.level := .debug }, false⟩
  | none => ⟨[.complained (.unknownCommand line)], s, false⟩

def ask (s : Session) : List Action :=
  s.ifInteractive (.prompted (if s.pending.isEmpty then none else some (parenDepth s.pending)))

/-- What a session has as its input with some text behind what is pending. -/
def inputWith (s : Session) (t : Text) : Text :=
  if s.pending.isEmpty then t else s.pending ++ ascii "\n" ++ t

/-- Takes in the next line of an input. -/
def extend (s : Session) (line : Text) : List Action × Session :=
  let input := s.inputWith line
  let depth := parenDepth input
  let fresh := { s with pending := [] }
  if input.isEmpty then ([], s)
  else if depth < 0 then ([.complained .unmatchedParen], fresh)
  else if depth = 0 then
    let (actions, next) := fresh.evaluate input
    (s.ifInteractive (.remembered input.upToNul) ++ actions, next)
  else ([], { s with pending := input })

/-- Takes in a line. A typed line ends at its first zero byte. -/
def feed (s : Session) (line : Text) : Turn :=
  let line := if s.interactive then line.upToNul else line
  if s.pending.isEmpty && line.head? = some 58 then
    let turn := s.obey line
    { turn with actions := .remembered line.upToNul :: turn.actions }
  else
    let (actions, next) := s.extend line
    ⟨actions, next, false⟩

/-- What happens at the end of the lines. An unfinished input is evaluated as it is, and then
there is still no line. -/
def close (s : Session) : List Action × Session :=
  if s.pending.isEmpty then (s.ifInteractive .savedHistory, s)
  else
    let (actions, next) := { s with pending := [] }.evaluate s.pending
    (actions ++ next.ask ++ next.ifInteractive .savedHistory, next)

/-- A session on all lines of its input: what it does, and how it ends. -/
def run (s : Session) : List Text → List Action × Session
  | [] =>
    let (actions, final) := s.close
    (s.ask ++ actions, final)
  | line :: lines =>
    let turn := s.feed line
    if turn.ended then (s.ask ++ turn.actions, turn.session)
    else
      let (actions, final) := turn.session.run lines
      (s.ask ++ turn.actions ++ actions, final)

/-! ## Starting -/

/-- Obeys command line options in order: the log level they leave, or what is done instead of a
session and the exit status. -/
def readOptions (level : LogLevel) : List Text → Except (Action × Nat) LogLevel
  | [] => .ok level
  | arg :: args =>
    if arg = ascii "--help" || arg = ascii "-h" then .error (.showedUsage, 0)
    else if arg = ascii "--debug" || arg = ascii "-d" then readOptions .debug args
    else .error (.complained (.unknownOption arg), 1)

/-- What a session starts with. -/
def start (h : Host) (level : LogLevel) : List Action × Session :=
  let (limit, entries) := DepthLimit.ofHost h
  let s : Session := ⟨h.inputIsTerminal, h.logger level, { limit }, []⟩
  let greeting := versionText ++ ascii " | type :help for commands, Ctrl+D to quit"
  (s.ifInteractive .readHistory ++ s.ifInteractive (.informed greeting) ++ entries.flatMap s.log, s)

end Session

/-- The interactive program: its actions and its exit status. Arguments end at their first zero
byte. -/
def runRepl (h : Host) (level : LogLevel) (args : List Text) (input : Text) : List Action × Nat :=
  match Session.readOptions level (args.map Text.upToNul) with
  | .error (action, status) => ([action], status)
  | .ok level =>
    let (early, s) := Session.start h level
    let (actions, _) := s.run input.lines
    (early ++ actions, 0)

end SlotLisp
