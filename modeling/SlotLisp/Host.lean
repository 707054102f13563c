import SlotLisp.Log

/-!
# The host

What the programs learn from where they run: environment variables, and which of the standard
streams are terminals. From these come the limit on nested evaluations and the colours.
-/

namespace SlotLisp

/-- The version that the programs show. -/
def versionText : Text := ascii "nlisp 0.1.0"

structure Host where
  environment : List (Text × Text) := []
  inputIsTerminal : Bool := false
  outputIsTerminal : Bool := false
  errorIsTerminal : Bool := false
deriving Repr

namespace Host

/-- The value of an environment variable, which ends at its first zero byte. -/
def lookup? (h : Host) (name : String) : Option Text :=
  (h.environment.lookup (ascii name)).map Text.upToNul

/-- Whether an environment variable is set and not empty. -/
def isGiven (h : Host) (name : String) : Bool := (h.lookup? name).any (!·.isEmpty)

/-- Whether the user asks for output without colours. -/
def refusesColour (h : Host) : Bool := h.isGiven "NO_COLOR"

def logger (h : Host) (level : LogLevel) : Logger :=
  ⟨level, h.errorIsTerminal && !h.refusesColour⟩

end Host

/-!
## The limit on nested evaluations

The limit is 2000 unless the environment or a command line gives another one. It is a 64-bit number:
larger numerals count as the largest one, and a minus sign negates modulo `2 ^ 64`.
-/

namespace DepthLimit

def standard : Nat := 2000

/-- How many 64-bit numbers there are. -/
def wordSize : Nat := 0x10000000000000000

/-- A 64-bit number from a sign and a value. -/
def word (negative : Bool) (n : Nat) : Nat :=
  if wordSize ≤ n then wordSize - 1 else if negative then (wordSize - n) % wordSize else n

/-- Reads a limit: white space, an optional sign and digits that give a positive number. -/
def read? (t : Text) : Option Nat :=
  let (negative, digits) := Text.splitSign (t.dropWhile Byte.isSpace)
  let n := word negative (Text.digitsValue digits)
  if !digits.isEmpty && digits.all Byte.isDigit && 0 < n then some n else none

/-- What is logged about a text in the environment that is no limit. -/
def warning (t : Text) : LogEntry :=
  ⟨.warning, ascii "ignoring invalid NLISP_MAX_DEPTH '" ++ t ++ ascii "'"⟩

/-- The limit that the environment asks for, with the log entries this causes. -/
def ofHost (h : Host) : Nat × List LogEntry :=
  match h.lookup? "NLISP_MAX_DEPTH" with
  | none => (standard, [])
  | some t =>
    if t.isEmpty then (standard, [])
    else match read? t with
      | some n => (n, [])
      | none => (standard, [warning t])

/-- What this writes. -/
def warnings (h : Host) (logger : Logger) : Output := ⟨[], (ofHost h).2.flatMap logger.write⟩

end DepthLimit

/-!
## The console

How the interactive program words and colours what it writes. Without colours the texts are the same
less the terminal codes.
-/

structure Console where
  coloured : Bool := false
deriving DecidableEq, Repr

/-- Whether the terminal of the standard output shows colours. -/
def Host.showsColour (h : Host) : Bool :=
  let term := (h.lookup? "TERM").getD []
  !h.refusesColour && h.outputIsTerminal &&
    (h.isGiven "COLORTERM" ||
      ["color", "256", "xterm", "screen", "tmux"].any fun part => Text.contains (ascii part) term)

def Host.console (h : Host) : Console := ⟨h.showsColour⟩

namespace Console

variable (c : Console)

/-- A terminal code, or nothing without colours. -/
def code (n : String) : Text :=
  if c.coloured then ascii "\x1b[" ++ ascii n ++ ascii "m" else []

def reset : Text := c.code "0"

def bold : Text := c.code "1"

def dim : Text := c.code "2"

def yellow : Text := c.code "33"

def cyan : Text := c.code "36"

def brightRed : Text := c.code "91"

def brightBlue : Text := c.code "94"

def brightCyan : Text := c.code "96"

/-- The prompt for a new input, or for the next line of one with so many open parentheses. -/
def prompt : Option Int → Text
  | none =>
    c.brightBlue ++ c.bold ++ ascii "nlisp" ++ c.reset ++ c.brightBlue ++ ascii "> " ++ c.reset
  | some depth =>
    c.dim ++ ascii "  [" ++ Text.ofInt depth ++ ascii "]" ++ c.brightBlue ++ ascii "> " ++ c.reset

def result (value : Text) : Output := ⟨c.cyan ++ value ++ c.reset ++ ascii "\n", []⟩

def info (message : Text) : Output := ⟨c.brightCyan ++ message ++ c.reset ++ ascii "\n", []⟩

def error (message detail : Text) : Output :=
  let below := if detail.isEmpty then [] else ascii "\n" ++ c.dim ++ ascii "  " ++ detail ++ c.reset
  ⟨[], c.bold ++ c.brightRed ++ ascii "Error: " ++ c.reset ++ message ++ below ++ ascii "\n"⟩

/-- A line of the table of globals. -/
def globalLine (name typeName : Text) : Text :=
  ascii "  " ++ c.yellow ++ name ++ c.reset ++ c.dim ++ ascii " : " ++ typeName ++ c.reset ++
    ascii "\n"

end Console

end SlotLisp
