import SlotLisp.Text

/-!
# What a program writes

The two output streams are kept apart: how their bytes interleave is up to whoever shows them. The
log goes to the standard error output.
-/

namespace SlotLisp

structure Output where
  /-- The standard output. -/
  out : Text := []
  /-- The standard error output. -/
  err : Text := []
deriving DecidableEq, Repr

namespace Output

def append (a b : Output) : Output := ⟨a.out ++ b.out, a.err ++ b.err⟩

instance : Append Output := ⟨append⟩

/-- All outputs in order. -/
def concat (outputs : List Output) : Output :=
  ⟨outputs.flatMap out, outputs.flatMap err⟩

theorem concat_append (a b : List Output) : concat (a ++ b) = concat a ++ concat b := by
  show concat (a ++ b) = append (concat a) (concat b)
  simp [concat, append]

/-- Outputs can be put together piece by piece. -/
theorem concat_flatMap {α : Type} (f : α → List Output) (l : List α) :
    concat (l.flatMap f) = concat (l.map fun a => concat (f a)) := by
  simp [concat, List.flatMap_assoc, List.flatMap_map]

end Output

/-!
## The log

A log entry has a level and is written only if the logger's level reaches that far. Each line starts
with the name of its level, aligned to the right and coloured if the logger is.
-/

inductive LogLevel where
  | fatal
  | error
  | warning
  | notice
  | info
  | debug
deriving DecidableEq, Repr

namespace LogLevel

/-- From the most to the least urgent. -/
def rank : LogLevel → Nat
  | fatal => 0
  | error => 1
  | warning => 2
  | notice => 3
  | info => 4
  | debug => 5

def name : LogLevel → Text
  | fatal => ascii "fatal"
  | error => ascii "error"
  | warning => ascii "warning"
  | notice => ascii "notice"
  | info => ascii "info"
  | debug => ascii "debug"

/-- The terminal code for bold text in the level's colour. -/
def colour : LogLevel → Text
  | fatal => ascii "\x1b[1m\x1b[31m"
  | error => ascii "\x1b[1m\x1b[31m"
  | warning => ascii "\x1b[1m\x1b[33m"
  | notice => ascii "\x1b[1m\x1b[34m"
  | info => ascii "\x1b[1m\x1b[37m"
  | debug => ascii "\x1b[1m\x1b[32m"

end LogLevel

structure LogEntry where
  level : LogLevel
  text : Text
deriving DecidableEq, Repr

structure Logger where
  level : LogLevel := .notice
  coloured : Bool := false
deriving DecidableEq, Repr

namespace Logger

def shows (l : Logger) (level : LogLevel) : Bool := level.rank ≤ l.level.rank

/-- What a line of a level starts with. -/
def label (l : Logger) (level : LogLevel) : Text :=
  let name := level.name.padLeft 10
  if l.coloured then level.colour ++ name ++ ascii ":\x1b[0m " else name ++ ascii ": "

/-- What a message of a level adds to the log, if anything. -/
def message (l : Logger) (level : LogLevel) (text : Text) : Text :=
  if l.shows level then l.label level ++ text else []

/-- The line that an entry adds to the log, if any. -/
def write (l : Logger) (e : LogEntry) : Text := l.message e.level (e.text ++ ascii "\n")

/-- A percent sign for every doubled one. -/
def expandPercents : Text → Text
  | 37 :: 37 :: r => 37 :: expandPercents r
  | c :: r => c :: expandPercents r
  | [] => []

/-- What printing a template adds to the log, and the exit status if it ends the program. A message
of the level `fatal` does, whether it is shown or not. A template ends at its first zero byte, and a
newline follows unless it ends in one. -/
def print (l : Logger) (level : LogLevel) (template : Text) : Text × Option Nat :=
  let template := template.upToNul
  let ending := if template.getLast? = some 10 then [] else ascii "\n"
  (l.message level (expandPercents template ++ ending), if level = .fatal then some 1 else none)

end Logger

end SlotLisp
