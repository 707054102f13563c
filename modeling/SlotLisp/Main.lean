import SlotLisp.Batch
import SlotLisp.Repl

/-!
# The command line programs

The first argument selects the program: `repl` for the interactive one and `run` for the batch
one. This module only moves bytes between the programs and the system.
-/

namespace SlotLisp.Shell

def toText (s : String) : Text := s.toUTF8.toList

def toBytes (t : Text) : ByteArray := ⟨t.toArray⟩

/-- The environment variables that the programs ask for. -/
def variableNames : List String :=
  ["COLORTERM", "HOME", "NLISP_MAX_DEPTH", "NO_COLOR", "POSIXLY_CORRECT", "TERM"]

def host : IO Host := do
  let environment ← variableNames.filterMapM fun name => do
    return (← IO.getEnv name).map fun value => (toText name, toText value)
  return ⟨environment, ← (← IO.getStdin).isTty, ← (← IO.getStdout).isTty, ← (← IO.getStderr).isTty⟩

partial def readAll (stream : IO.FS.Stream) (sofar : ByteArray) : IO ByteArray := do
  let chunk ← stream.read 65536
  if chunk.isEmpty then return sofar else readAll stream (sofar ++ chunk)

/-- The standard input as a whole. -/
def readInput : IO Text := do
  return (← readAll (← IO.getStdin) .empty).toList

def write (o : Output) : IO Unit := do
  let out ← IO.getStdout
  let err ← IO.getStderr
  out.write (toBytes o.out)
  out.flush
  err.write (toBytes o.err)

/-- The content of a file. A directory has none, but it can be opened. -/
def openFile (name : Text) : IO (Option Text) := do
  match String.fromUTF8? (toBytes name) with
  | none => return none
  | some path =>
    try return some (← IO.FS.readBinFile path).toList
    catch _ =>
      try
        let _ ← IO.FS.Handle.mk path .read
        return some []
      catch _ => return none

/-! ## The batch program -/

def runBatch (args : List Text) : IO UInt32 := do
  let h ← host
  write (DepthLimit.warnings h (h.logger .notice))
  match Batch.plan h (.start h .notice) args with
  | .error stop =>
    write stop.output
    return stop.status.toUInt32
  | .ok p =>
    let contents ← p.files.mapM fun name => return (name, ← openFile name)
    let input ← if p.readsInput then readInput else pure []
    let (events, _) := p.run (p.sources (fun name => (contents.lookup name).join) input)
    write (p.output h events)
    return (Batch.status events).toUInt32

/-! ## The interactive program -/

/-- Performs an action, given the history so far. -/
def perform (h : Host) (history : List Text) (a : Action) : IO (List Text) := do
  write (a.output h)
  let path := (String.fromUTF8? (toBytes h.historyPath)).getD ""
  match a with
  | .prompted depth => write ⟨h.console.prompt depth, []⟩; return history
  | .remembered input => return history ++ [input]
  | .readHistory =>
    try return Text.lines (← IO.FS.readBinFile path).toList
    catch _ => return []
  | .savedHistory =>
    try IO.FS.writeBinFile path (toBytes (history.flatMap (· ++ ascii "\n")))
    catch _ => pure ()
    return history
  | _ => return history

partial def converse (h : Host) (history : List Text) (s : Session) : IO Unit := do
  let history ← s.ask.foldlM (perform h) history
  let line ← (← IO.getStdin).getLine
  if line.isEmpty then
    let _ ← s.close.1.foldlM (perform h) history
  else
    let turn := s.feed ((Text.lines (toText line)).headD [])
    let history ← turn.actions.foldlM (perform h) history
    if turn.ended then return else converse h history turn.session

def runInteractive (args : List Text) : IO UInt32 := do
  let h ← host
  if h.inputIsTerminal then
    match Session.readOptions .notice args with
    | .error (action, status) =>
      let _ ← perform h [] action
      return status.toUInt32
    | .ok level =>
      let (actions, s) := Session.start h level
      converse h (← actions.foldlM (perform h) []) s
      return 0
  else
    let (actions, status) := runRepl h .notice args (← readInput)
    let _ ← actions.foldlM (perform h) []
    return status.toUInt32

end SlotLisp.Shell

def main (args : List String) : IO UInt32 := do
  match args with
  | "repl" :: args => SlotLisp.Shell.runInteractive (args.map SlotLisp.Shell.toText)
  | "run" :: args => SlotLisp.Shell.runBatch (args.map SlotLisp.Shell.toText)
  | _ =>
    IO.eprintln "usage: slotlisp (run | repl) [ARGUMENT ...]"
    return 1
