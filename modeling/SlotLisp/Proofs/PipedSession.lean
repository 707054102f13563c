import SlotLisp.Proofs.Balance
import SlotLisp.Proofs.Journal
import SlotLisp.Repl

/-!
# Sessions on piped input

A session takes its input line by line, and evaluates what it has whenever no parentheses are open.

**Theorem (`piped_session`).** If a text can be read as a whole, a session that is not interactive
evaluates the same forms in the same order as the whole program would, in one or several pieces. It
shows the same results, writes the same lines and leaves the same globals.

The pieces end at the newlines where no parentheses are open, and at these the text falls into
texts of whole atoms (`cut_of_items`). The machine goes on from one piece to the next with nothing
lost but the events that have been shown (`Machine.run_append`). What is written of a piece are its
events, and then its results (`outputs_ofShown`).
-/

namespace SlotLisp

/-! ## Lines -/

namespace Text

theorem lines_append {line : Text} (h : (10 : Byte) ∉ line) (rest : Text) :
    (line ++ 10 :: rest).lines = line :: rest.lines := by
  induction line with
  | nil => simp [lines]
  | cons c line ih =>
    rw [List.mem_cons, not_or] at h
    rw [List.cons_append, lines, if_neg (Ne.symm h.1), ih h.2]

theorem lines_of_not_mem {t : Text} (hne : t ≠ []) (h : (10 : Byte) ∉ t) : t.lines = [t] := by
  induction t with
  | nil => exact absurd rfl hne
  | cons c t ih =>
    rw [List.mem_cons, not_or] at h
    rw [lines, if_neg (Ne.symm h.1)]
    by_cases ht : t = []
    · subst ht
      rfl
    · rw [ih ht h.2]

/-- A text is empty, or its first line ends it, or its first line is followed by a newline. -/
theorem lines_cases (t : Text) :
    t = [] ∨ (t ≠ [] ∧ t.lines = [t]) ∨ ∃ line rest : Text, t = line ++ 10 :: rest ∧
      t.lines = line :: rest.lines := by
  by_cases hmem : (10 : Byte) ∈ t
  · obtain ⟨line, rest, rfl, hline⟩ := List.eq_append_cons_of_mem hmem
    exact .inr (.inr ⟨line, rest, rfl, lines_append hline rest⟩)
  · by_cases hne : t = []
    · exact .inl hne
    · exact .inr (.inl ⟨hne, lines_of_not_mem hne hmem⟩)

end Text

/-! ## Programs in pieces -/

/-- What a piece of a program comes to: the events of its evaluation, and a result of each form. -/
structure Shown where
  events : List Event
  results : List (Except EvalError Atom)

namespace Machine

/-- Evaluates the pieces of a program in order. The events of a piece are taken out before the next
one is evaluated. -/
def runPieces (m : Machine) : List (List Atom) → List Shown × Machine
  | [] => ([], m)
  | forms :: pieces =>
    let (results, m) := m.run .empty forms
    let (events, m) := m.takeEvents
    let (later, m) := m.runPieces pieces
    (⟨events, results⟩ :: later, m)

theorem runPieces_cons (m : Machine) (forms : List Atom) (pieces : List (List Atom)) :
    let first := m.run .empty forms
    let later := first.2.takeEvents.2.runPieces pieces
    m.runPieces (forms :: pieces) = (⟨first.2.takeEvents.1, first.1⟩ :: later.1, later.2) := rfl

/-- In pieces, the results are those of the whole program, and so are the events and the machine
that is left. -/
theorem runPieces_eq {m : Machine} (hjournal : m.store.journal = #[]) (pieces : List (List Atom)) :
    let whole := m.run .empty pieces.flatten
    (m.runPieces pieces).1.flatMap Shown.results = whole.1 ∧
      (m.runPieces pieces).1.flatMap Shown.events = whole.2.store.journal.toList ∧
      (m.runPieces pieces).2 = whole.2.takeEvents.2 := by
  induction pieces generalizing m with
  | nil =>
    refine ⟨rfl, ?_, ?_⟩
    · show [] = m.store.journal.toList
      rw [hjournal]
    · show m = m.takeEvents.2
      rw [takeEvents_of_empty hjournal]
  | cons forms pieces ih =>
    obtain ⟨hresults, hevents, hleft⟩ := ih (m := (m.run .empty forms).2.takeEvents.2) rfl
    rw [List.flatten_cons, run_append, runPieces_cons]
    refine ⟨?_, ?_, ?_⟩
    · rw [List.flatMap_cons, hresults]
    · rw [List.flatMap_cons, hevents, Store.precededBy, Array.toList_append]
      rfl
    · exact hleft

end Machine

/-! ## Showing results -/

/-- The result that an action shows. -/
def Action.result? : Action → Option (Except EvalError Atom)
  | .answered value => some (.ok value)
  | .complained (.failed e) => some (.error e)
  | _ => none

namespace Session

/-- Evaluates the forms of one piece of a program after the other. -/
def evaluatePieces (s : Session) : List (List Atom) → List Action × Session
  | [] => ([], s)
  | forms :: pieces =>
    let (actions, next) := s.evaluateForms forms
    let (later, final) := next.evaluatePieces pieces
    (actions ++ later, final)

/-- The actions that show a piece of a program. -/
def ofShown (s : Session) (p : Shown) : List Action :=
  p.events.flatMap s.ofEvent ++ p.results.map ofResult

/-- A session shows each piece when it is evaluated. -/
theorem evaluatePieces_eq (s : Session) (pieces : List (List Atom)) :
    s.evaluatePieces pieces =
      ((s.machine.runPieces pieces).1.flatMap s.ofShown,
        { s with machine := (s.machine.runPieces pieces).2 }) := by
  induction pieces generalizing s with
  | nil => rfl
  | cons forms pieces ih =>
    have hpieces : s.evaluatePieces (forms :: pieces) =
        ((s.evaluateForms forms).1 ++ ((s.evaluateForms forms).2.evaluatePieces pieces).1,
          ((s.evaluateForms forms).2.evaluatePieces pieces).2) := rfl
    rw [hpieces, ih]
    rfl

theorem result?_ofResult (r : Except EvalError Atom) : (ofResult r).result? = some r := by
  cases r <;> rfl

theorem eq_of_mem_log {s : Session} {e : LogEntry} {a : Action} (h : a ∈ s.log e) :
    a = .logged e := by
  rw [log] at h
  split at h
  · exact List.mem_singleton.1 h
  · cases h

/-- Events are written or logged. -/
theorem eq_of_mem_ofEvent {s : Session} {e : Event} {a : Action} (h : a ∈ s.ofEvent e) :
    (∃ line, a = .printed line) ∨ ∃ entry, a = .logged entry := by
  cases e with
  | printed line => exact .inl ⟨line, List.mem_singleton.1 h⟩
  | noted n => exact .inr ⟨_, eq_of_mem_log h⟩

theorem result?_of_mem_events {s : Session} {events : List Event} {a : Action}
    (h : a ∈ events.flatMap s.ofEvent) : a.result? = none := by
  obtain ⟨e, -, he⟩ := List.mem_flatMap.1 h
  rcases eq_of_mem_ofEvent he with ⟨line, rfl⟩ | ⟨entry, rfl⟩ <;> rfl

theorem filterMap_ofShown (s : Session) (p : Shown) :
    (s.ofShown p).filterMap Action.result? = p.results := by
  have hevents : (p.events.flatMap s.ofEvent).filterMap Action.result? = [] :=
    List.filterMap_eq_nil_iff.2 fun a ha => result?_of_mem_events ha
  simp [ofShown, hevents, List.filterMap_map, result?_ofResult]

theorem filter_ofShown (s : Session) (p : Shown) :
    (s.ofShown p).filter (·.result?.isNone) = p.events.flatMap s.ofEvent := by
  have hevents : (p.events.flatMap s.ofEvent).filter (·.result?.isNone) =
      p.events.flatMap s.ofEvent :=
    List.filter_eq_self.2 fun a ha => by rw [result?_of_mem_events ha]; rfl
  simp [ofShown, hevents, List.filter_map, Function.comp_def, result?_ofResult]

end Session

/-! ## What is written -/

/-- What is written of a result: a value goes to the standard output, and the name of an error to
the standard error output. -/
def Console.shown (c : Console) : Except EvalError Atom → Output
  | .ok value => ⟨c.cyan ++ value.render ++ c.reset ++ ascii "\n", []⟩
  | .error e => ⟨[], c.bold ++ c.brightRed ++ ascii "Error: " ++ c.reset ++ e.name ++ ascii "\n"⟩

/-- What is written of a piece of a program: first its events, and then its results. -/
def Shown.output (h : Host) (s : Session) (p : Shown) : Output :=
  Output.concat (p.events.map (Event.output s.logger s.machine.limit)) ++
    Output.concat (p.results.map h.console.shown)

namespace Action

theorem outputs_append (h : Host) (earlier later : List Action) :
    outputs h (earlier ++ later) = outputs h earlier ++ outputs h later := by
  rw [outputs, List.map_append, Output.concat_append]
  rfl

theorem outputs_flatMap {α : Type} (h : Host) (f : α → List Action) (l : List α) :
    outputs h (l.flatMap f) = Output.concat (l.map fun a => outputs h (f a)) := by
  rw [outputs, List.map_flatMap, Output.concat_flatMap]
  rfl

theorem output_ofResult (h : Host) (r : Except EvalError Atom) :
    (Session.ofResult r).output h = h.console.shown r := by
  cases r with
  | ok value => rfl
  | error e => simp [Session.ofResult, output, Console.error, Complaint.detail, Complaint.message,
      Console.shown]

section Logged

variable {h : Host} {s : Session} {level : LogLevel} (hlogger : s.logger = h.logger level)
include hlogger

/-- An entry that is selected for the log is written as the session's logger would write it. -/
theorem outputs_log (e : LogEntry) : outputs h (s.log e) = ⟨[], s.logger.write e⟩ := by
  have hdebug : (h.logger .debug).shows e.level = true := by
    cases e.level <;> rfl
  by_cases hshows : s.logger.shows e.level = true
  · have hwrite : (h.logger .debug).write e = s.logger.write e := by
      rw [Logger.write, Logger.message, if_pos hdebug, Logger.write, Logger.message, if_pos hshows,
        hlogger]
      rfl
    rw [Session.log, if_pos hshows]
    simp [outputs, output, Output.concat, hwrite]
  · rw [Session.log, if_neg hshows, Logger.write, Logger.message, if_neg hshows]
    rfl

theorem outputs_ofEvent (e : Event) :
    outputs h (s.ofEvent e) = e.output s.logger s.machine.limit := by
  cases e with
  | printed line => simp [Session.ofEvent, outputs, output, Output.concat, Event.output]
  | noted n => exact outputs_log hlogger _

theorem outputs_ofShown (p : Shown) : outputs h (s.ofShown p) = p.output h s := by
  have hresults : outputs h (p.results.map Session.ofResult) =
      Output.concat (p.results.map h.console.shown) := by
    rw [outputs, List.map_map]
    simp only [Function.comp_def, output_ofResult]
  rw [Session.ofShown, outputs_append, outputs_flatMap, hresults, Shown.output]
  simp only [outputs_ofEvent hlogger]

end Logged

end Action

/-! ## Lines of input -/

namespace Session

theorem evaluate_of_read {s : Session} {input : Text} {forms : List Atom}
    (h : read input = .ok forms) : s.evaluate input = s.evaluateForms forms := by
  rw [evaluate, h]

section Lines

variable {s : Session} {line : Text} {as : List Atom}

theorem run_cons (hs : s.interactive = false) (hline : line.head? ≠ some 58) (lines : List Text) :
    s.run (line :: lines) = ((s.extend line).1 ++ ((s.extend line).2.run lines).1,
      ((s.extend line).2.run lines).2) := by
  have hask : s.ask = [] := by simp [ask, ifInteractive, hs]
  have hfeed : s.feed line = ⟨(s.extend line).1, (s.extend line).2, false⟩ := by
    simp [feed, hs, hline]
  rw [run, hask, hfeed]
  rfl

theorem extend_eq (s : Session) (line : Text) :
    s.extend line =
      if (s.inputWith line).isEmpty then ([], s)
      else if parenDepth (s.inputWith line) < 0 then
        ([.complained .unmatchedParen], { s with pending := [] })
      else if parenDepth (s.inputWith line) = 0 then
        (s.ifInteractive (.remembered (s.inputWith line).upToNul) ++
            ({ s with pending := [] }.evaluate (s.inputWith line)).1,
          ({ s with pending := [] }.evaluate (s.inputWith line)).2)
      else ([], { s with pending := s.inputWith line }) := rfl

/-- A line after which parentheses are open is kept for the next one. -/
theorem extend_of_pos (h : 0 < parenDepth (s.inputWith line)) :
    s.extend line = ([], { s with pending := s.inputWith line }) := by
  have hne : ¬(s.inputWith line).isEmpty = true := by
    intro hempty
    rw [List.isEmpty_iff.1 hempty] at h
    cases h
  rw [extend_eq, if_neg hne, if_neg (by omega), if_neg (by omega)]

/-- A line that completes whole atoms has them evaluated. -/
theorem extend_of_items (hs : s.interactive = false) (hne : s.inputWith line ≠ [])
    (h : Items (s.inputWith line) as) (hfits : ∀ a ∈ as, a.FitsLine) :
    s.extend line = { s with pending := [] }.evaluateForms as := by
  have hdepth := (balanced_of_items h fun w hw => hfits _ hw).parenDepth_eq_zero
  have hread : read (s.inputWith line) = .ok as := readFrom_of_items h 0
  rw [extend_eq, if_neg (by simpa using hne), if_neg (by omega), if_pos hdepth,
    evaluate_of_read hread, ifInteractive, hs]
  rfl

theorem run_nil (hs : s.interactive = false) (hpending : s.pending = []) :
    s.run [] = ([], s) := by
  simp [run, close, ask, ifInteractive, hs, hpending]

theorem inputWith_of_empty (h : s.pending = []) (t : Text) : s.inputWith t = t := by
  rw [inputWith, h]
  rfl

theorem inputWith_of_ne_nil (h : s.pending ≠ []) (t : Text) :
    s.inputWith t = s.pending ++ 10 :: t := by
  rw [inputWith, if_neg (by simpa using h), List.append_assoc]
  rfl

theorem inputWith_append (s : Session) (line rest : Text) :
    s.inputWith (line ++ 10 :: rest) = s.inputWith line ++ 10 :: rest := by
  by_cases h : s.pending = []
  · rw [inputWith_of_empty h, inputWith_of_empty h]
  · rw [inputWith_of_ne_nil h, inputWith_of_ne_nil h, List.append_assoc, List.cons_append]

theorem inputWith_eq_nil (h : s.inputWith line = []) : s.pending = [] ∧ line = [] := by
  by_cases hp : s.pending = []
  · rw [inputWith_of_empty hp] at h
    exact ⟨hp, h⟩
  · rw [inputWith_of_ne_nil hp] at h
    simp at h

end Lines

/-- A session evaluates all forms of its input, in pieces that end with lines. The induction is on
the lines: what is pending and the lines that follow are always a text of whole atoms. -/
theorem run_lines (s : Session) (hs : s.interactive = false) (t : Text) {as : List Atom}
    (h : Items (s.inputWith t) as) (hfits : ∀ a ∈ as, a.FitsLine)
    (hcommands : ∀ line ∈ t.lines, line.head? ≠ some 58)
    (hpending : s.pending = [] ∨ 0 < parenDepth s.pending) :
    ∃ pieces : List (List Atom), pieces.flatten = as ∧
      s.run t.lines = { s with pending := [] }.evaluatePieces pieces := by
  induction hlines : t.lines generalizing s t as with
  | nil =>
    obtain rfl : t = [] := by
      rcases t.lines_cases with ht | ⟨-, ht⟩ | ⟨line, rest, -, ht⟩
      · exact ht
      · rw [hlines] at ht
        cases ht
      · rw [hlines] at ht
        cases ht
    have hempty : s.pending = [] := by
      by_contra hne
      rw [inputWith_of_ne_nil hne] at h
      have hdepth :=
        (balanced_of_items h fun w hw => hfits _ hw).of_append_newline.parenDepth_eq_zero
      rcases hpending with hp | hp
      · exact hne hp
      · omega
    rw [inputWith_of_empty hempty] at h
    refine ⟨[], h.eq_nil.symm, ?_⟩
    rw [run_nil hs hempty, ← hempty]
    rfl
  | cons line lines ih =>
    have hline : line.head? ≠ some 58 := hcommands line (hlines ▸ List.mem_cons_self)
    rw [run_cons hs hline]
    rcases t.lines_cases with rfl | ⟨hne, ht⟩ | ⟨first, rest, rfl, ht⟩
    · cases hlines
    · -- The last line completes the input.
      rw [hlines, List.cons.injEq] at ht
      obtain ⟨rfl, rfl⟩ := ht
      have hinput : s.inputWith line ≠ [] := fun hempty => hne (inputWith_eq_nil hempty).2
      refine ⟨[as], List.flatten_singleton, ?_⟩
      rw [extend_of_items hs hinput h hfits, run_nil (by exact hs) rfl]
      rfl
    · rw [hlines, List.cons.injEq] at ht
      obtain ⟨rfl, rfl⟩ := ht
      have hrest : ∀ l ∈ rest.lines, l.head? ≠ some 58 :=
        fun l hl => hcommands l (hlines ▸ List.mem_cons_of_mem _ hl)
      rw [inputWith_append] at h
      rcases cut_of_items h hfits rfl with hopen | ⟨as₁, as₂, rfl, h₁, h₂⟩
      · -- Parentheses are open at the end of the line, and it is kept.
        have hinput : s.inputWith line ≠ [] := fun hempty => by
          rw [hempty] at hopen
          cases hopen
        rw [← inputWith_of_ne_nil (s := { s with pending := s.inputWith line }) hinput] at h
        obtain ⟨pieces, hpieces, hrun⟩ := ih { s with pending := s.inputWith line } hs rest h hfits
          hrest (.inr hopen) rfl
        refine ⟨pieces, hpieces, ?_⟩
        rw [extend_of_pos hopen, hrun]
        rfl
      · obtain ⟨hfits₁, hfits₂⟩ := List.forall_mem_append.1 hfits
        by_cases hinput : s.inputWith line = []
        · -- An empty line between inputs.
          obtain ⟨hempty, -⟩ := inputWith_eq_nil hinput
          rw [hinput] at h₁
          obtain rfl := h₁.eq_nil
          rw [← inputWith_of_empty hempty rest] at h₂
          obtain ⟨pieces, hpieces, hrun⟩ := ih s hs rest h₂ hfits₂ hrest hpending rfl
          refine ⟨pieces, hpieces, ?_⟩
          rw [extend_eq, if_pos (by simpa using hinput), hrun]
          rfl
        · -- The line completes a piece.
          obtain ⟨pieces, rfl, hrun⟩ := ih ({ s with pending := [] }.evaluateForms as₁).2
            (by exact hs) rest (by exact h₂) hfits₂ hrest (.inl rfl) rfl
          refine ⟨as₁ :: pieces, List.flatten_cons, ?_⟩
          rw [extend_of_items hs hinput h₁ hfits₁, hrun]
          rfl

/-! ## Starting without a terminal -/

section Start

variable {h : Host} (hpipe : h.inputIsTerminal = false) (level : LogLevel)
include hpipe

/-- A session that is not interactive starts with nothing but log entries. -/
theorem start_eq : (start h level).1 = (DepthLimit.ofHost h).2.flatMap (start h level).2.log := by
  simp [start, ifInteractive, hpipe]

theorem outputs_start :
    Action.outputs h (start h level).1 = DepthLimit.warnings h (start h level).2.logger := by
  have hlogger : (start h level).2.logger = h.logger level := rfl
  rw [start_eq hpipe, Action.outputs_flatMap]
  simp only [Action.outputs_log hlogger]
  simp [Output.concat, DepthLimit.warnings, List.flatMap_map]

end Start

end Session

/-- **A piped session is the whole program.** Let a text be read as a list of atoms, with no quote
in a symbol and no newline in a string outside lists, and with no line that is a command. A session
on the text that is not interactive evaluates exactly these atoms in order, in pieces. It shows the
results that the whole program has, and otherwise only what the events of the whole program write.
It leaves the machine that the whole program leaves, apart from the events, which have been shown.
It never complains of a parenthesis or of something unreadable, and ends with status 0.

What it writes behind the warnings about the limit are the events and results of the whole program.
They are written piece by piece, the lines and notes of a piece before its results. Values are on
the standard output and the names of errors on the standard error output. -/
theorem piped_session (h : Host) (hpipe : h.inputIsTerminal = false) {level level' : LogLevel}
    {args : List Text} (hargs : Session.readOptions level (args.map Text.upToNul) = .ok level')
    {t : Text} {as : List Atom} (hread : read t = .ok as) (hfits : ∀ a ∈ as, a.FitsLine)
    (hcommands : ∀ line ∈ t.lines, line.head? ≠ some 58) :
    let s := (Session.start h level').2
    let whole := s.machine.run .empty as
    let (actions, final) := s.run t.lines
    runRepl h level args t = ((Session.start h level').1 ++ actions, 0) ∧
      (∃ pieces : List (List Atom), pieces.flatten = as ∧
        s.evaluatePieces pieces = (actions, final) ∧
        let shown := (s.machine.runPieces pieces).1
        shown.flatMap Shown.results = whole.1 ∧
          shown.flatMap Shown.events = whole.2.store.journal.toList ∧
          Action.outputs h (runRepl h level args t).1 =
            DepthLimit.warnings h s.logger ++ Output.concat (shown.map (Shown.output h s))) ∧
      actions.filterMap Action.result? = whole.1 ∧
      actions.filter (·.result?.isNone) = whole.2.store.journal.toList.flatMap s.ofEvent ∧
      final.machine = { whole.2 with store := { whole.2.store with journal := #[] } } ∧
      ∀ a ∈ (runRepl h level args t).1, a ≠ .complained .unmatchedParen ∧
        ∀ e, a ≠ .complained (.unreadable e) := by
  intro s whole
  obtain ⟨pieces, hflatten, hrun⟩ :=
    s.run_lines hpipe t (items_of_readFrom hread) hfits hcommands (.inl rfl)
  obtain ⟨hresults, hevents, hleft⟩ := Machine.runPieces_eq (m := s.machine) rfl pieces
  rw [hflatten] at hresults hevents hleft
  have hlogger : s.logger = h.logger level' := rfl
  have hpieces : s.run t.lines = s.evaluatePieces pieces := hrun
  have hrepl : runRepl h level args t = ((Session.start h level').1 ++ (s.run t.lines).1, 0) := by
    rw [runRepl, hargs]
  rw [s.evaluatePieces_eq] at hpieces
  rw [hpieces] at hrepl ⊢
  have hothers : ((s.machine.runPieces pieces).1.flatMap s.ofShown).filter (·.result?.isNone) =
      whole.2.store.journal.toList.flatMap s.ofEvent := by
    rw [List.filter_flatMap, ← hevents, List.flatMap_assoc]
    simp only [Session.filter_ofShown]
  refine ⟨hrepl, ⟨pieces, hflatten, s.evaluatePieces_eq pieces, hresults, hevents, ?_⟩, ?_, hothers,
    hleft, ?_⟩
  · rw [hrepl, Action.outputs_append, Session.outputs_start hpipe, Action.outputs_flatMap]
    simp only [Action.outputs_ofShown hlogger]
    rfl
  · rw [List.filterMap_flatMap, ← hresults]
    simp only [Session.filterMap_ofShown]
  · intro a ha
    -- Whatever shows no result was logged at the start or comes from an event.
    have hother (hnone : a.result? = none) :
        (∃ line, a = .printed line) ∨ ∃ entry, a = .logged entry := by
      rw [hrepl, Session.start_eq hpipe] at ha
      rcases List.mem_append.1 ha with ha | ha
      · obtain ⟨e, -, he⟩ := List.mem_flatMap.1 ha
        exact .inr ⟨e, Session.eq_of_mem_log he⟩
      · have hmem : a ∈ whole.2.store.journal.toList.flatMap s.ofEvent := by
          rw [← hothers]
          exact List.mem_filter.2 ⟨ha, by rw [hnone]; rfl⟩
        obtain ⟨e, -, he⟩ := List.mem_flatMap.1 hmem
        exact Session.eq_of_mem_ofEvent he
    constructor
    · rintro rfl
      simpa using hother rfl
    · rintro e rfl
      simpa using hother rfl

/-- A call over two lines with a symbol behind it, and a line with a call that fails. -/
theorem piped_session_print :
    let t := ascii "(print\n\"a)\") b\n(print c) (b)\n"
    let first : List Atom := [.list [.symbol (ascii "print"), .string (ascii "a)")] none,
      .symbol (ascii "b")]
    let second : List Atom := [.list [.symbol (ascii "print"), .symbol (ascii "c")] none,
      .list [.symbol (ascii "b")] none]
    read t = .ok (first ++ second) ∧ (∀ a ∈ first ++ second, a.FitsLine) ∧
      (∀ line ∈ t.lines, line.head? ≠ some 58) ∧ (runRepl {} .notice [] t).2 = 0 ∧
      ((Session.start {} .notice).2.run t.lines).1.filterMap Action.result? =
        [.ok .nil, .ok (.symbol (ascii "b")), .ok .nil, .error .notAFunction] ∧
      Action.outputs {} (runRepl {} .notice [] t).1 =
        ⟨ascii "[String(\"a)\")]\nnil\nb\n[Symbol(\"c\")]\nnil\n",
          ascii "Error: NotAFunction\n"⟩ := by
  intro t first second
  have hread : read t = .ok (first ++ second) := by with_unfolding_all rfl
  have hfits : ∀ a ∈ first ++ second, a.FitsLine := by
    simp only [first, second, List.cons_append, List.nil_append, List.forall_mem_cons,
      List.not_mem_nil, false_imp_iff, implies_true, Atom.FitsLine]
    decide
  have hcommands : ∀ line ∈ t.lines, line.head? ≠ some 58 := by decide
  have hwhole : ((Session.start {} .notice).2.machine.run .empty (first ++ second)).1 =
      [.ok .nil, .ok (.symbol (ascii "b")), .ok .nil, .error .notAFunction] := rfl
  obtain ⟨hrepl, -, hresults, -⟩ := @piped_session {} rfl .notice .notice [] rfl t _ hread hfits
    hcommands
  refine ⟨hread, hfits, hcommands, ?_, hresults.trans hwhole, by decide +kernel⟩
  rw [hrepl]

end SlotLisp
