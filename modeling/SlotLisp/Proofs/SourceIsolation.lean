import SlotLisp.Batch

/-!
# Sources that cannot be read

**Theorem (`run_isolates_sources`).** The batch program ends with status zero exactly if each of its
sources can be opened and read and all forms of it succeed. One more source that cannot be opened or
read, anywhere among the others, changes nothing but the status and the standard error output.

A text is read to its end before the first of its forms is evaluated. So a source that cannot be
read leaves the machine alone, and what runs after it runs as if it had not been there. On the
command line, the settings depend on the texts only by the texts themselves (`applyOptions_texts`).
-/

namespace SlotLisp.Batch

/-! ## One source -/

namespace Source

/-- The source can be opened and read, and all its forms succeed on the machine. -/
def Succeeds (s : Source) (m : Machine) : Prop :=
  ∃ text forms, s.content = some text ∧ read text = .ok forms ∧
    ∀ r ∈ (m.run .empty forms).1, ∃ a, r = .ok a

/-- The source cannot be opened, or its text cannot be read. -/
def IsBroken (s : Source) : Prop := ∀ text, s.content = some text → ∃ e, read text = .error e

end Source

/-- The event is about a source and not about its forms. -/
def Event.isRemark : Event → Bool
  | started _ | missing _ | unreadable _ _ => true
  | _ => false

theorem Event.out_of_isRemark {e : Event} (he : e.isRemark = true) (logger : Logger)
    (limit : Nat) : (e.output logger limit).out = [] := by
  cases e with
  | started | missing | unreadable => rfl
  | _ => cases he

theorem isFailure_ofResults (name : Text) (form : Nat) (results : List (Except EvalError Atom)) :
    (∀ e ∈ ofResults name form results, e.isFailure = false) ↔ ∀ r ∈ results, ∃ a, r = .ok a := by
  induction results generalizing form with
  | nil => simp [ofResults]
  | cons r results ih =>
    cases r with
    | error e => simp [ofResults, Event.isFailure]
    | ok a =>
      rw [ofResults, List.forall_mem_cons, List.forall_mem_cons, ih]
      simp [Event.isFailure]

theorem runText_of_ok {text : Text} {forms : List Atom} (hread : read text = .ok forms)
    (m : Machine) (name : Text) :
    runText m name text =
      ((m.run .empty forms).2.takeEvents.1.map .evaluation ++
          ofResults name 1 (m.run .empty forms).1,
        (m.run .empty forms).2.takeEvents.2) := by
  rw [runText, hread]

theorem isFailure_runText (m : Machine) (name text : Text) :
    (∀ e ∈ (runText m name text).1, e.isFailure = false) ↔
      ∃ forms, read text = .ok forms ∧ ∀ r ∈ (m.run .empty forms).1, ∃ a, r = .ok a := by
  cases hread : read text with
  | error e => simp [runText, hread, Event.isFailure]
  | ok forms =>
    rw [runText_of_ok hread, List.forall_mem_append, isFailure_ofResults]
    simp [Event.isFailure]

/-- Nothing that happens is a failure exactly if the source succeeds. -/
theorem isFailure_runSource (m : Machine) (s : Source) :
    (∀ e ∈ (runSource m s).1, e.isFailure = false) ↔ s.Succeeds m := by
  obtain ⟨name, _ | text, isFile⟩ := s
  · simp [runSource, Source.Succeeds, Event.isFailure]
  · have hevents : (∀ e ∈ (runSource m ⟨name, some text, isFile⟩).1, e.isFailure = false) ↔
        ∀ e ∈ (runText m name text).1, e.isFailure = false := by
      cases isFile <;> simp [runSource, Event.isFailure]
    rw [hevents, isFailure_runText]
    simp [Source.Succeeds]

/-- A broken source is remarked upon, among that a failure, and leaves the machine as it is. -/
theorem runSource_of_isBroken {s : Source} (hs : s.IsBroken) (m : Machine) :
    (runSource m s).2 = m ∧ (∀ e ∈ (runSource m s).1, e.isRemark = true) ∧
      ∃ e ∈ (runSource m s).1, e.isFailure = true := by
  obtain ⟨name, _ | text, isFile⟩ := s
  · simp [runSource, Event.isRemark, Event.isFailure]
  · obtain ⟨e, he⟩ := hs text rfl
    cases isFile <;> simp [runSource, runText, he, Event.isRemark, Event.isFailure]

/-! ## Many sources -/

theorem runSources_cons (m : Machine) (s : Source) (rest : List Source) :
    runSources m (s :: rest) =
      ((runSource m s).1 ++ (runSources (runSource m s).2 rest).1,
        (runSources (runSource m s).2 rest).2) := rfl

theorem runSources_append (m : Machine) (before after : List Source) :
    runSources m (before ++ after) =
      ((runSources m before).1 ++ (runSources (runSources m before).2 after).1,
        (runSources (runSources m before).2 after).2) := by
  induction before generalizing m with
  | nil => rfl
  | cons s before ih =>
    rw [List.cons_append, runSources_cons, runSources_cons, ih, List.append_assoc]

theorem runSources_split (m : Machine) (before : List Source) (s : Source) (after : List Source) :
    let earlier := runSources m before
    let here := runSource earlier.2 s
    let later := runSources here.2 after
    runSources m (before ++ s :: after) = (earlier.1 ++ here.1 ++ later.1, later.2) := by
  intro earlier here later
  rw [runSources_append, runSources_cons, ← List.append_assoc]

/-- Nothing that happens is a failure exactly if each source succeeds on the machine that those
before it leave. -/
theorem runSources_succeeds_iff (m : Machine) (sources : List Source) :
    (∀ e ∈ (runSources m sources).1, e.isFailure = false) ↔
      ∀ before s after, sources = before ++ s :: after →
        s.Succeeds (runSources m before).2 := by
  constructor
  · intro hevents before s after hsplit
    rw [hsplit, runSources_split] at hevents
    rw [← isFailure_runSource]
    intro e he
    exact hevents e (List.mem_append_left _ (List.mem_append_right _ he))
  · intro hsources
    induction sources generalizing m with
    | nil => simp [runSources]
    | cons s rest ih =>
      have hfirst : s.Succeeds m := hsources [] s rest rfl
      have hrest := ih (runSource m s).2 fun before s' after hsplit =>
        hsources (s :: before) s' after (congrArg (s :: ·) hsplit)
      exact List.forall_mem_append.2 ⟨(isFailure_runSource m s).2 hfirst, hrest⟩

/-- A broken source can be left out: the others run the same. -/
theorem runSources_of_isBroken {s : Source} (hs : s.IsBroken) (m : Machine)
    (before after : List Source) :
    ∃ remarks : List Event, (∀ e ∈ remarks, e.isRemark = true) ∧
      (∃ e ∈ remarks, e.isFailure = true) ∧
      let earlier := runSources m before
      let later := runSources earlier.2 after
      runSources m (before ++ after) = (earlier.1 ++ later.1, later.2) ∧
        runSources m (before ++ s :: after) = (earlier.1 ++ remarks ++ later.1, later.2) := by
  obtain ⟨hleft, hremarks, hfailure⟩ := runSource_of_isBroken hs (runSources m before).2
  refine ⟨_, hremarks, hfailure, runSources_append m before after, ?_⟩
  rw [runSources_split]
  simp only [hleft]

/-! ## The status -/

theorem status_eq_zero_iff {events : List Event} :
    status events = 0 ↔ ∀ e ∈ events, e.isFailure = false := by
  simp [status]

theorem status_eq_one {events : List Event} (h : ∃ e ∈ events, e.isFailure = true) :
    status events = 1 := by
  rw [status, if_pos (List.any_eq_true.2 h)]

/-! ## The command line -/

/-- The texts among options. -/
def evalTexts (options : List (Flag × Text)) : List Text :=
  options.filterMap fun (flag, text) => if flag = .eval then some text else none

theorem applyOptions_append (h : Host) (s : Settings) (before after : List (Flag × Text)) :
    applyOptions h s (before ++ after) =
      (applyOptions h s before).bind fun s => applyOptions h s after := by
  induction before generalizing s with
  | nil => rfl
  | cons option before ih =>
    obtain ⟨flag, text⟩ := option
    cases flag with
    | help => rfl
    | debug | quiet | eval => exact ih _
    | maxDepth =>
      simp only [List.cons_append, applyOptions]
      cases DepthLimit.read? text with
      | none => rfl
      | some limit => exact ih _

/-- Options add their texts to those before them, which decide nothing else. -/
theorem applyOptions_texts {h : Host} {s s' : Settings} {options : List (Flag × Text)}
    (hs : applyOptions h s options = .ok s') (texts : List Text) :
    applyOptions h { s with texts } options =
      .ok { s' with texts := texts ++ evalTexts options } := by
  induction options generalizing s texts with
  | nil =>
    cases hs
    simp [applyOptions, evalTexts]
  | cons option options ih =>
    obtain ⟨flag, text⟩ := option
    cases flag with
    | help => cases hs
    | debug | quiet => exact ih hs texts
    | eval =>
      have htexts := ih hs (texts ++ [text])
      rw [List.append_assoc] at htexts
      exact htexts
    | maxDepth =>
      simp only [applyOptions] at hs ⊢
      cases hlimit : DepthLimit.read? text with
      | none =>
        rw [hlimit] at hs
        cases hs
      | some limit =>
        rw [hlimit] at hs
        exact ih hs texts

theorem texts_of_applyOptions {h : Host} {s s' : Settings} {options : List (Flag × Text)}
    (hs : applyOptions h s options = .ok s') : s'.texts = s.texts ++ evalTexts options :=
  congrArg Settings.texts (Except.ok.inj (hs.symm.trans (applyOptions_texts hs s.texts)))

/-- One more text among options that are accepted comes behind the texts before it. -/
theorem applyOptions_insert {h : Host} {s s' : Settings} {before after : List (Flag × Text)}
    (hs : applyOptions h s (before ++ after) = .ok s') (t : Text) :
    ∃ texts, s'.texts = texts ++ evalTexts after ∧
      applyOptions h s (before ++ (.eval, t) :: after) =
        .ok { s' with texts := texts ++ [t] ++ evalTexts after } := by
  rw [applyOptions_append] at hs ⊢
  cases hbefore : applyOptions h s before with
  | error stop =>
    rw [hbefore] at hs
    cases hs
  | ok s₁ =>
    rw [hbefore] at hs
    have hafter : applyOptions h s₁ after = .ok s' := hs
    exact ⟨s₁.texts, texts_of_applyOptions hafter, applyOptions_texts hafter (s₁.texts ++ [t])⟩

theorem plan_eq_ok_iff {h : Host} {s : Settings} {args : List Text} {p : Plan} :
    plan h s args = .ok p ↔
      applyOptions h s (commandLine h args).options = .ok p.settings ∧
        (commandLine h args).error = none ∧ p.files = (commandLine h args).operands := by
  obtain ⟨settings, files⟩ := p
  rw [plan]
  generalize commandLine h args = line
  obtain ⟨options, _ | e, operands⟩ := line
  · cases applyOptions h s options <;> simp [Bind.bind, Except.bind, pure, Except.pure, eq_comm]
  · cases applyOptions h s options <;>
      simp [Bind.bind, Except.bind, throw, throwThe, MonadExceptOf.throw]

/-- One more text or file on a command line, anywhere among the others. -/
inductive Inserted (openFile : Text → Option Text) (l l' : CommandLine Flag) : Source → Prop
  | text {before after : List (Flag × Text)} {t : Text} (hoptions : l.options = before ++ after)
      (hoptions' : l'.options = before ++ (.eval, t) :: after)
      (hoperands : l'.operands = l.operands) (herror : l'.error = l.error) :
      Inserted openFile l l' (.ofText t)
  | file {before after : List Text} {name : Text} (hoperands : l.operands = before ++ after)
      (hoperands' : l'.operands = before ++ name :: after) (hoptions : l'.options = l.options)
      (herror : l'.error = l.error) : Inserted openFile l l' (.ofFile openFile name)

theorem Plan.sources_eq {p : Plan} (hgiven : p.readsInput = false) (openFile : Text → Option Text)
    (input : Text) :
    p.sources openFile input =
      p.settings.texts.map Source.ofText ++ p.files.map (Source.ofFile openFile) := by
  rw [Plan.sources, hgiven]
  rfl

theorem texts_of_plan {h : Host} {level : LogLevel} {args : List Text} {p : Plan}
    (hplan : plan h (.start h level) args = .ok p) :
    p.settings.texts = evalTexts (commandLine h args).options := by
  obtain ⟨hoptions, -⟩ := plan_eq_ok_iff.1 hplan
  exact texts_of_applyOptions hoptions

/-- With one more source the command line is still accepted, and the source is among the others. -/
theorem Inserted.exists_plan {openFile : Text → Option Text} {h : Host} {s : Settings}
    {args args' : List Text} {source : Source} {p : Plan}
    (hinserted : Inserted openFile (commandLine h args) (commandLine h args') source)
    (hplan : plan h s args = .ok p) (hgiven : p.readsInput = false) (input : Text) :
    ∃ p' before after, plan h s args' = .ok p' ∧ p'.settings.level = p.settings.level ∧
      p'.settings.limit = p.settings.limit ∧ p.sources openFile input = before ++ after ∧
      p'.sources openFile input = before ++ source :: after := by
  obtain ⟨hsettings, herror, hfiles⟩ := plan_eq_ok_iff.1 hplan
  rw [Plan.sources_eq hgiven]
  cases hinserted with
  | @text before after t hoptions hoptions' hoperands herror' =>
    rw [hoptions] at hsettings
    obtain ⟨texts, htexts, hinsert⟩ := applyOptions_insert hsettings t
    refine ⟨⟨{ p.settings with texts := texts ++ [t] ++ evalTexts after }, p.files⟩,
      texts.map Source.ofText,
      (evalTexts after).map Source.ofText ++ p.files.map (Source.ofFile openFile), ?_, rfl, rfl,
      ?_, ?_⟩
    · refine plan_eq_ok_iff.2 ⟨?_, herror'.trans herror, hfiles.trans hoperands.symm⟩
      rw [hoptions']
      exact hinsert
    · rw [htexts, List.map_append, List.append_assoc]
    · rw [Plan.sources_eq (by simp [Plan.readsInput])]
      simp
  | @file before after name hoperands hoperands' hoptions herror' =>
    refine ⟨⟨p.settings, before ++ name :: after⟩,
      p.settings.texts.map Source.ofText ++ before.map (Source.ofFile openFile),
      after.map (Source.ofFile openFile), ?_, rfl, rfl, ?_, ?_⟩
    · refine plan_eq_ok_iff.2 ⟨?_, herror'.trans herror, hoperands'.symm⟩
      rw [hoptions]
      exact hsettings
    · rw [hfiles, hoperands, List.map_append, List.append_assoc]
    · rw [Plan.sources_eq (by simp [Plan.readsInput])]
      simp

/-! ## The program -/

/-- What is said before the command line is read goes to the standard error output. -/
theorem run_of_plan {h : Host} {level : LogLevel} {args : List Text} {p : Plan}
    (hplan : plan h (.start h level) args = .ok p) (openFile : Text → Option Text) (input : Text) :
    (run h level args openFile input).1.out =
        (p.output h (p.run (p.sources openFile input)).1).out ∧
      (run h level args openFile input).2 = status (p.run (p.sources openFile input)).1 := by
  simp only [run, hplan]
  exact ⟨List.nil_append _, trivial⟩

/-- Remarks among the events of a plan write nothing to the standard output. -/
theorem Plan.out_output_remarks (p : Plan) (h : Host) (earlier : List Event) {remarks : List Event}
    (hremarks : ∀ e ∈ remarks, e.isRemark = true) (later : List Event) :
    (p.output h (earlier ++ remarks ++ later)).out = (p.output h (earlier ++ later)).out := by
  have hnone : ∀ o ∈ remarks.map (Event.output (h.logger p.settings.level) p.settings.limit),
      o.out = [] := by
    intro o ho
    obtain ⟨e, he, rfl⟩ := List.mem_map.1 ho
    exact Event.out_of_isRemark (hremarks e he) _ _
  simp only [Plan.output, Output.concat, List.map_append, List.flatMap_append,
    List.flatMap_eq_nil_iff.2 hnone, List.append_nil]

/-- **Broken sources are isolated.** Let the command line be accepted and name at least one text or
file. The sources are the texts followed by the files, and each runs on the machine that those
before it leave. The status is zero exactly if each can be opened and read and all its forms succeed
there. With one more source that cannot be opened or read, anywhere among the texts or files, the
program writes the same to the standard output and ends with status one. Then what happens with the
other sources and the machine at the end are the same, and there are only remarks on the source. -/
theorem run_isolates_sources (h : Host) (level : LogLevel) (openFile : Text → Option Text)
    (input : Text) {args : List Text} {p : Plan} (hplan : plan h (.start h level) args = .ok p)
    (hgiven : p.readsInput = false) :
    let line := commandLine h args
    let sources := p.sources openFile input
    let start : Machine := { limit := p.settings.limit }
    let result := run h level args openFile input
    (result.2 = 0 ↔ ∀ before s after, sources = before ++ s :: after →
      s.Succeeds (runSources start before).2) ∧
    (sources = (evalTexts line.options).map .ofText ++ line.operands.map (.ofFile openFile) ∧
      ∀ before s after, sources = before ++ s :: after →
        let earlier := runSources start before
        let here := runSource earlier.2 s
        let later := runSources here.2 after
        p.run sources = (earlier.1 ++ here.1 ++ later.1, later.2)) ∧
    ∀ args' s, Inserted openFile line (commandLine h args') s → s.IsBroken →
      let result' := run h level args' openFile input
      result'.1.out = result.1.out ∧ result'.2 = 1 ∧
      ∃ p' before after, plan h (.start h level) args' = .ok p' ∧ sources = before ++ after ∧
        p'.sources openFile input = before ++ s :: after ∧
        ∃ remarks : List Event, (∀ e ∈ remarks, e.isRemark = true) ∧
          let earlier := runSources start before
          let later := runSources earlier.2 after
          p.run sources = (earlier.1 ++ later.1, later.2) ∧
            p'.run (p'.sources openFile input) =
              (earlier.1 ++ remarks ++ later.1, later.2) := by
  intro line sources start result
  obtain ⟨hout, hstatus⟩ := run_of_plan hplan openFile input
  refine ⟨?_, ⟨?_, ?_⟩, ?_⟩
  · rw [hstatus, status_eq_zero_iff]
    exact runSources_succeeds_iff start sources
  · obtain ⟨-, -, hfiles⟩ := plan_eq_ok_iff.1 hplan
    rw [← hfiles, ← texts_of_plan hplan]
    exact Plan.sources_eq hgiven openFile input
  · intro before s after hsplit
    rw [hsplit]
    exact runSources_split start before s after
  · intro args' s hinserted hs result'
    obtain ⟨p', before, after, hplan', hlevel, hlimit, hsources, hsources'⟩ :=
      hinserted.exists_plan hplan hgiven input
    obtain ⟨hout', hstatus'⟩ := run_of_plan hplan' openFile input
    obtain ⟨remarks, hremarks, ⟨e, he, hfailure⟩, hrun, hrun'⟩ :=
      runSources_of_isBroken hs start before after
    have hp : p.run sources = runSources start (before ++ after) := congrArg _ hsources
    have hp' : p'.run (p'.sources openFile input) = runSources start (before ++ s :: after) := by
      rw [Plan.run, hlimit, hsources']
    refine ⟨?_, ?_, p', before, after, hplan', hsources, hsources', remarks, hremarks,
      hp.trans hrun, hp'.trans hrun'⟩
    · rw [hout', hout, hp', hp, hrun, hrun', p'.out_output_remarks h _ hremarks, Plan.output,
        Plan.output, hlevel, hlimit]
    · rw [hstatus', hp', hrun']
      exact status_eq_one ⟨e, List.mem_append_left _ (List.mem_append_right _ he), hfailure⟩

/-- The text between a text and a file would bind the global anew, but a later list in it does not
end. -/
theorem run_isolates_sources_unterminated :
    let openFile (name : Text) := if name = ascii "a.nl" then some (ascii "(print x)") else none
    let args := [ascii "-e", ascii "(global x \"c\")", ascii "a.nl"]
    let bad := ascii "(global x \"d\") (print (x"
    let args' := [ascii "-e", ascii "(global x \"c\")", ascii "-e", bad, ascii "a.nl"]
    let p : Plan := ⟨⟨.info, DepthLimit.standard, [ascii "(global x \"c\")"]⟩, [ascii "a.nl"]⟩
    let written := ascii "nil\n[String(\"c\")]\nnil\n"
    plan {} (.start {} .info) args = .ok p ∧ p.readsInput = false ∧
      Inserted openFile (commandLine {} args) (commandLine {} args') (.ofText bad) ∧
      (Source.ofText bad).IsBroken ∧
      ((run {} .info args openFile []).1.out = written ∧ (run {} .info args openFile []).2 = 0) ∧
      (run {} .info args' openFile []).1.out = written ∧
      (run {} .info args' openFile []).2 = 1 := by
  intro openFile args bad args' p written
  have hplan : plan {} (.start {} .info) args = .ok p := rfl
  have hbind : read (ascii "(global x \"c\")") = .ok [.list [.symbol (ascii "global"),
      .symbol (ascii "x"), .string (ascii "c")] none] := by with_unfolding_all rfl
  have hprint : read (ascii "(print x)") =
      .ok [.list [.symbol (ascii "print"), .symbol (ascii "x")] none] := by with_unfolding_all rfl
  have hrun : (run {} .info args openFile []).1.out = written ∧
      (run {} .info args openFile []).2 = 0 := by
    have hsources : p.sources openFile [] = [.ofText (ascii "(global x \"c\")"),
        ⟨ascii "a.nl", some (ascii "(print x)"), true⟩] := rfl
    rw [(run_of_plan hplan openFile []).1, (run_of_plan hplan openFile []).2, hsources]
    simp only [Plan.run, runSources, runSource, Source.ofText, runText_of_ok hbind,
      runText_of_ok hprint]
    decide +kernel
  have hbroken : (Source.ofText bad).IsBroken := by
    intro text htext
    cases htext
    exact ⟨.unterminatedList 15, by with_unfolding_all rfl⟩
  have hinserted : Inserted openFile (commandLine {} args) (commandLine {} args') (.ofText bad) :=
    @Inserted.text _ _ _ [(.eval, ascii "(global x \"c\")")] [] _ rfl rfl rfl rfl
  obtain ⟨hout, hstatus, -⟩ :=
    (run_isolates_sources {} .info openFile [] hplan rfl).2.2 args' _ hinserted hbroken
  exact ⟨hplan, rfl, hinserted, hbroken, hrun, hout.trans hrun.1, hstatus⟩

end SlotLisp.Batch
