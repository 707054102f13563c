import SlotLisp.Proofs.Congruence

/-!
# Evaluation only adds to the journal

Nothing that is evaluated depends on the journal, and what is in it stays
(`ignoresJournal_evaluate`). So a program can be evaluated in pieces, with the journal emptied in
between (`Machine.run_append`).
-/

namespace SlotLisp

/-- The store with earlier events in the journal. -/
def Store.precededBy (s : Store) (early : Array Event) : Store :=
  { s with journal := early ++ s.journal }

namespace Eval

/-- The outcome is the same whatever the journal holds, and the journal keeps it. -/
def IgnoresJournal (α : Type) (m : Eval α) : Prop :=
  ∀ (early : Array Event) (s : Store),
    outcome m (s.precededBy early) = ((outcome m s).1, (outcome m s).2.precededBy early)

theorem IgnoresJournal.bind {α β : Type} {m : Eval α} {f : α → Eval β}
    (hm : IgnoresJournal α m) (hf : ∀ a, IgnoresJournal β (f a)) :
    IgnoresJournal β (m >>= f) := by
  intro early s
  rw [outcome_bind, outcome_bind, hm early s]
  rcases outcome m s with ⟨e | a, s'⟩
  · rfl
  · exact hf a early s'

theorem IgnoresJournal.reified {m : Eval Atom} (hm : IgnoresJournal Atom m) :
    IgnoresJournal Atom (reified m) := by
  intro early s
  rw [outcome_reified, outcome_reified, hm early s]
  rcases outcome m s with ⟨e | a, s'⟩ <;> rfl

theorem congruence_ignoresJournal :
    Congruence (fun _ => True) fun α _ m _ => IgnoresJournal α m where
  pure _ early s := rfl
  bind hm hf := hm.bind fun a => hf a (symbolsIn_true a)
  throw e early s := rfl
  reified := .reified
  resolve _ _ early s := by
    rw [outcome_resolve, outcome_resolve]
    rfl
  record e early s := by
    rw [outcome_record, outcome_record]
    simp [Store.precededBy]
  bindGlobal _ _ early s := rfl
  tagging _ early s := rfl

theorem ignoresJournal_evaluate (levels : Nat) (context : Closure) (row : List Atom) :
    IgnoresJournal Atom (evaluate levels context row) := by
  induction levels generalizing context row with
  | zero => cases row <;> exact congruence_ignoresJournal.refuse _ _
  | succ levels ih =>
    have hlevels : Related (fun _ => True) (fun α _ m _ => IgnoresJournal α m) (evaluate levels)
        (evaluate levels) := fun context row _ _ => ih context row
    exact congruence_ignoresJournal.evaluate_succ hlevels context row (symbolsIn_true context)
      (symbolsIn_true row)

/-! ## Programs -/

theorem ignoresJournal_form (levels : Nat) (context : Closure) (a : Atom) :
    IgnoresJournal Atom (form levels context a) := by
  cases a with
  | list items tag => exact ignoresJournal_evaluate levels context items
  | _ => exact congruence_ignoresJournal.pure (symbolsIn_true _)

end Eval

variable (levels : Nat) (context : Closure)

/-- The results of the forms of a program and the store that they leave. -/
def formsOutcome (forms : List Atom) (s : Store) : List (Except EvalError Atom) × Store :=
  (evaluateForms levels context forms).run s

theorem formsOutcome_cons (a : Atom) (forms : List Atom) (s : Store) :
    formsOutcome levels context (a :: forms) s =
      (((Eval.form levels context a).outcome s).1 ::
          (formsOutcome levels context forms ((Eval.form levels context a).outcome s).2).1,
        (formsOutcome levels context forms ((Eval.form levels context a).outcome s).2).2) := by
  cases a <;> rfl

theorem formsOutcome_precededBy (forms : List Atom) (early : Array Event) (s : Store) :
    formsOutcome levels context forms (s.precededBy early) =
      ((formsOutcome levels context forms s).1,
        (formsOutcome levels context forms s).2.precededBy early) := by
  induction forms generalizing s with
  | nil => rfl
  | cons a forms ih =>
    rw [formsOutcome_cons, formsOutcome_cons, Eval.ignoresJournal_form levels context a early s, ih]

theorem formsOutcome_append (forms later : List Atom) (s : Store) :
    formsOutcome levels context (forms ++ later) s =
      ((formsOutcome levels context forms s).1 ++
          (formsOutcome levels context later (formsOutcome levels context forms s).2).1,
        (formsOutcome levels context later (formsOutcome levels context forms s).2).2) := by
  induction forms generalizing s with
  | nil => rfl
  | cons a forms ih =>
    rw [List.cons_append, formsOutcome_cons, formsOutcome_cons, ih]
    rfl

/-! ## Machines -/

namespace Machine

theorem run_eq (m : Machine) (context : Closure) (forms : List Atom) :
    m.run context forms = ((formsOutcome m.levels context forms m.store).1,
      { m with store := (formsOutcome m.levels context forms m.store).2 }) := rfl

theorem takeEvents_of_empty {m : Machine} (h : m.store.journal = #[]) : m.takeEvents = ([], m) := by
  obtain ⟨limit, depth, globals, journal, nextTag⟩ := m
  cases h
  rfl

/-- A program is evaluated in pieces. The events of the first piece can be taken out before the
second is evaluated. -/
theorem run_append (m : Machine) (context : Closure) (forms later : List Atom) :
    let first := m.run context forms
    let second := first.2.takeEvents.2.run context later
    m.run context (forms ++ later) =
      (first.1 ++ second.1,
        { second.2 with store := second.2.store.precededBy first.2.store.journal }) := by
  intro first second
  have hstore : first.2.store = first.2.takeEvents.2.store.precededBy first.2.store.journal := by
    simp [Store.precededBy, takeEvents]
  have hsecond := formsOutcome_precededBy m.levels context later first.2.store.journal
    first.2.takeEvents.2.store
  rw [← hstore] at hsecond
  obtain ⟨hresults, hleft⟩ := Prod.ext_iff.1 hsecond
  rw [run_eq, formsOutcome_append]
  exact Prod.ext (congrArg (first.1 ++ ·) hresults)
    (congrArg (fun s => { m with store := s }) hleft)

end Machine

end SlotLisp
