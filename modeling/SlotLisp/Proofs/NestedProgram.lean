import SlotLisp.Proofs.Journal
import SlotLisp.Proofs.RaisedLimit

/-!
# Programs inside a call

**Theorem (`evaluate_eval_forms`).** The call `(eval form ...)` does what the program of these forms
does under a limit that is lower by one, and gives the list of the results, with error atoms for the
forms that fail.

Both go through the forms in order, each in the store that the form before it leaves, whether that
has failed or not. Inside the call the forms are one level deeper, and with one level more allowed
the same number of levels is left to them.
-/

namespace SlotLisp

/-- A result as an atom: a failure is the atom of its error. -/
def reify : Except EvalError Atom → Atom
  | .ok a => a
  | .error e => .error e

namespace Eval

variable (levels : Nat) (context : Closure)

theorem outcome_reified_eq (m : Eval Atom) (s : Store) :
    outcome (reified m) s = (.ok (reify (outcome m s).1), (outcome m s).2) := by
  rw [outcome_reified]
  rcases outcome m s with ⟨e | a, s'⟩ <;> rfl

theorem outcome_reifiedCalls {forms : List Atom} (hforms : ∀ a ∈ forms, a.isList = true)
    (s : Store) :
    outcome (reifiedCalls (evaluate levels) context forms) s =
      (.ok ((formsOutcome levels context forms s).1.map reify),
        (formsOutcome levels context forms s).2) := by
  -- From any store, because a form that fails has changed it too.
  induction forms generalizing s with
  | nil => rfl
  | cons a forms ih =>
    obtain ⟨ha, hlater⟩ := List.forall_mem_cons.1 hforms
    cases a with
    | list items tag =>
      rw [reifiedCalls, outcome_bind_of_ok (outcome_reified_eq _ s),
        outcome_bind_of_ok (ih hlater _), formsOutcome_cons]
      rfl
    | _ => cases ha

theorem outcome_eval {forms : List Atom} (hforms : ∀ a ∈ forms, a.isList = true) (s : Store) :
    ∃ tag next, outcome (eval (evaluate levels) context forms) s =
      (.ok (.list ((formsOutcome levels context forms s).1.map reify) tag),
        { (formsOutcome levels context forms s).2 with nextTag := next }) := by
  have hall : forms.all Atom.isList = true := List.all_eq_true.2 hforms
  -- The list of the results is new, so it takes a tag of its own if one of them is a NaN.
  rw [eval, if_pos hall, outcome_bind_of_ok (outcome_reifiedCalls levels context hforms s),
    outcome_tagging]
  exact ⟨_, _, rfl⟩

end Eval

theorem Machine.run_call (m : Machine) (context : Closure) (row : List Atom) (tag : Tag) :
    m.run context [.list row tag] =
      ([(m.evaluate context row).1], (m.evaluate context row).2) := rfl

/-- **The call `(eval form ...)` is a program one level down.** Let all forms be lists, and let
`eval` be bound as at the start. From any store and with no evaluation in progress, the call
succeeds under a limit of `limit + 1`. It gives the list of the results that the program of the
forms has under `limit`, with the error atom in place of each failure. Both leave the same globals
and the same journal, and so have written the same lines. This holds also if the call is itself the
one form of a program. -/
theorem evaluate_eval_forms (m : Machine) (root : Closure) {forms : List Atom}
    (heval : m.lookup (ascii "eval") = some (.native .eval))
    (hforms : ∀ a ∈ forms, a.isList = true) (limit : Nat) :
    let call : List Atom := .symbol (ascii "eval") :: forms
    let (results, left) := (m.withLimit limit 0).run root forms
    let (result, left') := (m.withLimit (limit + 1) 0).evaluate root call
    (∃ tag, result = .ok (.list (results.map reify) tag)) ∧
      left'.store.globals = left.store.globals ∧ left'.store.journal = left.store.journal ∧
      ∀ tag, (m.withLimit (limit + 1) 0).run root [.list call tag] = ([result], left') := by
  intro call
  have hcall : ((evaluate (limit + 1) root call).outcome m.store) =
      (Eval.eval (evaluate limit) root forms).outcome m.store :=
    Eval.outcome_evaluate_native (Eval.callee_of_find? heval) limit root forms
  obtain ⟨tag, next, houtcome⟩ := Eval.outcome_eval limit root hforms m.store
  have hevaluate : (m.withLimit (limit + 1) 0).evaluate root call =
      (((evaluate (limit + 1) root call).outcome m.store).1,
        { m.withLimit (limit + 1) 0 with
          store := ((evaluate (limit + 1) root call).outcome m.store).2 }) := rfl
  rw [hcall, houtcome] at hevaluate
  rw [hevaluate]
  exact ⟨⟨tag, rfl⟩, rfl, rfl, fun tag => by rw [Machine.run_call, hevaluate]⟩

/-- The second form binds a global and then fails, the third uses the global, and the last is
refused two levels further down. -/
theorem evaluate_eval_forms_failing :
    let m : Machine := {}
    let print (a : Atom) : Atom := .list [.symbol (ascii "print"), a] none
    let nested (a : Atom) : Atom := .list [.symbol (ascii "eval"), a] none
    let failing : Atom := .list [.symbol (ascii "+"),
      .list [.symbol (ascii "global"), .symbol (ascii "x"), .string (ascii "c")] none,
      .list [.symbol (ascii "nope")] none] none
    let forms := [print (.string (ascii "a")), failing, print (.symbol (ascii "x")),
      nested (nested (print (.string (ascii "b"))))]
    let refused : Atom := .list [.list [.error .depthExceeded] none] none
    let (results, _) := (m.withLimit 2 0).run .empty forms
    let (result, left) := (m.withLimit 3 0).evaluate .empty (.symbol (ascii "eval") :: forms)
    m.lookup (ascii "eval") = some (.native .eval) ∧ (∀ a ∈ forms, a.isList = true) ∧
      results = [.ok .nil, .error .notAFunction, .ok .nil, .ok refused] ∧
      (∃ tag, result = .ok (.list [.nil, .error .notAFunction, .nil, refused] tag)) ∧
      left.lookup (ascii "x") = some (.string (ascii "c")) := by
  intro m print nested failing forms refused
  have heval : m.lookup (ascii "eval") = some (.native .eval) := rfl
  have hforms : ∀ a ∈ forms, a.isList = true := by simp [forms, print, nested, failing, Atom.isList]
  have hresults : ((m.withLimit 2 0).run .empty forms).1 =
      [.ok .nil, .error .notAFunction, .ok .nil, .ok refused] := rfl
  obtain ⟨hvalue, hglobals, -⟩ := evaluate_eval_forms m .empty heval hforms 2
  exact ⟨heval, hforms, hresults, hvalue, congrArg (·.find? (ascii "x")) hglobals⟩

end SlotLisp
